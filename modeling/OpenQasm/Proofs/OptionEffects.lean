import OpenQasm.Proofs.InternalFailures
import OpenQasm.Program.Text

/-! What the options have an effect on: the header, the standard gates and the text of reals. -/
namespace OpenQasm

/-- The expression with no note of whether its text may show a multiple of pi. -/
def Expression.eraseFold : Expression → Expression
  | .real x _ => .real x false
  | .integer value => .integer value
  | .identifier name => .identifier name
  | .operand o => .operand o

def Equality.eraseFold (e : Equality) : Equality := ⟨e.left.eraseFold, e.right.eraseFold⟩

def Call.eraseFold (c : Call) : Call := { c with params := c.params.map Expression.eraseFold }

mutual

def Statement.eraseFold : Statement → Statement
  | .gateCall call => .gateCall call.eraseFold
  | .subroutineCall call => .subroutineCall call.eraseFold
  | .barrier qubits => .barrier qubits
  | .measure target qubits => .measure target qubits
  | .branch test body => .branch test.eraseFold (eraseFoldAll body)

def eraseFoldAll : List Statement → List Statement
  | [] => []
  | s :: rest => s.eraseFold :: eraseFoldAll rest

end

theorem eraseFoldAll_eq_map (sts : List Statement) :
    eraseFoldAll sts = sts.map Statement.eraseFold := by
  induction sts with
  | nil => rfl
  | cons st rest ih => rw [eraseFoldAll, ih, List.map_cons]

def ProgramItem.eraseFold : ProgramItem → ProgramItem
  | .gate signature body => .gate signature (eraseFoldAll body)
  | .subroutine signature body => .subroutine signature (eraseFoldAll body)
  | .bodilessGate signature => .bodilessGate signature
  | .register storage name size => .register storage name size
  | .input name => .input name
  | .statement s => .statement s.eraseFold

/-- The global statements of a program without notes. -/
def Program.plainStatements (p : Program) : List ProgramItem :=
  p.statements.map ProgramItem.eraseFold

def Expression.real? : Expression → Option Binary64
  | .real x _ => some x
  | _ => none

def Equality.reals (e : Equality) : List Binary64 := [e.left, e.right].filterMap Expression.real?

def Call.reals (c : Call) : List Binary64 := c.params.filterMap Expression.real?

mutual

/-- The real literals of a statement, those in its branches included. -/
def Statement.reals : Statement → List Binary64
  | .gateCall call => call.reals
  | .subroutineCall call => call.reals
  | .barrier _ => []
  | .measure .. => []
  | .branch test body => test.reals ++ realsOf body

def realsOf : List Statement → List Binary64
  | [] => []
  | s :: rest => s.reals ++ realsOf rest

end

def ProgramItem.reals : ProgramItem → List Binary64
  | .gate _ body => realsOf body
  | .subroutine _ body => realsOf body
  | .statement s => s.reals
  | _ => []

def Program.reals (p : Program) : List Binary64 := p.statements.flatMap ProgramItem.reals

theorem Expression.real?_eraseFold (e : Expression) : e.eraseFold.real? = e.real? := by
  cases e <;> rfl

theorem Equality.reals_eraseFold (e : Equality) : e.eraseFold.reals = e.reals := by
  simp [reals, eraseFold, List.filterMap_cons, Expression.real?_eraseFold]

theorem Call.reals_eraseFold (c : Call) : c.eraseFold.reals = c.reals := by
  have hreal : Expression.real? ∘ Expression.eraseFold = Expression.real? :=
    funext Expression.real?_eraseFold
  rw [reals, reals, eraseFold, List.filterMap_map, hreal]

mutual

theorem Statement.reals_eraseFold : ∀ st : Statement, st.eraseFold.reals = st.reals
  | .gateCall call => call.reals_eraseFold
  | .subroutineCall call => call.reals_eraseFold
  | .barrier _ => rfl
  | .measure .. => rfl
  | .branch test body => by
    rw [Statement.eraseFold, Statement.reals, Statement.reals, test.reals_eraseFold,
      realsOf_eraseFoldAll body]

theorem realsOf_eraseFoldAll : ∀ sts : List Statement, realsOf (eraseFoldAll sts) = realsOf sts
  | [] => rfl
  | st :: rest => by
    rw [eraseFoldAll, realsOf, realsOf, st.reals_eraseFold, realsOf_eraseFoldAll rest]

end

theorem ProgramItem.reals_eraseFold (g : ProgramItem) : g.eraseFold.reals = g.reals := by
  cases g with
  | gate _ body => exact realsOf_eraseFoldAll body
  | subroutine _ body => exact realsOf_eraseFoldAll body
  | statement s => exact s.reals_eraseFold
  | _ => rfl

/-- The reals of a program show in its statements without notes. -/
theorem Program.reals_eq (p : Program) :
    p.reals = p.plainStatements.flatMap ProgramItem.reals := by
  rw [plainStatements, List.flatMap_map]
  exact List.flatMap_congr fun g _ => g.reals_eraseFold.symm

/-- None of the reals has a text as a multiple of pi. -/
def PiFree (reals : List Binary64) : Prop := ∀ x ∈ reals, x.piText? = none

theorem PiFree.append {xs ys : List Binary64} (h : PiFree (xs ++ ys)) : PiFree xs ∧ PiFree ys :=
  ⟨fun x hx => h x (List.mem_append_left _ hx), fun x hx => h x (List.mem_append_right _ hx)⟩

theorem Expression.text_eraseFold {e : Expression} (h : ∀ x ∈ e.real?, x.piText? = none) :
    e.eraseFold.text = e.text := by
  cases e with
  | real x fold =>
    have hx : x.piText? = none := h x rfl
    cases fold with
    | false => rfl
    | true => simp [eraseFold, text, Binary64.angleText, hx]
  | _ => rfl

theorem Equality.text_eraseFold {e : Equality} (h : PiFree e.reals) :
    e.eraseFold.text = e.text := by
  have hleft : e.left.eraseFold.text = e.left.text :=
    Expression.text_eraseFold fun x hx => h x (List.mem_filterMap.mpr ⟨e.left, by simp, hx⟩)
  have hright : e.right.eraseFold.text = e.right.text :=
    Expression.text_eraseFold fun x hx => h x (List.mem_filterMap.mpr ⟨e.right, by simp, hx⟩)
  rw [text, text, eraseFold, hleft, hright]

theorem Call.text_eraseFold {c : Call} (h : PiFree c.reals) : c.eraseFold.text = c.text := by
  have hparams : c.params.map (Expression.text ∘ Expression.eraseFold) =
      c.params.map Expression.text := by
    apply List.map_congr_left
    intro e he
    exact Expression.text_eraseFold fun x hx => h x (List.mem_filterMap.mpr ⟨e, he, hx⟩)
  rw [text, text, eraseFold, List.map_map, hparams]

mutual

theorem Statement.lines_eraseFold :
    ∀ st : Statement, PiFree st.reals → st.eraseFold.lines = st.lines
  | .gateCall call, h => by
    rw [Statement.eraseFold, Statement.lines, Statement.lines, Statement.headText,
      Statement.headText, call.text_eraseFold h]
  | .subroutineCall call, h => by
    rw [Statement.eraseFold, Statement.lines, Statement.lines, Statement.headText,
      Statement.headText, call.text_eraseFold h]
  | .barrier _, _ => rfl
  | .measure .., _ => rfl
  | .branch test body, h => by
    obtain ⟨htest, hbody⟩ := h.append
    rw [Statement.eraseFold, Statement.lines, Statement.lines, Statement.headText,
      Statement.headText, test.text_eraseFold htest, blockLines_eraseFoldAll body hbody]

theorem blockLines_eraseFoldAll : ∀ sts : List Statement, PiFree (realsOf sts) →
    Statement.blockLines (eraseFoldAll sts) = Statement.blockLines sts
  | [], _ => rfl
  | st :: rest, h => by
    obtain ⟨hst, hrest⟩ := h.append
    rw [eraseFoldAll, Statement.blockLines, Statement.blockLines, st.lines_eraseFold hst,
      blockLines_eraseFoldAll rest hrest]

end

theorem ProgramItem.lines_eraseFold {g : ProgramItem} (h : PiFree g.reals) :
    g.eraseFold.lines = g.lines := by
  cases g with
  | gate signature body =>
    have hlines (sts : List Statement) : (ProgramItem.gate signature sts).lines =
      ("gate " ++ signature.text ++ " \x7b") :: (Statement.blockLines sts ++ ["\x7d"]) := rfl
    rw [eraseFold, hlines, hlines, blockLines_eraseFoldAll body h]
  | subroutine signature body =>
    have hlines (sts : List Statement) : (ProgramItem.subroutine signature sts).lines =
      ("def " ++ signature.text ++ " \x7b") ::
        (Statement.blockLines sts ++ ["return;", "\x7d"]) := rfl
    rw [eraseFold, hlines, hlines, blockLines_eraseFoldAll body h]
  | statement s => exact s.lines_eraseFold h
  | _ => rfl

/-- The text of a program without multiples of pi depends on no notes. -/
theorem Program.lines_of_piFree {p : Program} (h : PiFree p.reals) :
    p.lines = p.header.lines ++ p.plainStatements.flatMap ProgramItem.lines := by
  have hlines : p.plainStatements.flatMap ProgramItem.lines =
      p.statements.flatMap ProgramItem.lines := by
    rw [plainStatements, List.flatMap_map]
    apply List.flatMap_congr
    intro g hg
    exact ProgramItem.lines_eraseFold fun x hx => h x (List.mem_flatMap.mpr ⟨g, hg, hx⟩)
  rw [lines, hlines]

theorem mapOk_bind {ε α β γ : Type} (g : β → γ) (x : Except ε α) (k : α → Except ε β) :
    (x >>= k).map g = x >>= fun a => (k a).map g := by
  cases x <;> rfl

theorem bind_mapOk {ε α β γ : Type} (g : α → β) (x : Except ε α) (k : β → Except ε γ) :
    x.map g >>= k = x >>= fun a => k (g a) := by
  cases x <;> rfl

theorem mapOk_pure {ε α β : Type} (g : α → β) (a : α) :
    (pure a : Except ε α).map g = pure (g a) := rfl

theorem mapOk_mapM {ε α β γ : Type} {g : β → γ} {f : α → Except ε β} {f' : α → Except ε γ}
    {xs : List α} (h : ∀ x ∈ xs, (f x).map g = f' x) :
    (xs.mapM f).map (List.map g) = xs.mapM f' := by
  induction xs with
  | nil => rfl
  | cons x rest ih =>
    rw [List.mapM_cons, List.mapM_cons, ← h x List.mem_cons_self,
      ← ih fun y hy => h y (List.mem_cons_of_mem x hy)]
    simp only [mapOk_bind, bind_mapOk, mapOk_pure, List.map_cons]

theorem mapOk_located {α β : Type} (g : α → β) (i : Instruction) (x : Except Fault α) :
    (located i x).map g = located i (x.map g) := by
  cases x <;> rfl

theorem Parameter.eraseFold_expression (fold : Bool) (q : Parameter) :
    (q.expression fold).eraseFold = q.expression false := by
  cases q <;> rfl

theorem Condition.targetExpression_eraseFold (target : ConditionTarget) (c : Circuit)
    (naming : Naming) :
    (targetExpression target c naming).map Expression.eraseFold =
      targetExpression target c naming := by
  unfold targetExpression
  cases target with
  | register r =>
    dsimp only
    split
    · rfl
    · cases c.register? r.name with
      | none => rfl
      | some declared =>
        dsimp only
        split <;> rfl
  | bit b =>
    dsimp only
    split
    · simp only [mapOk_bind, mapOk_pure, Expression.eraseFold]
    · rfl

/-- A test has no reals. -/
theorem Condition.equality_eraseFold (cond : Condition) (c : Circuit) (naming : Naming) :
    (cond.equality c naming).map Equality.eraseFold = cond.equality c naming := by
  unfold equality
  split
  · conv_rhs => rw [← targetExpression_eraseFold]
    simp only [mapOk_bind, mapOk_pure, bind_mapOk, Equality.eraseFold, Expression.eraseFold]
  · rfl

namespace Instruction
variable (i : Instruction) (s : Scope) (fold : Bool) (naming : Naming)

theorem call_eraseFold : (i.call s fold naming).map Call.eraseFold = i.call s false naming := by
  have hparams : i.operation.params.map (Expression.eraseFold ∘ Parameter.expression fold) =
      i.operation.params.map (Parameter.expression false) :=
    List.map_congr_left fun q _ => q.eraseFold_expression fold
  simp only [call, mapOk_bind, mapOk_pure, Call.eraseFold, List.map_map, hparams]

theorem measurement_eraseFold :
    (i.measurement naming).map Statement.eraseFold = i.measurement naming := by
  unfold measurement
  split
  · simp only [mapOk_bind, mapOk_pure, Statement.eraseFold]
  · rfl

theorem unconditioned_eraseFold :
    (i.unconditioned s fold naming).map Statement.eraseFold = i.unconditioned s false naming := by
  unfold unconditioned
  cases i.operation.kind with
  | gate =>
    simp only [mapOk_bind, mapOk_pure, Statement.eraseFold, ← i.call_eraseFold s fold, bind_mapOk]
  | subroutine =>
    simp only [mapOk_bind, mapOk_pure, Statement.eraseFold, ← i.call_eraseFold s fold, bind_mapOk]
  | barrier => simp only [mapOk_bind, mapOk_pure, Statement.eraseFold]
  | measurement => exact i.measurement_eraseFold naming
  | outside code => rfl

theorem lower_eraseFold (c : Circuit) :
    (i.lower c s fold naming).map Statement.eraseFold = i.lower c s false naming := by
  unfold lower
  split
  · exact i.unconditioned_eraseFold s fold naming
  · rename_i cond _
    split
    · rfl
    · have htest : (located i (cond.equality c naming)).map Equality.eraseFold =
          located i (cond.equality c naming) := by
        rw [mapOk_located, cond.equality_eraseFold]
      have hbody := i.unguarded.unconditioned_eraseFold s fold naming
      conv_rhs => rw [← htest]
      simp only [mapOk_bind, mapOk_pure, bind_mapOk, ← hbody, Statement.eraseFold, eraseFoldAll]

end Instruction

theorem Circuit.lowered_eraseFold (c : Circuit) (s : Scope) (fold : Bool) (naming : Naming) :
    (c.lowered s fold naming).map (List.map Statement.eraseFold) = c.lowered s false naming :=
  mapOk_mapM fun i _ => i.lower_eraseFold s fold naming c

theorem Definition.lower_eraseFold (d : Definition) (s : Scope) (fold : Bool) :
    (d.lower s fold).map ProgramItem.eraseFold = d.lower s false := by
  unfold lower
  cases d.form with
  | gate body =>
    simp only [mapOk_bind, mapOk_pure, ProgramItem.eraseFold, eraseFoldAll_eq_map,
      ← body.lowered_eraseFold s fold, bind_mapOk]
  | subroutine body =>
    simp only [mapOk_bind, mapOk_pure, ProgramItem.eraseFold, eraseFoldAll_eq_map,
      ← body.lowered_eraseFold s fold, bind_mapOk]
  | bodiless => rfl

namespace Session

/-- Lowering a circuit gives the same statements but for the notes, under all options. -/
theorem program_eraseFold (c : Circuit) (options : Options) (k : Catalog) :
    (program c options k).map Program.plainStatements =
      (program c ⟨[], false⟩ k).map Program.statements := by
  have hdefinitions :
      (k.definitions.mapM fun d : Definition => d.lower k.scope options.fold).map
          (List.map ProgramItem.eraseFold) =
        k.definitions.mapM fun d : Definition => d.lower k.scope false :=
    mapOk_mapM fun d _ => d.lower_eraseFold k.scope options.fold
  have hstatements := c.lowered_eraseFold k.scope options.fold .indexed
  simp only [program, ← hdefinitions, ← hstatements, mapOk_bind, bind_mapOk, mapOk_pure,
    Program.plainStatements, List.map_append, List.map_map]
  rfl

theorem header_of_program {c : Circuit} {options : Options} {k : Catalog} {p : Program}
    (h : program c options k = .ok p) : p.header = ⟨languageVersion, options.includes⟩ := by
  obtain ⟨definitions, -, h⟩ := bind_eq_ok.mp h
  obtain ⟨statements, -, h⟩ := bind_eq_ok.mp h
  rw [← Except.ok.inj h]

theorem start_agree (c : Circuit) {first second : Options}
    (h : standardInclude ∈ first.includes ↔ standardInclude ∈ second.includes) :
    (start c first).catalog = (start c second).catalog := by
  have hcontains : first.includes.contains standardInclude =
      second.includes.contains standardInclude := by
    rw [Bool.eq_iff_iff, List.contains_iff_mem, List.contains_iff_mem]
    exact h
  unfold start Scope.ofIncludes
  rw [hcontains]

/-- The builds collect the same and fail alike before lowering. -/
theorem build_agree (c : Circuit) {first second : Options}
    (h : standardInclude ∈ first.includes ↔ standardInclude ∈ second.includes) :
    (start c first).build.1.catalog = (start c second).build.1.catalog ∧
      ((∃ e, c.toProgram first = .error e ∧ c.toProgram second = .error e) ∨
        ∃ k, c.toProgram first = program c first k ∧ c.toProgram second = program c second k) := by
  have hstart := start_agree c h
  have hwalk : (start c first).walk = (start c second).walk := by
    unfold walk
    rw [hstart]
    rfl
  unfold Circuit.toProgram
  have hcircuit (options : Options) : (start c options).circuit = c := rfl
  rw [build_eq, build_eq, hwalk, hcircuit, hcircuit]
  cases checkRegisters c with
  | error fault => exact ⟨hstart, .inl ⟨_, rfl, rfl⟩⟩
  | ok =>
    cases (start c second).walk.failure with
    | some e => exact ⟨rfl, .inl ⟨e, rfl, rfl⟩⟩
    | none => exact ⟨rfl, .inr ⟨_, rfl, rfl⟩⟩

end Session

theorem error_or_ok_of_map_eq {ε α β γ : Type} {f : α → γ} {g : β → γ} {x : Except ε α}
    {y : Except ε β} (h : x.map f = y.map g) :
    (∃ e, x = .error e ∧ y = .error e) ∨ ∃ a b, x = .ok a ∧ y = .ok b ∧ f a = g b := by
  cases x with
  | error e =>
    cases y with
    | error d => exact .inl ⟨e, rfl, congrArg Except.error (Except.error.inj h).symm⟩
    | ok b => cases h
  | ok a =>
    cases y with
    | error e => cases h
    | ok b => exact .inr ⟨a, b, rfl, rfl, Except.ok.inj h⟩

/-- Equal statements but for the notes have one text, under one header, if no real in them is a
multiple of pi. -/
theorem Program.text_eq_of_plain {p q : Program} (hheader : p.header = q.header)
    (h : p.plainStatements = q.plainStatements) (hreals : PiFree p.reals) : p.text = q.text := by
  have hq : PiFree q.reals := by
    rwa [q.reals_eq, ← h, ← p.reals_eq]
  rw [text, text, lines_of_piFree hreals, lines_of_piFree hq, hheader, h]

/-- Two builds of a circuit with options that agree on whether the standard gates are included
come to the same catalog. They fail alike, or give programs with the same statements but for the
notes in real literals, and each with its own includes. With the same includes, and without
multiples of pi, the texts are the same too. -/
theorem options_change_notes_and_header_only (c : Circuit) (first second : Options)
    (h : standardInclude ∈ first.includes ↔ standardInclude ∈ second.includes) :
    (Session.start c first).build.1.catalog = (Session.start c second).build.1.catalog ∧
      ((∃ e, c.toProgram first = .error e ∧ c.toProgram second = .error e) ∨
        ∃ p q, c.toProgram first = .ok p ∧ c.toProgram second = .ok q ∧
          p.plainStatements = q.plainStatements ∧
          p.header = ⟨languageVersion, first.includes⟩ ∧
          q.header = ⟨languageVersion, second.includes⟩ ∧
          (first.includes = second.includes → PiFree p.reals →
            c.toText first = c.toText second)) := by
  obtain ⟨hcatalog, ⟨e, hfirst, hsecond⟩ | ⟨k, hfirst, hsecond⟩⟩ := Session.build_agree c h
  · exact ⟨hcatalog, .inl ⟨e, hfirst, hsecond⟩⟩
  · have hplain := (Session.program_eraseFold c first k).trans
      (Session.program_eraseFold c second k).symm
    refine ⟨hcatalog, ?_⟩
    rw [Circuit.toText, Circuit.toText, hfirst, hsecond]
    obtain ⟨e, hp, hq⟩ | ⟨p, q, hp, hq, hstatements⟩ := error_or_ok_of_map_eq hplain
    · exact .inl ⟨e, hp, hq⟩
    · have hpheader := Session.header_of_program hp
      have hqheader := Session.header_of_program hq
      refine .inr ⟨p, q, hp, hq, hstatements, hpheader, hqheader, ?_⟩
      intro hincludes hreals
      rw [hp, hq]
      apply congrArg Except.ok
      apply Program.text_eq_of_plain _ hstatements hreals
      rw [hpheader, hqheader, hincludes]

namespace Turning

/-- The angle `2 ^ 60`, too large to stand for a multiple of pi. -/
def angle : Binary64 := ⟨0x43B0000000000000⟩

def turn : Operation := ⟨.gate, "rx", 1, 0, [.value angle], none, some .rx, 0⟩

def body : Circuit := ⟨"body", [⟨.quantum, "q", 1⟩], [], [Catalog.Shared.onto turn]⟩

def bodyCall : Operation := ⟨.subroutine, "body", 1, 0, [], some body, none, 1⟩

/-- Turns in a block and under a condition. -/
def circuit : Circuit :=
  ⟨"main", [⟨.quantum, "q", 1⟩], [⟨.classical, "c", 1⟩],
    [Catalog.Shared.onto bodyCall,
      { Catalog.Shared.onto turn with
        condition := some ⟨.register ⟨.classical, "c", 1⟩, .equal, 1⟩ }]⟩

theorem circuit_alike_but_for_notes :
    circuit.toText ⟨[standardInclude], true⟩ = circuit.toText ⟨[standardInclude], false⟩ ∧
      ∃ p q, circuit.toProgram ⟨[standardInclude], true⟩ = .ok p ∧
        circuit.toProgram ⟨["more.inc", standardInclude, standardInclude], false⟩ = .ok q ∧
        p.reals = [angle, angle] ∧ p.plainStatements = q.plainStatements ∧
        q.header.includes = ["more.inc", standardInclude, standardInclude] := by
  have hangle : angle.piText? = none := by decide +kernel
  obtain ⟨p, hp⟩ : ∃ p, circuit.toProgram ⟨[standardInclude], true⟩ = .ok p := ⟨_, rfl⟩
  have hreals : (circuit.toProgram ⟨[standardInclude], true⟩).map Program.reals =
      .ok [angle, angle] := rfl
  rw [hp] at hreals
  have hreals : p.reals = [angle, angle] := Except.ok.inj hreals
  have hfree : PiFree p.reals := by
    rw [hreals]
    simp [PiFree, hangle]
  constructor
  · obtain ⟨-, ⟨e, hfail, -⟩ | ⟨_, _, hp', -, -, -, -, htext⟩⟩ :=
      options_change_notes_and_header_only circuit ⟨[standardInclude], true⟩
        ⟨[standardInclude], false⟩ Iff.rfl
    · cases hp.symm.trans hfail
    · obtain rfl := Except.ok.inj (hp.symm.trans hp')
      exact htext rfl hfree
  · obtain ⟨-, ⟨e, hfail, -⟩ | ⟨_, q, hp', hq, hplain, -, hheader, -⟩⟩ :=
      options_change_notes_and_header_only circuit ⟨[standardInclude], true⟩
        ⟨["more.inc", standardInclude, standardInclude], false⟩ (by decide)
    · cases hp.symm.trans hfail
    · obtain rfl := Except.ok.inj (hp.symm.trans hp')
      exact ⟨p, q, hp, hq, hreals, hplain, congrArg Header.includes hheader⟩

end Turning
end OpenQasm
