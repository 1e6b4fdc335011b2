import OpenQasm.Proofs.Scoping

/-! When registers, inputs and formals have names of their own, and when two of them meet. -/
namespace OpenQasm

def ProgramItem.declaredName? : ProgramItem → Option String
  | .register _ name _ => some name
  | .input name => some name
  | _ => none

/-- The names of the inputs and registers that a program declares, in order. -/
def Program.declaredNames (p : Program) : List String :=
  p.statements.filterMap ProgramItem.declaredName?

/-- A name that is neither a word of the language nor an included gate. -/
def Options.Allows (options : Options) (name : String) : Prop :=
  name ∉ reservedWords ∧ (standardInclude ∈ options.includes → name ∉ StandardGate.includedNames)

instance (options : Options) : DecidablePred options.Allows :=
  fun _ => inferInstanceAs (Decidable (_ ∧ _))

namespace Exported
variable {c : Circuit} {options : Options} {k : Catalog} {items : List ProgramItem}
  {statements : List Statement} {p : Program} (h : Exported c options k items statements)
  (hp : p.statements = items ++ c.declarations ++ statements.map .statement)
include h hp

theorem declaredNames_eq :
    p.declaredNames = c.symbols ++ c.cregs.map (·.name) ++ c.qregs.map (·.name) := by
  have hitems : items.filterMap ProgramItem.declaredName? = [] := by
    apply h.filterMap_items_eq_nil
    intro g hg
    cases g with
    | register storage name size => simp [ProgramItem.definedName?] at hg
    | input name => simp [ProgramItem.definedName?] at hg
    | _ => rfl
  rw [Program.declaredNames, hp]
  simp [hitems, Circuit.declarations, List.filterMap_map, Function.comp_def,
    ProgramItem.declaredName?]

/-- The names of a program's declarations are those that the circuit brings into its scope. -/
theorem declaredNames_perm : p.declaredNames.Perm (Session.globalNames c) := by
  rw [h.declaredNames_eq hp, Session.globalNames]
  calc (c.symbols ++ c.cregs.map (·.name) ++ c.qregs.map (·.name)).Perm
        (c.qregs.map (·.name) ++ (c.symbols ++ c.cregs.map (·.name))) := List.perm_append_comm
    List.Perm _ (c.qregs.map (·.name) ++ (c.cregs.map (·.name) ++ c.symbols)) :=
      List.perm_append_comm.append_left _
    _ = c.qregs.map (·.name) ++ c.cregs.map (·.name) ++ c.symbols := by rw [List.append_assoc]

end Exported

/-- Registers differ among themselves, and so do symbols, but a register can be named like a
symbol. -/
theorem Circuit.Regular.nodup_globalNames_iff {c : Circuit} (hc : c.Regular) :
    (Session.globalNames c).Nodup ↔ ∀ r ∈ c.qregs ++ c.cregs, r.name ∉ c.symbols := by
  rw [Session.globalNames, List.nodup_append, ← List.map_append]
  constructor
  · rintro ⟨-, -, hapart⟩ r hr hin
    exact hapart r.name (List.mem_map_of_mem hr) r.name hin rfl
  · intro h
    refine ⟨hc.names, c.nodup_symbols, ?_⟩
    rintro name hname other hother rfl
    obtain ⟨r, hr, rfl⟩ := List.mem_map.mp hname
    exact h r hr hother

namespace Scope

theorem length_reserved_foldl_reserve (names : List String) (s : Scope) :
    (names.foldl reserve s).reserved.length ≤ s.reserved.length + names.length := by
  induction names generalizing s with
  | nil => simp
  | cons name rest ih =>
    have hstep : (s.reserve name).reserved.length ≤ s.reserved.length + 1 := by
      unfold reserve
      split <;> simp
    have hrest := ih (s.reserve name)
    rw [List.foldl_cons, List.length_cons]
    omega

/-- No reservation is passed over exactly if the names are different and free. -/
theorem reserved_foldl_reserve_iff (names : List String) (s : Scope) :
    (names.foldl reserve s).reserved = s.reserved ++ names ↔
      names.Nodup ∧ ∀ name ∈ names, s.binds name = false := by
  induction names generalizing s with
  | nil => simp
  | cons name rest ih =>
    rw [List.foldl_cons]
    cases hbound : s.binds name with
    | true =>
      -- a name that is bound is dropped, and the rest cannot make up for it
      have hsame : s.reserve name = s := by rw [reserve, if_pos hbound]
      have hshort := length_reserved_foldl_reserve rest s
      rw [hsame]
      constructor
      · intro h
        rw [h, List.length_append, List.length_cons] at hshort
        omega
      · rintro ⟨-, hfree⟩
        simp [hfree name List.mem_cons_self] at hbound
    | false =>
      have hnext : (s.reserve name).reserved = s.reserved ++ [name] := by
        rw [reserve, if_neg (by simp [hbound])]
      have hrest := ih (s.reserve name)
      rw [hnext, List.append_assoc, List.singleton_append] at hrest
      rw [hrest, List.nodup_cons, List.forall_mem_cons]
      simp only [binds_reserve, Bool.or_eq_false_iff, beq_eq_false_iff_ne]
      constructor
      · rintro ⟨hnodup, hfree⟩
        exact ⟨⟨fun hin => (hfree name hin).2 rfl, hnodup⟩, hbound, fun m hm => (hfree m hm).1⟩
      · rintro ⟨⟨hnew, hnodup⟩, -, hfree⟩
        exact ⟨hnodup, fun m hm => ⟨hfree m hm, fun he => hnew (he ▸ hm)⟩⟩

theorem binds_ofIncludes_eq_false {options : Options} {name : String} :
    (ofIncludes options.includes).binds name = false ↔ options.Allows name := by
  rw [← Bool.not_eq_true, binds_iff]
  by_cases hinc : standardInclude ∈ options.includes <;>
    simp [boundNames, includedNames, ofIncludes, Options.Allows, hinc]

end Scope

/-- Registers and inputs have different names that the language and the included gates leave free
exactly if the circuit names no register like a symbol and uses no such name, which is exactly
if the scope passes over none of their reservations. -/
theorem declaredNames_apart_iff {c : Circuit} (hc : c.Built fun _ => True) {options : Options}
    {p : Program} (h : c.toProgram options = .ok p) :
    ((p.declaredNames.Nodup ∧ ∀ name ∈ p.declaredNames, options.Allows name) ↔
      (∀ r ∈ c.qregs ++ c.cregs, r.name ∉ c.symbols ∧ options.Allows r.name) ∧
        ∀ name ∈ c.symbols, options.Allows name) ∧
    ((p.declaredNames.Nodup ∧ ∀ name ∈ p.declaredNames, options.Allows name) ↔
      (c.globalScope options).reserved = Session.globalNames c) := by
  obtain ⟨k, items, statements, hexp, hp⟩ := Circuit.exported_of_toProgram h
  have hperm := hexp.declaredNames_perm hp
  have hsame : (∀ name ∈ p.declaredNames, options.Allows name) ↔
      ∀ name ∈ Session.globalNames c, options.Allows name :=
    forall_congr' fun name => by rw [hperm.mem_iff]
  rw [hperm.nodup_iff, hsame]
  constructor
  · have hparts : (∀ name ∈ Session.globalNames c, options.Allows name) ↔
        (∀ r ∈ c.qregs ++ c.cregs, options.Allows r.name) ∧
          ∀ name ∈ c.symbols, options.Allows name := by
      rw [Session.globalNames, ← List.map_append, List.forall_mem_append, List.forall_mem_map]
    rw [hc.regular.nodup_globalNames_iff, hparts]
    constructor
    · rintro ⟨hapart, hregisters, hsymbols⟩
      exact ⟨fun r hr => ⟨hapart r hr, hregisters r hr⟩, hsymbols⟩
    · rintro ⟨hregisters, hsymbols⟩
      exact ⟨fun r hr => (hregisters r hr).1, fun r hr => (hregisters r hr).2, hsymbols⟩
  · have hreserved := Scope.reserved_foldl_reserve_iff (Session.globalNames c)
      (.ofIncludes options.includes)
    simp only [Scope.binds_ofIncludes_eq_false] at hreserved
    exact hreserved.symm

theorem Nested.circuit_declaredNames :
    ∃ p, circuit.toProgram .standard = .ok p ∧ p.declaredNames = ["theta", "c", "q"] ∧
      p.declaredNames.Nodup ∧ (∀ name ∈ p.declaredNames, Options.standard.Allows name) ∧
      (circuit.globalScope .standard).reserved = ["q", "c", "theta"] := by
  obtain ⟨p, hp⟩ : ∃ p, circuit.toProgram .standard = .ok p := ⟨_, rfl⟩
  have hnames : (circuit.toProgram .standard).map Program.declaredNames =
      .ok ["theta", "c", "q"] := rfl
  rw [hp] at hnames
  have hbuilt := circuit_fromFactories.assembled.built
  obtain ⟨hcircuit, hreserved⟩ := declaredNames_apart_iff hbuilt hp
  have hapart := hcircuit.mpr ⟨by decide, by decide⟩
  exact ⟨p, hp, Except.ok.inj hnames, hapart.1, hapart.2, hreserved.mp hapart⟩

namespace Clashing

def turn : Operation := ⟨.gate, "rx", 1, 0, [.symbol "theta"], none, some .rx, 0⟩

/-- A circuit that turns a qubit of the register `theta` by the angle `theta`, with a classical
register named like a word of the language. -/
def circuit : Circuit :=
  ⟨"main", [⟨.quantum, "theta", 1⟩], [⟨.classical, "gate", 1⟩],
    [⟨turn, [⟨.quantum, some "theta", 0⟩], [], none⟩]⟩

theorem circuit_fromFactories : circuit.FromFactories := by
  have hturn : Operation.ofStandard 0 .rx [.symbol "theta"] = .ok turn := rfl
  refine ⟨[turn], History.nil.cons (by simp) (.standard hturn), ?_⟩
  exact (((Circuit.Built.empty "main").declare (r := ⟨.quantum, "theta", 1⟩) rfl).declare
    (r := ⟨.classical, "gate", 1⟩) rfl).append
    (i := ⟨turn, [⟨.quantum, some "theta", 0⟩], [], none⟩) List.mem_cons_self rfl

/-- A circuit from the factories whose program declares one name twice, and a word of the
language. -/
theorem circuit_declaredNames_clash :
    circuit.FromFactories ∧ ∃ p, circuit.toProgram .standard = .ok p ∧
      p.declaredNames = ["theta", "gate", "theta"] ∧ ¬ p.declaredNames.Nodup ∧
      ¬ Options.standard.Allows "gate" := by
  obtain ⟨p, hp⟩ : ∃ p, circuit.toProgram .standard = .ok p := ⟨_, rfl⟩
  have hnames : (circuit.toProgram .standard).map Program.declaredNames =
      .ok ["theta", "gate", "theta"] := rfl
  rw [hp] at hnames
  have hnames := Except.ok.inj hnames
  refine ⟨circuit_fromFactories, p, hp, hnames, ?_, by decide⟩
  rw [hnames]
  decide

end Clashing

/-- Formals with different names that are not the names of what the block calls. -/
structure Block.CaptureFree (b : Block) : Prop where
  formals : (b.params ++ b.qubits).Nodup
  calls : ∀ call ∈ callsOf b.body, call.name ∉ b.params ++ b.qubits

instance : DecidablePred Block.CaptureFree := fun b =>
  decidable_of_iff
    ((b.params ++ b.qubits).Nodup ∧ ∀ call ∈ callsOf b.body, call.name ∉ b.params ++ b.qubits)
    ⟨fun h => ⟨h.1, h.2⟩, fun h => ⟨h.formals, h.calls⟩⟩

/-- A body with no symbol named like a formal qubit, that calls nothing by the name of a symbol or
a formal qubit. -/
structure Circuit.FormalsApart (body : Circuit) (s : Scope) : Prop where
  formals : ∀ q ∈ body.allQubits, q.flatName ∉ body.symbols
  callees : ∀ i ∈ body.instructions, i.operation.IsCalled → ∀ name ∈ s.name? i.operation,
    name ∉ body.symbols ∧ ∀ q ∈ body.allQubits, q.flatName ≠ name

/-- A body whose formals are the name of no callee, whatever suffix that has. -/
structure Circuit.FormalsClear (body : Circuit) : Prop where
  formals : ∀ q ∈ body.allQubits, q.flatName ∉ body.symbols
  callees : ∀ i ∈ body.instructions, i.operation.IsCalled → ∀ suffix,
    i.operation.name ++ suffix ∉ body.symbols ∧
      ∀ q ∈ body.allQubits, q.flatName ≠ i.operation.name ++ suffix

namespace Circuit.Regular
variable {body : Circuit} (h : body.Regular)
include h

theorem exists_call_iff {s : Scope} {fold : Bool} {naming : Naming} {sts : List Statement}
    (hlow : body.lowered s fold naming = .ok sts) {name : String} :
    (∃ call ∈ callsOf sts, call.name = name) ↔
      ∃ i ∈ body.instructions, i.operation.IsCalled ∧ s.name? i.operation = some name := by
  have hcalls : List.Forall₂ (fun call i => s.name? i.operation = some call.name) (callsOf sts)
      (body.instructions.filter fun i => decide i.operation.IsCalled) :=
    forall₂_callsOf (lowered_eq_ok.mp hlow) (fun i hi => (h.placed i hi).qubit_count)
      fun i _ _ name hname => hname
  constructor
  · rintro ⟨call, hcall, rfl⟩
    obtain ⟨i, hi, hname⟩ := exists_right_of_forall₂ hcalls hcall
    obtain ⟨hi, hcalled⟩ := List.mem_filter.mp hi
    exact ⟨i, hi, of_decide_eq_true hcalled, hname⟩
  · rintro ⟨i, hi, hcalled, hname⟩
    obtain ⟨call, hcall, hcallee⟩ :=
      exists_left_of_forall₂ hcalls (List.mem_filter.mpr ⟨hi, decide_eq_true hcalled⟩)
    exact ⟨call, hcall, Option.some.inj (hcallee.symm.trans hname)⟩

theorem captureFree_iff {s : Scope} {fold : Bool} {b : Block}
    (hlow : body.lowered s fold .flat = .ok b.body) (hparams : b.params = body.symbols)
    (hqubits : b.qubits = body.qubitFormals) : b.CaptureFree ↔ body.FormalsApart s := by
  have hformal {name : String} : name ∈ b.params ++ b.qubits ↔
      name ∈ body.symbols ∨ ∃ q ∈ body.allQubits, q.flatName = name := by
    rw [hparams, hqubits, qubitFormals_eq, List.mem_append, List.mem_map]
  constructor
  · intro hfree
    refine ⟨?_, ?_⟩
    · intro q hq hin
      have hnodup := hfree.formals
      rw [hparams, hqubits, qubitFormals_eq, List.nodup_append] at hnodup
      exact hnodup.2.2 _ hin _ (List.mem_map_of_mem hq) rfl
    · intro i hi hcalled name hname
      obtain ⟨call, hcall, rfl⟩ := (h.exists_call_iff hlow).mpr ⟨i, hi, hcalled, hname⟩
      have hnot := hfree.calls call hcall
      rw [hformal, not_or] at hnot
      exact ⟨hnot.1, fun q hq he => hnot.2 ⟨q, hq, he⟩⟩
  · intro hapart
    refine ⟨?_, ?_⟩
    · rw [hparams, hqubits, List.nodup_append]
      refine ⟨body.nodup_symbols, h.nodup_qubitFormals, ?_⟩
      rintro name hname other hother rfl
      rw [qubitFormals_eq] at hother
      obtain ⟨q, hq, rfl⟩ := List.mem_map.mp hother
      exact hapart.formals q hq hname
    · intro call hcall hin
      obtain ⟨i, hi, hcalled, hname⟩ := (h.exists_call_iff hlow).mp ⟨call, hcall, rfl⟩
      obtain ⟨hsymbol, hqubit⟩ := hapart.callees i hi hcalled call.name hname
      rcases hformal.mp hin with hin | ⟨q, hq, he⟩
      · exact hsymbol hin
      · exact hqubit q hq he

end Circuit.Regular

theorem Scope.exists_firstFree_eq (s : Scope) (suffix : String) (tries : Nat) (name : String) :
    ∃ added, s.firstFree suffix tries name = name ++ added := by
  induction tries generalizing name with
  | zero => exact ⟨"", String.append_empty.symm⟩
  | succ tries ih =>
    rw [firstFree]
    split
    · obtain ⟨added, h⟩ := ih (name ++ suffix)
      exact ⟨suffix ++ added, by rw [h, String.append_assoc]⟩
    · exact ⟨"", String.append_empty.symm⟩

/-- A definition is named like its operation, up to a suffix. -/
theorem Catalog.exists_name_eq_enterAll (s : Scope) (is : List Instruction) :
    ∀ d ∈ ((ofScope s).enterAll is).catalog.definitions,
      ∃ added, d.name = d.operation.name ++ added := by
  refine enterAll_induction
    (P := fun k => ∀ d ∈ k.definitions, ∃ added, d.name = d.operation.name ++ added) ?_ ?_
  · intro k i _ _ _ hk d hd
    rcases List.mem_append.mp hd with hd | hd
    · exact hk d hd
    · obtain rfl := List.mem_singleton.mp hd
      exact k.scope.exists_firstFree_eq _ _ _
  · simp [ofScope]

namespace Exported
variable {c : Circuit} {options : Options} {k : Catalog} {items : List ProgramItem}
  {statements : List Statement} {p : Program} (h : Exported c options k items statements)
include h

/-- A callee is named like the operation, up to a suffix. -/
theorem exists_name?_eq (hc : Identified (operationsOf c.instructions)) {op : Operation}
    (hop : op ∈ operationsOf c.instructions) {name : String}
    (hname : k.scope.name? op = some name) : ∃ added, name = op.name ++ added := by
  cases hprov : k.scope.provides op with
  | true =>
    obtain rfl := Scope.name_eq_of_provides hprov hname
    exact ⟨"", String.append_empty.symm⟩
  | false =>
    have hord := h.ordered hc
    have hnamed := Catalog.exists_name_eq_enterAll (c.globalScope options)
      (postorder (c.globalScope options).provides c.instructions)
    rw [h.enterAll_eq hc] at hnamed
    obtain ⟨d, hd, hkey, rfl⟩ := hord.exists_of_name? hprov hname
    rw [← hc.name_eq_of_key hop (hord.mem d hd) hkey]
    exact hnamed d hd

theorem formalsApart_of_formalsClear (hc : Identified (operationsOf c.instructions))
    {body : Circuit} (hreach : c.Reaches options body) (hclear : body.FormalsClear) :
    body.FormalsApart k.scope := by
  refine ⟨hclear.formals, ?_⟩
  intro i hi hcalled name hname
  have hop := Circuit.operationsOf_subset_of_enters hreach.to_reflTransGen
    (operation_mem_operationsOf hi)
  obtain ⟨added, rfl⟩ := h.exists_name?_eq hc hop hname
  exact hclear.callees i hi hcalled added

/-- The blocks of a program and the bodies that its circuit reaches correspond. -/
theorem captureFree_blocks_iff (hc : c.FromFactories)
    (hp : p.statements = items ++ c.declarations ++ statements.map .statement) :
    (∀ b ∈ p.blocks, b.CaptureFree) ↔
      ∀ body, c.Reaches options body → body.FormalsApart k.scope := by
  have hreaches {body : Circuit} := hc.assembled.defined_iff (b := body) h.collected
  constructor
  · intro hblocks body hbody
    obtain ⟨d, hd, hown⟩ := hreaches.mpr hbody
    obtain ⟨hop, hform⟩ := h.definition_form hd
    obtain ⟨g, -, hlower⟩ := exists_right_of_forall₂ h.definitions hd
    obtain ⟨-, sts, hlow⟩ := (Definition.exists_lower hform).mp ⟨g, hlower⟩ body hown
    have hblock : ⟨d.name, body.symbols, body.qubitFormals, sts⟩ ∈ p.blocks :=
      (h.mem_blocks hp).mpr ⟨d, hd, body, hown, hlow, rfl⟩
    have hregular := hc.regular_body d.operation hop body hown
    exact (hregular.captureFree_iff hlow rfl rfl).mp (hblocks _ hblock)
  · intro hbodies b hb
    obtain ⟨d, hd, body, hown, hlow, hblock⟩ := (h.mem_blocks hp).mp hb
    have hregular := hc.regular_body d.operation (h.definition_form hd).1 body hown
    exact (hregular.captureFree_iff hlow (congrArg Block.params hblock)
      (congrArg Block.qubits hblock)).mpr (hbodies body (hreaches.mp ⟨d, hd, hown⟩))

end Exported

/-- In the blocks of a program every name has one meaning exactly if that is so in all bodies that
the circuit reaches, with their callees under the names that the scope gave them. It is so, whatever
these are, if formals differ and none begins with the name of an operation that the body calls. -/
theorem blocks_captureFree_iff {c : Circuit} (hc : c.FromFactories) {options : Options}
    {s : Session} {p : Program} (h : (Session.start c options).build = (s, .ok p)) :
    ((∀ b ∈ p.blocks, b.CaptureFree) ↔
      ∀ body, c.Reaches options body → body.FormalsApart s.catalog.scope) ∧
    ((∀ body, c.Reaches options body → body.FormalsClear) → ∀ b ∈ p.blocks, b.CaptureFree) := by
  obtain ⟨items, statements, hexp, hp⟩ := Session.exported_of_build h
  have hexact := hexp.captureFree_blocks_iff hc hp
  refine ⟨hexact, fun hclear => hexact.mpr ?_⟩
  intro body hbody
  exact hexp.formalsApart_of_formalsClear hc.identified hbody (hclear body hbody)

theorem Nested.circuit_captureFree :
    ∃ s p, (Session.start circuit .standard).build = (s, .ok p) ∧
      (∀ b ∈ p.blocks, b.CaptureFree) ∧ chain.FormalsApart s.catalog.scope := by
  obtain ⟨s, p, h⟩ : ∃ s p, (Session.start circuit .standard).build = (s, .ok p) := ⟨_, _, rfl⟩
  have hfree : (circuit.toProgram .standard).map (fun p => decide (∀ b ∈ p.blocks, b.CaptureFree)) =
      .ok true := rfl
  rw [Circuit.toProgram, h] at hfree
  have hfree := of_decide_eq_true (Except.ok.inj hfree)
  have hreach : circuit.Reaches .standard chain := by
    refine .single ⟨⟨chainCall, [q 1, q 0], [], _⟩, List.mem_cons_of_mem _ List.mem_cons_self, ?_⟩
    exact ⟨.inr rfl, by simp [Operation.Builtin, chainCall], rfl⟩
  exact ⟨s, p, h, hfree, (blocks_captureFree_iff circuit_fromFactories h).1.mp hfree chain hreach⟩

namespace Clashing

/-- A gate without a body that has the name of an angle. -/
def mark : Operation := ⟨.gate, "theta", 1, 0, [], none, none, 1⟩

def body : Circuit :=
  ⟨"g", [⟨.quantum, "q", 1⟩], [],
    [⟨turn, [⟨.quantum, some "q", 0⟩], [], none⟩, ⟨mark, [⟨.quantum, some "q", 0⟩], [], none⟩]⟩

/-- The body as a gate, called with the angle 1. -/
def bodyGate : Operation :=
  ⟨.gate, "g", 1, 0, [.value ⟨0x3ff0000000000000⟩], some body, none, 2⟩

/-- A circuit without symbols that calls a gate with one. -/
def caller : Circuit :=
  ⟨"main", [⟨.quantum, "q", 1⟩], [], [⟨bodyGate, [⟨.quantum, some "q", 0⟩], [], none⟩]⟩

theorem caller_fromFactories : caller.FromFactories := by
  have hturn : Operation.ofStandard 0 .rx [.symbol "theta"] = .ok turn := rfl
  have hmark : Operation.bodiless 1 "theta" 1 [] = .ok mark := rfl
  have hbody : body.Built (· ∈ [mark, turn]) :=
    ((Circuit.Built.ofSizes "g" 1 0).append (i := ⟨turn, [⟨.quantum, some "q", 0⟩], [], none⟩)
      (by simp) rfl).append (i := ⟨mark, [⟨.quantum, some "q", 0⟩], [], none⟩) (by simp) rfl
  have hgate : body.asGate 2 (some [.value ⟨0x3ff0000000000000⟩]) = .ok bodyGate := rfl
  have hhistory : History [bodyGate, mark, turn] :=
    ((History.nil.cons (by simp) (.standard hturn)).cons (by simp [mark, turn])
      (.bodiless hmark)).cons (by simp [bodyGate, mark, turn]) (.gate hbody hgate)
  exact ⟨_, hhistory, (Circuit.Built.ofSizes "main" 1 0).append
    (i := ⟨bodyGate, [⟨.quantum, some "q", 0⟩], [], none⟩) (by simp) rfl⟩

/-- A circuit from the factories whose program has a block that calls a gate by the name of the
block's own parameter. -/
theorem caller_captures :
    caller.FromFactories ∧ ∃ p, caller.toProgram .standard = .ok p ∧
      p.blocks.map (fun b => (b.params, (callsOf b.body).map (·.name))) =
        [(["theta"], ["rx", "theta"])] ∧ ¬ ∀ b ∈ p.blocks, b.CaptureFree := by
  obtain ⟨p, hp⟩ : ∃ p, caller.toProgram .standard = .ok p := ⟨_, rfl⟩
  have hnames : (caller.toProgram .standard).map
      (fun p => p.blocks.map fun b => (b.params, (callsOf b.body).map (·.name))) =
        .ok [(["theta"], ["rx", "theta"])] := rfl
  have hcaptured : (caller.toProgram .standard).map
      (fun p => decide (∀ b ∈ p.blocks, b.CaptureFree)) = .ok false := rfl
  rw [hp] at hnames hcaptured
  exact ⟨caller_fromFactories, p, hp, Except.ok.inj hnames,
    of_decide_eq_false (Except.ok.inj hcaptured)⟩

end Clashing

end OpenQasm
