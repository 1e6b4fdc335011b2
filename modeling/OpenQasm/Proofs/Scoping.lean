import OpenQasm.Proofs.Acceptance
import OpenQasm.Proofs.Inlining

/-! Statements name declared elements and inputs, and blocks name only their formals. -/
namespace OpenQasm

def Expression.identifier? : Expression → Option String
  | .identifier name => some name
  | _ => none

def Call.symbols (c : Call) : List String := c.params.filterMap Expression.identifier?

namespace Statement

mutual

/-- The parts of a statement that are no branches. -/
def leaves : Statement → List Statement
  | .branch _ body => leavesOf body
  | .gateCall call => [.gateCall call]
  | .subroutineCall call => [.subroutineCall call]
  | .barrier qubits => [.barrier qubits]
  | .measure target qubits => [.measure target qubits]

def leavesOf : List Statement → List Statement
  | [] => []
  | s :: rest => s.leaves ++ leavesOf rest

end

/-- The qubits that a statement acts on, those of its branches apart. -/
def qubits : Statement → List Operand
  | .gateCall call => call.qubits
  | .subroutineCall call => call.qubits
  | .barrier qubits => qubits
  | .measure _ qubits => qubits
  | .branch .. => []

def target? : Statement → Option Operand
  | .measure target _ => some target
  | _ => none

/-- The symbols among the parameters of a call. -/
def symbols : Statement → List String
  | .gateCall call => call.symbols
  | .subroutineCall call => call.symbols
  | _ => []

theorem mem_leavesOf {leaf : Statement} {sts : List Statement} :
    leaf ∈ leavesOf sts ↔ ∃ st ∈ sts, leaf ∈ st.leaves := by
  induction sts with
  | nil => simp [leavesOf]
  | cons st rest ih => simp [leavesOf, ih]

end Statement

/-- A qubit of the device. -/
def Operand.IsPhysical (o : Operand) : Prop :=
  ∃ index : UInt64, o = ⟨"$" ++ toString index.toNat, none⟩

/-- An element of a register that is declared among the items. -/
def Operand.DeclaredIn (items : List ProgramItem) (storage : Storage) (o : Operand) : Prop :=
  ∃ index size, o.index = some index ∧ .register storage o.name size ∈ items ∧ index < size

def ProgramItem.input? : ProgramItem → Option String
  | .input name => some name
  | _ => none

def Program.inputs (p : Program) : List String := p.statements.filterMap ProgramItem.input?

/-- What a statement names is declared among the items before it. -/
structure Statement.DeclaredIn (items : List ProgramItem) (st : Statement) : Prop where
  qubits : ∀ o ∈ st.qubits, o.IsPhysical ∨ o.DeclaredIn items .qubit
  target : ∀ o ∈ st.target?, o.DeclaredIn items .bit
  symbols : ∀ name ∈ st.symbols, .input name ∈ items

/-- A block with different formals that names no other qubits and symbols. -/
structure Block.Closed (b : Block) : Prop where
  qubits_distinct : b.qubits.Nodup
  params_distinct : b.params.Nodup
  qubits : ∀ leaf ∈ Statement.leavesOf b.body, ∀ o ∈ leaf.qubits,
    ∃ name ∈ b.qubits, o = ⟨name, none⟩
  symbols : ∀ leaf ∈ Statement.leavesOf b.body, ∀ name ∈ leaf.symbols, name ∈ b.params

theorem exists_left_of_forall₂ {α β : Type} {R : α → β → Prop} {xs : List α} {ys : List β}
    (h : List.Forall₂ R xs ys) {y : β} (hy : y ∈ ys) : ∃ x ∈ xs, R x y := by
  induction h with
  | nil => simp at hy
  | cons hxy _ ih =>
    rcases List.mem_cons.mp hy with rfl | hin
    · exact ⟨_, List.mem_cons_self, hxy⟩
    · obtain ⟨x, hx, hR⟩ := ih hin
      exact ⟨x, List.mem_cons_of_mem _ hx, hR⟩

theorem exists_right_of_forall₂ {α β : Type} {R : α → β → Prop} {xs : List α} {ys : List β}
    (h : List.Forall₂ R xs ys) {x : α} (hx : x ∈ xs) : ∃ y ∈ ys, R x y :=
  exists_left_of_forall₂ (R := fun y x => R x y) h.flip hx

namespace Lowered
variable {s : Scope} {fold : Bool} {naming : Naming} {op : Operation} {qubits clbits : List Bit}
  {st : Statement} (h : Lowered s fold naming op qubits clbits st)
include h

theorem leaves_eq : st.leaves = [st] := by
  cases h <;> rfl

theorem exists_qubit : ∀ o ∈ st.qubits, ∃ b ∈ qubits, b.operand naming = .ok o := by
  cases h with
  | gate _ _ placed => exact fun o => exists_left_of_forall₂ placed
  | subroutine _ _ placed => exact fun o => exists_left_of_forall₂ placed
  | barrier _ placed => exact fun o => exists_left_of_forall₂ placed
  | measurement _ _ qubit_eq => simpa [Statement.qubits] using qubit_eq

theorem exists_clbit : ∀ o ∈ st.target?, ∃ b ∈ clbits, b.operand naming = .ok o := by
  cases h with
  | measurement _ target_eq _ => simpa [Statement.target?] using target_eq
  | _ => simp [Statement.target?]

theorem mem_params : ∀ name ∈ st.symbols, .symbol name ∈ op.params := by
  have hcall (callee : String) (os : List Operand) :
      ∀ name ∈ Call.symbols ⟨callee, op.params.map (Parameter.expression fold), os⟩,
        .symbol name ∈ op.params := by
    intro name hname
    obtain ⟨e, he, hid⟩ := List.mem_filterMap.mp hname
    obtain ⟨p, hp, rfl⟩ := List.mem_map.mp he
    cases p with
    | value x => simp [Parameter.expression, Expression.identifier?] at hid
    | symbol other =>
      obtain rfl := Option.some.inj hid
      exact hp
  cases h with
  | gate _ _ _ => exact hcall _ _
  | subroutine _ _ _ => exact hcall _ _
  | barrier _ _ => simp [Statement.symbols]
  | measurement _ _ _ => simp [Statement.symbols]

end Lowered

/-- Every leaf of the statement of an instruction places its operation on its bits. -/
theorem Instruction.lowered_of_mem_leaves {i : Instruction} {c : Circuit} {s : Scope} {fold : Bool}
    {naming : Naming} {st leaf : Statement} (h : i.lower c s fold naming = .ok st)
    (hleaf : leaf ∈ st.leaves) :
    Lowered s fold naming i.operation i.qubits i.clbits leaf := by
  obtain ⟨-, hlow⟩ | ⟨_, test, body, -, -, hlow, rfl⟩ := lower_eq_ok h
  · rw [hlow.leaves_eq, List.mem_singleton] at hleaf
    exact hleaf ▸ hlow
  · rw [Statement.leaves, Statement.leavesOf, Statement.leavesOf, List.append_nil,
      hlow.leaves_eq, List.mem_singleton] at hleaf
    exact hleaf ▸ hlow

theorem Circuit.lowered_of_mem_leavesOf {c : Circuit} {s : Scope} {fold : Bool} {naming : Naming}
    {sts : List Statement} {leaf : Statement} (h : c.lowered s fold naming = .ok sts)
    (hleaf : leaf ∈ Statement.leavesOf sts) :
    ∃ i ∈ c.instructions, Lowered s fold naming i.operation i.qubits i.clbits leaf := by
  obtain ⟨st, hst, hleaf⟩ := Statement.mem_leavesOf.mp hleaf
  obtain ⟨i, hi, hlow⟩ := exists_left_of_forall₂ (lowered_eq_ok.mp h) hst
  exact ⟨i, hi, Instruction.lowered_of_mem_leaves hlow hleaf⟩

theorem nodup_eraseDups {α : Type} [DecidableEq α] (xs : List α) : xs.eraseDups.Nodup := by
  induction hn : xs.length using Nat.strongRecOn generalizing xs with
  | ind n ih =>
    cases xs with
    | nil => simp
    | cons x rest =>
      have hlt : (rest.filter fun b => !b == x).length < n :=
        hn ▸ Nat.lt_succ_of_le (List.length_filter_le ..)
      rw [List.eraseDups_cons, List.nodup_cons, List.mem_eraseDups]
      exact ⟨by simp, ih _ hlt _ rfl⟩

namespace Circuit
variable {c : Circuit}

theorem nodup_symbols (c : Circuit) : c.symbols.Nodup := nodup_eraseDups _

theorem Regular.declaredIn_qubit (hc : c.Regular) {b : Bit} (hb : c.Holds .quantum b) {o : Operand}
    (ho : b.operand .indexed = .ok o) : o.IsPhysical ∨ o.DeclaredIn c.declarations .qubit := by
  rw [Bit.operand_indexed ho, Bit.reference]
  cases hr : b.register with
  | none => exact .inl ⟨b.index, rfl⟩
  | some name =>
    obtain ⟨r, hin, hkind, rfl, hlt⟩ := hb.2 name hr
    have hq : r ∈ c.qregs := by
      rcases List.mem_append.mp hin with hin | hin
      · exact hin
      · exact absurd hkind (hc.classical r hin)
    refine .inr ⟨b.index, r.size, rfl, ?_, hlt⟩
    exact List.mem_append_right _ (List.mem_map.mpr ⟨r, hq, rfl⟩)

theorem Regular.declaredIn_bit (hc : c.Regular) {b : Bit} (hb : c.Holds .classical b) {o : Operand}
    (ho : b.operand .indexed = .ok o) : o.DeclaredIn c.declarations .bit := by
  cases hr : b.register with
  | none => simp [Bit.operand, hr, hb.1] at ho
  | some name =>
    obtain ⟨r, hin, hkind, rfl, hlt⟩ := hb.2 name hr
    have hcreg : r ∈ c.cregs := by
      rcases List.mem_append.mp hin with hin | hin
      · simp [hc.quantum r hin] at hkind
      · exact hin
    rw [Bit.operand_indexed ho, Bit.reference, hr]
    refine ⟨b.index, r.size, rfl, ?_, hlt⟩
    exact List.mem_append_left _ (List.mem_append_right _ (List.mem_map.mpr ⟨r, hcreg, rfl⟩))

/-- What a circuit declares is enough for its statements. -/
theorem Regular.declaredIn (hc : c.Regular) {i : Instruction} (hi : i ∈ c.instructions) {s : Scope}
    {fold : Bool} {st : Statement}
    (h : Lowered s fold .indexed i.operation i.qubits i.clbits st) :
    st.DeclaredIn c.declarations := by
  refine ⟨?_, ?_, ?_⟩
  · intro o ho
    obtain ⟨b, hb, hop⟩ := h.exists_qubit o ho
    exact hc.declaredIn_qubit ((hc.placed i hi).qubits b hb) hop
  · intro o ho
    obtain ⟨b, hb, hop⟩ := h.exists_clbit o ho
    exact hc.declaredIn_bit ((hc.placed i hi).clbits b hb) hop
  · intro name hname
    have hsym := mem_symbols hi (h.mem_params name hname)
    simp [declarations, hsym]

end Circuit

theorem Statement.DeclaredIn.mono {items more : List ProgramItem} {st : Statement}
    (h : st.DeclaredIn items) (hsub : items ⊆ more) : st.DeclaredIn more := by
  have hop {storage : Storage} {o : Operand} (ho : o.DeclaredIn items storage) :
      o.DeclaredIn more storage := by
    obtain ⟨index, size, hindex, hin, hlt⟩ := ho
    exact ⟨index, size, hindex, hsub hin, hlt⟩
  exact ⟨fun o ho => (h.qubits o ho).imp_right hop, fun o ho => hop (h.target o ho),
    fun name hname => hsub (h.symbols name hname)⟩

/-- The block of a definition has the formals of its body and the statements of the body. -/
theorem Definition.block?_of_lower {d : Definition} {s : Scope} {fold : Bool} {g : ProgramItem}
    (hform : d.form = d.operation.form) (h : d.lower s fold = .ok g) {b : Block} :
    g.block? = some b ↔ ∃ body, d.operation.body = some body ∧
      body.lowered s fold .flat = .ok b.body ∧
      b = ⟨d.name, body.symbols, body.qubitFormals, b.body⟩ := by
  have hblock {body : Circuit} {sts : List Statement} (hbody : d.operation.body = some body)
      (hs : body.lowered s fold .flat = .ok sts)
      (hg : g.block? = some ⟨d.name, body.symbols, body.qubitFormals, sts⟩) :
      g.block? = some b ↔ ∃ body, d.operation.body = some body ∧
        body.lowered s fold .flat = .ok b.body ∧
        b = ⟨d.name, body.symbols, body.qubitFormals, b.body⟩ := by
    rw [hg]
    constructor
    · intro he
      obtain rfl := Option.some.inj he
      exact ⟨body, hbody, hs, rfl⟩
    · rintro ⟨other, hother, hlow, hb⟩
      obtain rfl := Option.some.inj (hbody.symm.trans hother)
      rw [hb, Except.ok.inj (hs.symm.trans hlow)]
  obtain ⟨body, sts, hf, hs, rfl⟩ | ⟨body, sts, hf, hs, rfl⟩ | ⟨hf, rfl⟩ := lower_eq_ok h
  · exact hblock (Operation.body_of_form (hform.symm.trans hf) (.inl rfl)) hs rfl
  · exact hblock (Operation.body_of_form (hform.symm.trans hf) (.inr rfl)) hs
      (by simp [ProgramItem.block?, Function.comp_def])
  · simp [ProgramItem.block?, Operation.body_none_of_form (hform.symm.trans hf)]

theorem Bit.operand_flat {b : Bit} {o : Operand} (h : b.operand .flat = .ok o) :
    ∃ name, b.register = some name ∧ o = ⟨b.flatName, none⟩ := by
  unfold operand at h
  cases hr : b.register with
  | none =>
    simp only [hr] at h
    split at h <;> simp at h
  | some name =>
    refine ⟨name, rfl, ?_⟩
    simpa [hr, flatName, eq_comm] using h

namespace Circuit.Regular
variable {body : Circuit} (h : body.Regular)
include h

theorem nodup_qubitFormals : body.qubitFormals.Nodup := by
  rw [qubitFormals, List.nodup_flatMap]
  constructor
  · intro r _
    exact List.nodup_range.map fun m n he => (formalName_inj he).2
  · have hnames := h.names
    rw [List.map_append] at hnames
    refine (List.pairwise_map.mp hnames.of_append_left).imp fun hne => ?_
    intro name hleft hright
    obtain ⟨m, -, rfl⟩ := List.mem_map.mp hleft
    obtain ⟨n, -, he⟩ := List.mem_map.mp hright
    exact hne (formalName_inj he).1.symm

theorem closed {s : Scope} {fold : Bool} {b : Block}
    (hbody : body.lowered s fold .flat = .ok b.body) (hparams : b.params = body.symbols)
    (hqubits : b.qubits = body.qubitFormals) : b.Closed := by
  refine ⟨hqubits ▸ h.nodup_qubitFormals, hparams ▸ body.nodup_symbols, ?_, ?_⟩
  · intro leaf hleaf o ho
    obtain ⟨i, hi, hlow⟩ := lowered_of_mem_leavesOf hbody hleaf
    obtain ⟨q, hq, hop⟩ := hlow.exists_qubit o ho
    obtain ⟨name, hname, rfl⟩ := Bit.operand_flat hop
    have hmem := h.mem_allQubits ((h.placed i hi).qubits q hq) hname
    refine ⟨q.flatName, ?_, rfl⟩
    rw [hqubits, qubitFormals_eq]
    exact List.mem_map_of_mem hmem
  · intro leaf hleaf name hname
    obtain ⟨i, hi, hlow⟩ := lowered_of_mem_leavesOf hbody hleaf
    rw [hparams]
    exact mem_symbols hi (hlow.mem_params name hname)

end Circuit.Regular

namespace Catalog

/-- Every definition of the second catalog is one of the first or defines one of the operations. -/
def Defines (k next : Catalog) (ops : List Operation) : Prop :=
  ∀ d ∈ next.definitions, d ∈ k.definitions ∨ (d.operation ∈ ops ∧ d.form = d.operation.form)

theorem Defines.refl (k : Catalog) (ops : List Operation) : k.Defines k ops := fun _ => .inl

theorem Defines.trans {k next last : Catalog} {ops more : List Operation} (h : k.Defines next ops)
    (hnext : next.Defines last more) : k.Defines last (ops ++ more) := by
  intro d hd
  rcases hnext d hd with hd | ⟨hop, hform⟩
  · rcases h d hd with hd | ⟨hop, hform⟩
    · exact .inl hd
    · exact .inr ⟨List.mem_append_left _ hop, hform⟩
  · exact .inr ⟨List.mem_append_right _ hop, hform⟩

theorem Defines.mono {k next : Catalog} {ops more : List Operation} (h : k.Defines next ops)
    (hsub : ops ⊆ more) : k.Defines next more :=
  fun d hd => (h d hd).imp_right fun hop => ⟨hsub hop.1, hop.2⟩

theorem defines_define (k : Catalog) (op : Operation) :
    k.Defines (k.define op op.form).catalog [op] := by
  rw [define_eq]
  cases k.scope.register op with
  | error fault => exact .refl k _
  | ok registered =>
    intro d hd
    rcases List.mem_append.mp hd with hd | hd
    · exact .inl hd
    · obtain rfl := List.mem_singleton.mp hd
      exact .inr ⟨List.mem_cons_self, rfl⟩

theorem provides_define (k : Catalog) (op : Operation) (form : DefinitionForm) :
    (k.define op form).catalog.scope.provides = k.scope.provides := by
  rw [define_eq]
  cases hreg : k.scope.register op with
  | error fault => rfl
  | ok registered =>
    obtain ⟨scope, name⟩ := registered
    have hafter : k.scope.after (.register op) = scope := Scope.after_register_of_ok hreg
    funext other
    exact hafter ▸ k.scope.provides_afterAll [.register op] other

theorem postorder_of_unknown {k : Catalog} {i : Instruction} (hcalled : i.operation.IsCalled)
    (hunknown : k.scope.knows i.operation = false) :
    postorder k.scope.provides [i] = postorder k.scope.provides i.operation.inner ++ [i] := by
  have hprov : k.scope.provides i.operation = false := (Bool.or_eq_false_iff.mp hunknown).1
  simp [postorder_of_called hcalled, hprov]

namespace Walk
variable {k : Catalog} {is : List Instruction} {r : Collected} (h : k.Walk is r)
include h

theorem provides_eq : r.catalog.scope.provides = k.scope.provides := by
  induction h with
  | cons _ _ ihfirst ihothers => exact ihothers.trans ihfirst
  | define _ _ _ ih => exact (provides_define _ _ _).trans ih
  | halt _ ih => exact ih
  | haltInside _ _ _ ih => exact ih
  | nil | known | pass | unknownKind => rfl

/-- The walk defines nothing but what the plain walk lists, each operation with its own body. -/
theorem defines : k.Defines r.catalog ((postorder k.scope.provides is).map (·.operation)) := by
  induction h with
  | nil | known | pass | unknownKind => exact .refl _ _
  | cons hfirst _ ihfirst ihothers =>
    rw [hfirst.provides_eq] at ihothers
    exact (ihfirst.trans ihothers).mono (by simp)
  | halt _ ih => exact ih.mono (by simp)
  | define hcalled hunknown _ ih =>
    rw [postorder_of_unknown hcalled hunknown, List.map_append]
    exact ih.trans (defines_define _ _)
  | haltInside hcalled hunknown _ ih =>
    rw [postorder_of_unknown hcalled hunknown, List.map_append]
    exact ih.mono (List.subset_append_left _ _)

omit h in
/-- What a walk defines that starts without definitions, each operation as it is. -/
theorem definition_form {s : Scope} (h : (ofScope s).Walk is r) {d : Definition}
    (hd : d ∈ r.catalog.definitions) :
    (∃ i ∈ postorder s.provides is, i.operation = d.operation) ∧ d.form = d.operation.form := by
  obtain ⟨hop, hform⟩ := (h.defines d hd).resolve_left (by simp [ofScope])
  exact ⟨List.mem_map.mp hop, hform⟩

end Walk

/-- The bodies of the definitions. -/
def bodies (k : Catalog) : List Circuit := k.definitions.filterMap (·.operation.body)

end Catalog

theorem Circuit.exported_of_toProgram {c : Circuit} {options : Options} {p : Program}
    (h : c.toProgram options = .ok p) :
    ∃ k items statements, Exported c options k items statements ∧
      p.statements = items ++ c.declarations ++ statements.map .statement := by
  have hbuild : (Session.start c options).build = ((Session.start c options).build.1, .ok p) :=
    Prod.ext rfl h
  exact ⟨_, Session.exported_of_build hbuild⟩

/-- A circuit made by declaring registers and appending instructions, like all bodies in it. -/
structure Circuit.Grown (c : Circuit) : Prop where
  built : c.Built fun _ => True
  bodies : ∀ op ∈ operationsOf c.instructions, ∀ b, op.body = some b → b.Built fun _ => True

theorem Circuit.Assembled.grown {c : Circuit} (h : c.Assembled) : c.Grown := ⟨h.built, h.bodies⟩

namespace Exported
variable {c : Circuit} {options : Options} {k : Catalog} {items : List ProgramItem}
  {statements : List Statement} {p : Program} (h : Exported c options k items statements)
  (hp : p.statements = items ++ c.declarations ++ statements.map .statement)
include h hp

omit hp in
/-- Only operations that the circuit places are defined, each as it is. -/
theorem definition_form {d : Definition} (hd : d ∈ k.definitions) :
    d.operation ∈ operationsOf c.instructions ∧ d.form = d.operation.form := by
  have hwalk := Catalog.walk_collectAll (.ofScope (c.globalScope options)) c.instructions
  rw [h.collected] at hwalk
  obtain ⟨⟨i, hi, hop⟩, hform⟩ := hwalk.definition_form hd
  exact ⟨hop ▸ Catalog.mem_of_mem_postorder hi, hform⟩

omit hp in
/-- The body of a definition has registers that can be declared and instructions that have
statements. -/
theorem lowered_definition {d : Definition} (hd : d ∈ k.definitions) {b : Circuit}
    (hb : d.operation.body = some b) :
    checkRegisters b = .ok () ∧ ∃ sts, b.lowered k.scope options.fold .flat = .ok sts := by
  obtain ⟨g, -, hlow⟩ := exists_right_of_forall₂ h.definitions hd
  exact (Definition.exists_lower (h.definition_form hd).2).mp ⟨g, hlow⟩ b hb

/-- The blocks of a program are those of its definitions with bodies. -/
theorem mem_blocks {b : Block} :
    b ∈ p.blocks ↔ ∃ d ∈ k.definitions, ∃ body, d.operation.body = some body ∧
      body.lowered k.scope options.fold .flat = .ok b.body ∧
      b = ⟨d.name, body.symbols, body.qubitFormals, b.body⟩ := by
  rw [Program.blocks_eq hp, List.mem_filterMap]
  constructor
  · rintro ⟨g, hg, hblock⟩
    obtain ⟨d, hd, hlow⟩ := exists_left_of_forall₂ h.definitions hg
    exact ⟨d, hd, (Definition.block?_of_lower (h.definition_form hd).2 hlow).mp hblock⟩
  · rintro ⟨d, hd, hblock⟩
    obtain ⟨g, hg, hlow⟩ := exists_right_of_forall₂ h.definitions hd
    exact ⟨g, hg, (Definition.block?_of_lower (h.definition_form hd).2 hlow).mpr hblock⟩

omit hp in
theorem isSome_definedName? : ∀ g ∈ items, g.definedName?.isSome := by
  intro g hg
  obtain ⟨d, -, hlow⟩ := exists_left_of_forall₂ h.definitions hg
  rw [Definition.definedName?_of_lower hlow, Option.isSome_some]

omit hp in
theorem filterMap_items_eq_nil {α : Type} {f : ProgramItem → Option α}
    (hf : ∀ g : ProgramItem, g.definedName?.isSome → f g = none) : items.filterMap f = [] := by
  rw [List.filterMap_eq_nil_iff]
  exact fun g hg => hf g (h.isSome_definedName? g hg)

/-- A statement of the program is that of an instruction, and all declarations are before it. -/
theorem statement_position {n : Nat} {st : Statement}
    (hst : p.statements[n]? = some (.statement st)) :
    st ∈ statements ∧ c.declarations ⊆ p.statements.take n := by
  have hfront : ProgramItem.statement st ∉ items ++ c.declarations := by
    intro hin
    rcases List.mem_append.mp hin with hin | hin
    · simpa [ProgramItem.definedName?] using h.isSome_definedName? _ hin
    · simp [Circuit.declarations] at hin
  rw [hp] at hst ⊢
  have hn : (items ++ c.declarations).length ≤ n := by
    by_contra hlt
    rw [List.getElem?_append_left (Nat.lt_of_not_le hlt)] at hst
    exact hfront (List.mem_of_getElem? hst)
  constructor
  · rw [List.getElem?_append_right hn] at hst
    simpa using List.mem_of_getElem? hst
  · rw [List.take_append, List.take_of_length_le hn]
    intro g hg
    exact List.mem_append_left _ (List.mem_append_right _ hg)

theorem inputs_eq : p.inputs = c.symbols := by
  have hitems : items.filterMap ProgramItem.input? = [] := by
    apply h.filterMap_items_eq_nil
    intro g hg
    cases g with
    | input name => simp [ProgramItem.definedName?] at hg
    | _ => rfl
  rw [Program.inputs, hp]
  simp [hitems, Circuit.declarations, List.filterMap_map, Function.comp_def, ProgramItem.input?]

end Exported

/-- In the program of a circuit, what a statement at the top level names is declared before it,
with a single input for each symbol, and what a statement in a block names are its formals. -/
theorem operands_and_symbols_in_scope {c : Circuit} (hc : c.Grown) {options : Options} {p : Program}
    (h : c.toProgram options = .ok p) :
    (∀ (n : Nat) (st : Statement), p.statements[n]? = some (.statement st) →
      ∀ leaf ∈ st.leaves, leaf.DeclaredIn (p.statements.take n) ∧
        ∀ name ∈ leaf.symbols, p.inputs.count name = 1) ∧
    ∀ b ∈ p.blocks, b.Closed := by
  obtain ⟨k, items, statements, hexp, hp⟩ := Circuit.exported_of_toProgram h
  constructor
  · intro n st hst leaf hleaf
    obtain ⟨hin, hdecl⟩ := hexp.statement_position hp hst
    obtain ⟨i, hi, hlow⟩ := exists_left_of_forall₂ hexp.instructions hin
    have hleaf := Instruction.lowered_of_mem_leaves hlow hleaf
    refine ⟨(hc.built.regular.declaredIn hi hleaf).mono hdecl, ?_⟩
    intro name hname
    rw [hexp.inputs_eq hp]
    exact List.count_eq_one_of_mem c.nodup_symbols
      (Circuit.mem_symbols hi (hleaf.mem_params name hname))
  · intro b hb
    obtain ⟨d, hd, body, hbody, hlow, hblock⟩ := (hexp.mem_blocks hp).mp hb
    have hregular := (hc.bodies d.operation (hexp.definition_form hd).1 body hbody).regular
    exact hregular.closed hlow (congrArg Block.params hblock) (congrArg Block.qubits hblock)

theorem Nested.circuit_in_scope :
    ∃ p, circuit.toProgram .standard = .ok p ∧
      (∀ (n : Nat) (st : Statement), p.statements[n]? = some (.statement st) →
        ∀ leaf ∈ st.leaves, leaf.DeclaredIn (p.statements.take n) ∧
          ∀ name ∈ leaf.symbols, p.inputs.count name = 1) ∧
      (∀ b ∈ p.blocks, b.Closed) ∧
      p.blocks.map (fun b => (b.params, b.qubits)) =
        [(["theta"], ["q_0", "q_1"]), (["phi"], ["q_0", "q_1"])] ∧
      (p.statements.filterMap ProgramItem.statement?).flatMap
          (fun st => st.leaves.flatMap Statement.qubits) =
        [⟨"q", some 0⟩, ⟨"q", some 1⟩, ⟨"q", some 0⟩, ⟨"q", some 0⟩] := by
  obtain ⟨p, hp⟩ : ∃ p, circuit.toProgram .standard = .ok p := ⟨_, rfl⟩
  have hblocks : (circuit.toProgram .standard).map
      (fun p => p.blocks.map fun b => (b.params, b.qubits)) =
        .ok [(["theta"], ["q_0", "q_1"]), (["phi"], ["q_0", "q_1"])] := rfl
  have hqubits : (circuit.toProgram .standard).map
      (fun p => (p.statements.filterMap ProgramItem.statement?).flatMap
        fun st => st.leaves.flatMap Statement.qubits) =
        .ok [⟨"q", some 0⟩, ⟨"q", some 1⟩, ⟨"q", some 0⟩, ⟨"q", some 0⟩] := rfl
  rw [hp] at hblocks hqubits
  obtain ⟨htop, hclosed⟩ := operands_and_symbols_in_scope circuit_fromFactories.assembled.grown hp
  exact ⟨p, hp, htop, hclosed, Except.ok.inj hblocks, Except.ok.inj hqubits⟩

end OpenQasm
