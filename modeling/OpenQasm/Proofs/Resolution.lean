import OpenQasm.Proofs.Building
import OpenQasm.Proofs.Provenance

/-! Calls and the definitions they refer to, with as many parameters and qubits. -/
namespace OpenQasm

inductive CallKind where
  | gate | subroutine
deriving DecidableEq, Repr

/-- The name of a callee with its kind and the numbers of its parameters and qubits. -/
structure Interface where
  kind : CallKind
  name : String
  params : Nat
  qubits : Nat
deriving DecidableEq, Repr

def Call.interface (c : Call) (kind : CallKind) : Interface :=
  ⟨kind, c.name, c.params.length, c.qubits.length⟩

mutual

/-- What the calls in a statement ask for, also inside branches. -/
def Statement.calls : Statement → List Interface
  | .gateCall call => [call.interface .gate]
  | .subroutineCall call => [call.interface .subroutine]
  | .barrier _ => []
  | .measure .. => []
  | .branch _ body => callsOf body

def callsOf : List Statement → List Interface
  | [] => []
  | st :: rest => st.calls ++ callsOf rest

end

namespace ProgramItem

def calls : ProgramItem → List Interface
  | .gate _ body => callsOf body
  | .subroutine _ body => callsOf body
  | .statement st => st.calls
  | _ => []

/-- What a definition offers; other global statements offer nothing. -/
def interface? : ProgramItem → Option Interface
  | .gate s _ => some ⟨.gate, s.name, s.params.length, s.qubits.length⟩
  | .bodilessGate s => some ⟨.gate, s.name, s.params.length, s.qubits.length⟩
  | .subroutine s _ => some ⟨.subroutine, s.name, s.params.length, s.qubits.length⟩
  | _ => none

end ProgramItem

/-- The gates that need no definition. -/
def Operation.Builtin (op : Operation) (options : Options) : Prop :=
  op.standard = some .U ∨
    (op.standard.isSome ∧ standardInclude ∈ options.includes ∧
      op.name ∈ StandardGate.includedNames)

theorem Operation.Builtin.isStandard {op : Operation} {options : Options}
    (h : op.Builtin options) : op.standard.isSome := by
  rcases h with hu | ⟨hs, -, -⟩
  · simp [hu]
  · exact hs

theorem Operation.Builtin.name_provided {op : Operation} {options : Options}
    (h : op.Builtin options) (hmade : op.WellMade) :
    op.name = "U" ∨
      standardInclude ∈ options.includes ∧ op.name ∈ StandardGate.includedNames := by
  rcases h with hu | ⟨-, hinc, hin⟩
  · exact .inl (hmade.standard _ hu).2.2.1
  · exact .inr ⟨hinc, hin⟩

instance : DecidablePred Operation.IsCalled :=
  fun op => inferInstanceAs (Decidable (op.kind = .gate ∨ op.kind = .subroutine))

theorem Circuit.provides_globalScope (c : Circuit) {options : Options} {op : Operation} :
    (c.globalScope options).provides op = true ↔ op.Builtin options := by
  have hstd : (c.globalScope options).hasStandardGates =
      options.includes.contains standardInclude := hasStandardGates_foldl_reserve _ _
  rw [Scope.provides, Scope.includedNames, hstd]
  by_cases hinc : standardInclude ∈ options.includes <;> simp [Operation.Builtin, hinc]

/-- The bodies in a circuit, at any depth. -/
def Circuit.bodies (c : Circuit) : List Circuit := (operationsOf c.instructions).filterMap (·.body)

theorem Circuit.mem_bodies {c : Circuit} {op : Operation} (hop : op ∈ operationsOf c.instructions)
    {b : Circuit} (hb : op.body = some b) : b ∈ c.bodies :=
  List.mem_filterMap.mpr ⟨op, hop, hb⟩

/-- The instructions that each global statement of a program is made from. -/
def Catalog.sources (k : Catalog) (c : Circuit) : List (List Instruction) :=
  k.definitions.map (·.operation.inner) ++ c.declarations.map (fun _ => [])
    ++ c.instructions.map ([·])

/-- The definition at position `m` of the program is made from an operation with the key of
`op` and offers the given interface. -/
def Defines (p : Program) (k : Catalog) (options : Options) (op : Operation) (offer : Interface)
    (m : Nat) : Prop :=
  ∃ d g, k.definitions[m]? = some d ∧ p.statements[m]? = some g ∧
    d.lower k.scope options.fold = .ok g ∧ d.operation.key = op.key ∧ g.interface? = some offer

/-- A call at position `n` of the program, made from an instruction, is of a provided gate or
refers to an earlier definition of the instruction's operation that offers what it asks for. -/
def Refers (p : Program) (k : Catalog) (options : Options) (n : Nat) (call : Interface)
    (i : Instruction) : Prop :=
  (i.operation.Builtin options ∧ call.kind = .gate ∧ call.name = i.operation.name ∧
      (call.name = "U" ∨
        standardInclude ∈ options.includes ∧ call.name ∈ StandardGate.includedNames)) ∨
    ∃ m < n, Defines p k options i.operation call m

/-- What a call of the operation by a name asks for. -/
def Operation.interface (op : Operation) (name : String) : Interface :=
  ⟨if op.kind = .subroutine then .subroutine else .gate, name, op.params.length,
    op.qubitCount.toNat⟩

/-- The name of a standard gate tells its numbers of qubits and parameters. -/
theorem StandardGate.arity_of_name (g : StandardGate) :
    g.qubits = ((ofName? g.name).map qubits).getD 1 ∧
      g.params = ((ofName? g.name).map params).getD 0 := by
  cases g <;> exact ⟨rfl, rfl⟩

theorem StandardGate.arity_eq_of_name {f g : StandardGate} (h : f.name = g.name) :
    f.qubits = g.qubits ∧ f.params = g.params := by
  rw [f.arity_of_name.1, f.arity_of_name.2, g.arity_of_name.1, g.arity_of_name.2, h]
  exact ⟨rfl, rfl⟩

/-- Operations with one key are called in one way. -/
theorem interface_eq_of_key {ops : List Operation} (hops : Identified ops)
    (hmade : ∀ op ∈ ops, op.WellMade) {a b : Operation} (ha : a ∈ ops) (hb : b ∈ ops)
    (hkey : b.key = a.key) (name : String) : b.interface name = a.interface name := by
  rcases Operation.key_eq_key hkey with ⟨hs, ht, hname⟩ | ⟨-, -, hid⟩
  · obtain ⟨f, hf⟩ := Option.isSome_iff_exists.mp hs
    obtain ⟨g, hg⟩ := Option.isSome_iff_exists.mp ht
    obtain ⟨hka, -, hna, hqa, hpa⟩ := (hmade a ha).standard f hf
    obtain ⟨hkb, -, hnb, hqb, hpb⟩ := (hmade b hb).standard g hg
    have harity : g.qubits = f.qubits ∧ g.params = f.params := by
      apply StandardGate.arity_eq_of_name
      rw [← hna, ← hnb, hname]
    simp [Operation.interface, hka, hkb, hqa, hqb, hpa, hpb, harity]
  · rw [hops.eq_of_id b hb a ha hid]

theorem Circuit.length_qubitFormals (c : Circuit) : c.qubitFormals.length = c.qubitTotal := by
  unfold qubitFormals qubitTotal
  induction c.qregs with
  | nil => rfl
  | cons r rest ih => simp [sizeTotal, ih]

/-- The definition of an operation offers what its calls ask for. -/
theorem interface?_of_lower {d : Definition} {s : Scope} {fold : Bool} {g : ProgramItem}
    (hform : d.form = d.operation.form) (hmade : d.operation.WellMade)
    (hcalled : d.operation.IsCalled)
    (hsize : ∀ b, d.operation.body = some b → b.qubitTotal < UInt64.size)
    (h : d.lower s fold = .ok g) : g.interface? = some (d.operation.interface d.name) := by
  cases hb : d.operation.body with
  | none =>
    have hkind : d.operation.kind ≠ .subroutine := fun hk => hmade.subroutine hk hb
    have hf : d.form = .bodiless := by rw [hform, Operation.form, hb]
    rcases Definition.lower_eq_ok h with ⟨_, _, hg, -, -⟩ | ⟨_, _, hg, -, -⟩ | ⟨-, rfl⟩
    · simp [hf] at hg
    · simp [hf] at hg
    · simp [ProgramItem.interface?, Definition.madeUpSignature, Operation.interface, hkind]
  | some b =>
    obtain ⟨-, hparams, hqubits⟩ := hmade.body b hb
    have hcount : b.qubitFormals.length = d.operation.qubitCount.toNat := by
      rw [b.length_qubitFormals, hqubits, Circuit.qubitCount_toNat (hsize b hb)]
    rcases hcalled with hk | hk
    · have hf : d.form = .gate b := by simp [hform, Operation.form, hb, hk]
      rcases Definition.lower_eq_ok h with ⟨c, sts, hg, -, rfl⟩ | ⟨_, _, hg, -, -⟩ | ⟨hg, -⟩
      · obtain rfl := DefinitionForm.gate.inj (hf.symm.trans hg)
        simp [ProgramItem.interface?, Operation.interface, hk, hcount, hparams]
      · simp [hf] at hg
      · simp [hf] at hg
    · have hf : d.form = .subroutine b := by simp [hform, Operation.form, hb, hk]
      rcases Definition.lower_eq_ok h with ⟨_, _, hg, -, -⟩ | ⟨c, sts, hg, -, rfl⟩ | ⟨hg, -⟩
      · simp [hf] at hg
      · obtain rfl := DefinitionForm.subroutine.inj (hf.symm.trans hg)
        simp [ProgramItem.interface?, Operation.interface, hk, hcount, hparams]
      · simp [hf] at hg

theorem calls_of_lowered {s : Scope} {fold : Bool} {naming : Naming} {op : Operation}
    {qubits clbits : List Bit} {st : Statement} (h : Lowered s fold naming op qubits clbits st)
    (hcount : qubits.length = op.qubitCount.toNat) :
    (op.IsCalled ∧ ∃ name, s.name? op = some name ∧ st.calls = [op.interface name]) ∨
      (¬ op.IsCalled ∧ st.calls = []) := by
  cases h with
  | gate kind resolved placed =>
    refine .inl ⟨.inl kind, _, resolved, ?_⟩
    simp [Statement.calls, Call.interface, Operation.interface, kind, ← hcount,
      placed.length_eq]
  | subroutine kind resolved placed =>
    refine .inl ⟨.inr kind, _, resolved, ?_⟩
    simp [Statement.calls, Call.interface, Operation.interface, kind, ← hcount,
      placed.length_eq]
  | barrier kind placed => exact .inr ⟨by simp [Operation.IsCalled, kind], rfl⟩
  | measurement kind _ _ => exact .inr ⟨by simp [Operation.IsCalled, kind], rfl⟩

/-- An instruction that calls its operation becomes a statement with that one call. -/
theorem calls_of_lower {i : Instruction} {c : Circuit} {s : Scope} {fold : Bool}
    {naming : Naming} {st : Statement} (h : i.lower c s fold naming = .ok st)
    (hcount : i.qubits.length = i.operation.qubitCount.toNat) :
    (i.operation.IsCalled ∧ ∃ name, s.name? i.operation = some name ∧
        st.calls = [i.operation.interface name]) ∨
      (¬ i.operation.IsCalled ∧ st.calls = []) := by
  obtain ⟨-, hlow⟩ | ⟨_, test, body, -, -, hlow, rfl⟩ := Instruction.lower_eq_ok h
  · exact calls_of_lowered hlow hcount
  · have hcalls : (Statement.branch test [body]).calls = body.calls := by
      simp [Statement.calls, callsOf]
    rw [hcalls]
    exact calls_of_lowered hlow hcount

/-- The calls in the statements of some instructions are those of the instructions that call
their operation, in order. -/
theorem forall₂_callsOf {c : Circuit} {s : Scope} {fold : Bool} {naming : Naming}
    {is : List Instruction} {sts : List Statement}
    (h : List.Forall₂ (fun i st => i.lower c s fold naming = .ok st) is sts)
    (hcount : ∀ i ∈ is, i.qubits.length = i.operation.qubitCount.toNat)
    {R : Interface → Instruction → Prop}
    (hR : ∀ i ∈ is, i.operation.IsCalled → ∀ name, s.name? i.operation = some name →
      R (i.operation.interface name) i) :
    List.Forall₂ R (callsOf sts) (is.filter fun i => decide i.operation.IsCalled) := by
  induction h with
  | nil => exact .nil
  | @cons i st is sts hst _ ih =>
    have hrest := ih (fun j hj => hcount j (List.mem_cons_of_mem i hj))
      fun j hj => hR j (List.mem_cons_of_mem i hj)
    rw [callsOf, List.filter_cons]
    obtain ⟨hc, name, hname, hcalls⟩ | ⟨hc, hcalls⟩ :=
      calls_of_lower hst (hcount i List.mem_cons_self)
    · simp only [hc, hcalls, decide_true, if_true, List.singleton_append]
      exact .cons (hR i List.mem_cons_self hc name hname) hrest
    · simpa [hc, hcalls] using hrest

theorem Circuit.calls_of_mem_declarations {c : Circuit} {g : ProgramItem}
    (h : g ∈ c.declarations) : g.calls = [] := by
  simp only [declarations, List.mem_append, List.mem_map] at h
  rcases h with (⟨_, _, rfl⟩ | ⟨_, _, rfl⟩) | ⟨_, _, rfl⟩ <;> rfl

theorem Circuit.interface?_of_mem_declarations {c : Circuit} {g : ProgramItem}
    (h : g ∈ c.declarations) : g.interface? = none := by
  simp only [declarations, List.mem_append, List.mem_map] at h
  rcases h with (⟨_, _, rfl⟩ | ⟨_, _, rfl⟩) | ⟨_, _, rfl⟩ <;> rfl

theorem mem_postorder_self {provided : Operation → Bool} {i : Instruction}
    (hc : i.operation.IsCalled) (hprov : provided i.operation = false) :
    i ∈ i.postorder provided := by
  simp [postorder_of_called hc, hprov]

/-- The plain walk lists every operation that needs a definition, at any depth. -/
theorem exists_mem_postorder {provided : Operation → Bool} {is : List Instruction}
    (hwalked : ∀ op ∈ operationsOf is, op.body ≠ none → op.IsCalled ∧ provided op = false)
    {op : Operation} (hop : op ∈ operationsOf is) (hc : op.IsCalled)
    (hprov : provided op = false) : ∃ i ∈ postorder provided is, i.operation = op := by
  obtain ⟨i, hi, rfl | hin⟩ := mem_operationsOf.mp hop
  · exact ⟨i, mem_postorder.mpr ⟨i, hi, mem_postorder_self hc hprov⟩, rfl⟩
  · have hsub : i.operations ⊆ operationsOf is := by
      intro o ho
      rw [i.operations_eq, List.mem_cons] at ho
      exact mem_operationsOf.mpr ⟨i, hi, ho⟩
    suffices h : ∃ j ∈ i.postorder provided, j.operation = op by
      obtain ⟨j, hj, hjo⟩ := h
      exact ⟨j, mem_postorder.mpr ⟨i, hi, hj⟩, hjo⟩
    clear hop hi
    induction i using Instruction.nested_induction with
    | step i ih =>
      obtain ⟨j, hj, ho⟩ := mem_operationsOf.mp hin
      obtain ⟨hci, hpi⟩ := hwalked i.operation (hsub (by simp [i.operations_eq]))
        (Operation.body_ne_none_of_mem hj)
      have hinner : i.postorder provided = postorder provided i.operation.inner ++ [i] := by
        simp [postorder_of_called hci, hpi]
      suffices h : ∃ m ∈ j.postorder provided, m.operation = op by
        obtain ⟨m, hm, hmo⟩ := h
        refine ⟨m, ?_, hmo⟩
        rw [hinner]
        exact List.mem_append_left _ (mem_postorder.mpr ⟨j, hj, hm⟩)
      rcases ho with rfl | ho
      · exact ⟨j, mem_postorder_self hc hprov, rfl⟩
      · refine ih j hj ho fun o hjo => hsub ?_
        rw [j.operations_eq, List.mem_cons] at hjo
        rw [i.operations_eq]
        exact List.mem_cons_of_mem _ (mem_operationsOf.mpr ⟨j, hj, hjo⟩)

namespace Exported
variable {c : Circuit} {options : Options} {k : Catalog} {items : List ProgramItem}
  {statements : List Statement} {p : Program}

theorem provides_iff (h : Exported c options k items statements)
    (hc : Identified (operationsOf c.instructions)) (op : Operation) :
    k.scope.provides op = true ↔ op.Builtin options := by
  rw [h.provides_eq hc]
  exact c.provides_globalScope

theorem getElem?_item (h : Exported c options k items statements)
    (hp : p.statements = items ++ c.declarations ++ statements.map .statement) {n : Nat}
    {d : Definition} (hd : k.definitions[n]? = some d) :
    ∃ g, p.statements[n]? = some g ∧ d.lower k.scope options.fold = .ok g := by
  obtain ⟨hn, hdn⟩ := List.getElem?_eq_some_iff.mp hd
  have hlen := h.definitions.length_eq
  have hni : n < items.length := hlen ▸ hn
  refine ⟨items[n], ?_, ?_⟩
  · rw [hp, List.append_assoc, List.getElem?_append_left hni, List.getElem?_eq_getElem hni]
  · have := h.definitions.get hn hni
    simpa [hdn] using this

theorem length_statements (h : Exported c options k items statements)
    (hp : p.statements = items ++ c.declarations ++ statements.map .statement) :
    p.statements.length = (k.sources c).length := by
  simp [hp, Catalog.sources, h.definitions.length_eq, h.instructions.length_eq]

/-- A global statement is a definition, a declaration or the statement of an instruction. -/
theorem item_cases (h : Exported c options k items statements)
    (hp : p.statements = items ++ c.declarations ++ statements.map .statement) {n : Nat}
    {g : ProgramItem} {is : List Instruction} (hg : p.statements[n]? = some g)
    (his : (k.sources c)[n]? = some is) :
    (∃ d, k.definitions[n]? = some d ∧ d.lower k.scope options.fold = .ok g ∧
        is = d.operation.inner) ∨
      (g ∈ c.declarations ∧ is = []) ∨
      (k.definitions.length ≤ n ∧ ∃ i ∈ c.instructions, ∃ st,
        i.lower c k.scope options.fold .indexed = .ok st ∧ g = .statement st ∧ is = [i]) := by
  have hlen := h.definitions.length_eq
  by_cases hn : n < k.definitions.length
  · have hd := List.getElem?_eq_getElem hn
    obtain ⟨g', hg', hlow⟩ := h.getElem?_item hp hd
    obtain rfl := Option.some.inj (hg'.symm.trans hg)
    refine .inl ⟨_, hd, hlow, ?_⟩
    rw [Catalog.sources, List.append_assoc,
      List.getElem?_append_left (by simpa using hn), List.getElem?_map, hd] at his
    exact (Option.some.inj his).symm
  · refine .inr ?_
    rw [hp, List.append_assoc, List.getElem?_append_right (by omega)] at hg
    rw [Catalog.sources, List.append_assoc,
      List.getElem?_append_right (by simpa using hn), List.length_map, hlen] at his
    generalize n - items.length = m at hg his
    by_cases hm : m < c.declarations.length
    · rw [List.getElem?_append_left hm] at hg
      rw [List.getElem?_append_left (by simpa using hm), List.getElem?_map,
        List.getElem?_eq_getElem hm] at his
      exact .inl ⟨List.mem_of_getElem? hg, (Option.some.inj his).symm⟩
    · rw [List.getElem?_append_right (by omega), List.getElem?_map] at hg
      rw [List.getElem?_append_right (by simpa using hm), List.length_map,
        List.getElem?_map] at his
      obtain ⟨st, hst, rfl⟩ := Option.map_eq_some_iff.mp hg
      obtain ⟨i, hi, rfl⟩ := Option.map_eq_some_iff.mp his
      refine .inr ⟨by omega, i, List.mem_of_getElem? hi, st, ?_, rfl, rfl⟩
      obtain ⟨hlt, hie⟩ := List.getElem?_eq_some_iff.mp hi
      obtain ⟨hlt', hste⟩ := List.getElem?_eq_some_iff.mp hst
      have := h.instructions.get hlt hlt'
      simpa [hie, hste] using this

/-- What an instruction of the circuit calls is defined, unless it is provided. -/
theorem callee_defined (h : Exported c options k items statements)
    (hc : Identified (operationsOf c.instructions)) {i : Instruction} (hi : i ∈ c.instructions)
    (hcalled : i.operation.IsCalled) (hprov : k.scope.provides i.operation = false) :
    ∃ (m : Nat) (d : Definition), m < k.definitions.length ∧ k.definitions[m]? = some d ∧
      d.operation.key = i.operation.key := by
  obtain ⟨-, hkey⟩ := h.known hc i (mem_postorder.mpr ⟨i, hi, mem_postorder_self hcalled hprov⟩)
  obtain ⟨m, d, hd, hdk⟩ := Catalog.Ordered.exists_getElem? hkey
  exact ⟨m, d, (List.getElem?_eq_some_iff.mp hd).1, hd, hdk⟩

section
variable (h : Exported c options k items statements)
  (hp : p.statements = items ++ c.declarations ++ statements.map .statement)
  (hc : c.FromFactories) (hsize : ∀ b ∈ c.bodies, b.qubitTotal < UInt64.size)
include h hp hc hsize

/-- The definition of a key offers what the operations with that key ask for. -/
theorem defines {op : Operation} (hop : op ∈ operationsOf c.instructions) {n : Nat}
    {d : Definition} (hd : k.definitions[n]? = some d) (hkey : d.operation.key = op.key) :
    Defines p k options op (op.interface d.name) n := by
  have hord := h.ordered hc.identified
  have hmem := List.mem_of_getElem? hd
  have hdop := hord.mem d hmem
  obtain ⟨g, hg, hlow⟩ := h.getElem?_item hp hd
  refine ⟨d, g, hd, hg, hlow, hkey, ?_⟩
  rw [← interface_eq_of_key hc.identified hc.wellMade hop hdop hkey]
  exact interface?_of_lower (hord.form d hmem) (hc.wellMade _ hdop) (hord.called d hmem)
    (fun b hb => hsize b (Circuit.mem_bodies hdop hb)) hlow

/-- A call of an operation that is provided, or defined before, refers as it should. -/
theorem refers {i : Instruction} (hop : i.operation ∈ operationsOf c.instructions)
    {name : String} (hname : k.scope.name? i.operation = some name) {n : Nat}
    (hearlier : k.scope.provides i.operation = false → ∃ (m : Nat) (d : Definition),
      m < n ∧ k.definitions[m]? = some d ∧ d.operation.key = i.operation.key) :
    Refers p k options n (i.operation.interface name) i := by
  have hord := h.ordered hc.identified
  cases hprov : k.scope.provides i.operation with
  | true =>
    have hbuiltin := (h.provides_iff hc.identified i.operation).mp hprov
    obtain rfl := Scope.name_eq_of_provides hprov hname
    obtain ⟨g, hg⟩ := Option.isSome_iff_exists.mp hbuiltin.isStandard
    have hkind := ((hc.wellMade _ hop).standard g hg).1
    exact .inl ⟨hbuiltin, by simp [Operation.interface, hkind], rfl,
      hbuiltin.name_provided (hc.wellMade _ hop)⟩
  | false =>
    obtain ⟨m, d, hm, hd, hkey⟩ := hearlier hprov
    obtain rfl : d.name = name := by
      have := hord.name?_eq hprov (List.mem_of_getElem? hd) hkey
      exact Option.some.inj (this.symm.trans hname)
    exact .inr ⟨m, hm, h.defines hp hc hsize hop hd hkey⟩

/-- The calls of a definition's body refer to definitions before it. -/
theorem refers_in_definition {n : Nat} {d : Definition} {g : ProgramItem}
    (hd : k.definitions[n]? = some d) (hg : d.lower k.scope options.fold = .ok g) :
    List.Forall₂ (Refers p k options n) g.calls
      (d.operation.inner.filter fun i => decide i.operation.IsCalled) := by
  have hord := h.ordered hc.identified
  have hmem := List.mem_of_getElem? hd
  have hdop := hord.mem d hmem
  have hform := hord.form d hmem
  -- gates and subroutines lower their body in the same way
  have hbody (body : Circuit) (hb : d.operation.body = some body) (sts : List Statement)
      (hs : body.lowered k.scope options.fold .flat = .ok sts) :
      List.Forall₂ (Refers p k options n) (callsOf sts)
        (d.operation.inner.filter fun i => decide i.operation.IsCalled) := by
    rw [Operation.inner_of_body hb]
    have hregular := hc.regular_body _ hdop body hb
    refine forall₂_callsOf (Circuit.lowered_eq_ok.mp hs)
      (fun i hi => (hregular.placed i hi).qubit_count) ?_
    intro i hi hcalled name hname
    have hin : i ∈ d.operation.inner := by rwa [Operation.inner_of_body hb]
    refine h.refers hp hc hsize
      (operationsOf_inner_subset hdop (operation_mem_operationsOf hin)) hname ?_
    intro hprov
    exact hord.callee_earlier hd (mem_postorder.mpr ⟨i, hin, mem_postorder_self hcalled hprov⟩)
  obtain ⟨body, sts, hf, hs, rfl⟩ | ⟨body, sts, hf, hs, rfl⟩ | ⟨hf, rfl⟩ :=
    Definition.lower_eq_ok hg
  · exact hbody body (Operation.body_of_form (hform.symm.trans hf) (.inl rfl)) sts hs
  · exact hbody body (Operation.body_of_form (hform.symm.trans hf) (.inr rfl)) sts hs
  · rw [Operation.inner, Operation.body_none_of_form (hform.symm.trans hf)]
    exact .nil

/-- The call of an instruction of the circuit refers to a definition of the program. -/
theorem refers_in_statement {n : Nat} (hn : k.definitions.length ≤ n) {i : Instruction}
    (hi : i ∈ c.instructions) {st : Statement}
    (hst : i.lower c k.scope options.fold .indexed = .ok st) :
    List.Forall₂ (Refers p k options n) st.calls
      ([i].filter fun i => decide i.operation.IsCalled) := by
  have hone : List.Forall₂ (fun i st => i.lower c k.scope options.fold .indexed = .ok st)
      [i] [st] := .cons hst .nil
  have hcalls : callsOf [st] = st.calls := by simp [callsOf]
  rw [← hcalls]
  refine forall₂_callsOf hone ?_ ?_
  · intro j hj
    obtain rfl := List.mem_singleton.mp hj
    exact (hc.regular.placed j hi).qubit_count
  · intro j hj hcalled name hname
    obtain rfl := List.mem_singleton.mp hj
    refine h.refers hp hc hsize (operation_mem_operationsOf hi) hname fun hprov => ?_
    obtain ⟨m, d, hm, hd, hdk⟩ := h.callee_defined hc.identified hi hcalled hprov
    exact ⟨m, d, by omega, hd, hdk⟩

/-- Every operation that needs a definition has one. -/
theorem exists_defines {op : Operation} (hop : op ∈ operationsOf c.instructions)
    (hcalled : op.IsCalled) (hnew : ¬ op.Builtin options) :
    ∃ m offer, Defines p k options op offer m := by
  have hprovides := h.provides_iff hc.identified
  have hwalked (o : Operation) (ho : o ∈ operationsOf c.instructions) (hb : o.body ≠ none) :
      o.IsCalled ∧ k.scope.provides o = false := by
    refine ⟨?_, hc.identified.provides_of_body ho hb k.scope⟩
    obtain ⟨b, hb⟩ := Option.ne_none_iff_exists'.mp hb
    exact ((hc.wellMade o ho).body b hb).1
  have hprov : k.scope.provides op = false := by
    rw [← Bool.not_eq_true, hprovides]
    exact hnew
  obtain ⟨i, hi, rfl⟩ := exists_mem_postorder hwalked hop hcalled hprov
  obtain ⟨-, hkey⟩ := h.known hc.identified i hi
  obtain ⟨m, d, hd, hdk⟩ := Catalog.Ordered.exists_getElem? hkey
  exact ⟨m, _, h.defines hp hc hsize hop hd hdk⟩

end

end Exported

theorem Defines.position_unique {ops : List Operation} {p : Program} {k : Catalog}
    {options : Options} {op : Operation} {offer offer' : Interface} {m n : Nat}
    (hk : k.Ordered ops) (hm : Defines p k options op offer m)
    (hn : Defines p k options op offer' n) : m = n := by
  obtain ⟨d, -, hd, -, -, hdk, -⟩ := hm
  obtain ⟨e, -, he, -, -, hek, -⟩ := hn
  have hlt := (List.getElem?_eq_some_iff.mp hd).1
  refine (List.getElem?_inj (by simpa [Catalog.keys] using hlt) hk.distinct).mp ?_
  simp [Catalog.keys, hd, he, hdk, hek]

/-- Every call refers to a gate that is provided or to an earlier definition of the called
operation with its interface. Every operation that needs a definition has exactly one, and
there are no other definitions. -/
theorem calls_refer_to_earlier_definitions {c : Circuit} {options : Options} {s : Session}
    {p : Program} (hc : c.FromFactories) (hsize : ∀ b ∈ c.bodies, b.qubitTotal < UInt64.size)
    (h : (Session.start c options).build = (s, .ok p)) :
    p.statements.length = (s.catalog.sources c).length ∧
    (∀ n g is, p.statements[n]? = some g → (s.catalog.sources c)[n]? = some is →
      List.Forall₂ (Refers p s.catalog options n) g.calls
        (is.filter fun i => decide i.operation.IsCalled)) ∧
    (∀ op ∈ operationsOf c.instructions, op.IsCalled → ¬ op.Builtin options →
      ∃! m, ∃ offer, Defines p s.catalog options op offer m) ∧
    (∀ n g, p.statements[n]? = some g → g.interface?.isSome →
      ∃ op ∈ operationsOf c.instructions, op.IsCalled ∧ ¬ op.Builtin options ∧
        ∃ offer, Defines p s.catalog options op offer n) := by
  obtain ⟨items, statements, hexp, hp⟩ := Session.exported_of_build h
  have hord := hexp.ordered hc.identified
  refine ⟨hexp.length_statements hp, ?_, ?_, ?_⟩
  · intro n g is hg his
    obtain ⟨d, hd, hlow, rfl⟩ | ⟨hdecl, rfl⟩ | ⟨hn, i, hi, st, hst, rfl, rfl⟩ :=
      hexp.item_cases hp hg his
    · exact hexp.refers_in_definition hp hc hsize hd hlow
    · rw [Circuit.calls_of_mem_declarations hdecl]
      exact .nil
    · exact hexp.refers_in_statement hp hc hsize hn hi hst
  · intro op hop hcalled hnew
    obtain ⟨m, hm⟩ := hexp.exists_defines hp hc hsize hop hcalled hnew
    refine ⟨m, hm, ?_⟩
    rintro n ⟨offer', hn⟩
    exact hn.position_unique hord hm.choose_spec
  · intro n g hg hoffer
    have hlt := (List.getElem?_eq_some_iff.mp hg).1
    rw [hexp.length_statements hp] at hlt
    obtain ⟨d, hd, -, -⟩ | ⟨hdecl, -⟩ | ⟨-, _, -, _, -, rfl, -⟩ :=
      hexp.item_cases hp hg (List.getElem?_eq_getElem hlt)
    · have hmem := List.mem_of_getElem? hd
      refine ⟨d.operation, hord.mem d hmem, hord.called d hmem, ?_, _,
        hexp.defines hp hc hsize (hord.mem d hmem) hd rfl⟩
      rw [← hexp.provides_iff hc.identified, hord.unprovided d hmem]
      simp
    · rw [Circuit.interface?_of_mem_declarations hdecl] at hoffer
      simp at hoffer
    · simp [ProgramItem.interface?] at hoffer

theorem Nested.circuit_calls_resolved :
    ∃ s p, (Session.start circuit .standard).build = (s, .ok p) ∧
      (∀ n g is, p.statements[n]? = some g → (s.catalog.sources circuit)[n]? = some is →
        List.Forall₂ (Refers p s.catalog .standard n) g.calls
          (is.filter fun i => decide i.operation.IsCalled)) ∧
      (∃! m, ∃ offer, Defines p s.catalog .standard pairGate offer m) ∧
      p.statements.flatMap ProgramItem.calls =
        [⟨.gate, "kick", 1, 1⟩, ⟨.gate, "cx", 0, 2⟩, ⟨.gate, "swap_1", 1, 2⟩,
          ⟨.gate, "swap_1", 1, 2⟩, ⟨.subroutine, "swap_2", 1, 2⟩, ⟨.gate, "kick", 1, 1⟩] := by
  obtain ⟨s, p, h⟩ : ∃ s p, (Session.start circuit .standard).build = (s, .ok p) := ⟨_, _, rfl⟩
  have hcalls : (circuit.toProgram .standard).map (·.statements.flatMap ProgramItem.calls) =
      .ok [⟨.gate, "kick", 1, 1⟩, ⟨.gate, "cx", 0, 2⟩, ⟨.gate, "swap_1", 1, 2⟩,
        ⟨.gate, "swap_1", 1, 2⟩, ⟨.subroutine, "swap_2", 1, 2⟩, ⟨.gate, "kick", 1, 1⟩] := rfl
  rw [Circuit.toProgram, h] at hcalls
  obtain ⟨-, hrefer, hdefined, -⟩ :=
    calls_refer_to_earlier_definitions circuit_fromFactories (by decide) h
  have hmem : pairGate ∈ operationsOf circuit.instructions := by
    have hcall : chainCall ∈ operationsOf circuit.instructions := by simp [circuit]
    have hchain : pairGate ∈ operationsOf chainCall.inner :=
      operation_mem_operationsOf (i := ⟨pairGate, [q 1, q 0], [], none⟩) List.mem_cons_self
    exact operationsOf_inner_subset hcall hchain
  refine ⟨s, p, h, hrefer, hdefined pairGate hmem (.inl rfl) ?_, Except.ok.inj hcalls⟩
  simp [Operation.Builtin, pairGate]

end OpenQasm
