import OpenQasm.Proofs.Scoping

/-! Which gate blocks are unitary, and what a body without classical bits may still contain. -/
namespace OpenQasm

/-- The program defines the gate or declares it without a body. -/
def Program.HasGate (p : Program) (name : String) : Prop :=
  ∃ signature : Signature, signature.name = name ∧
    (.bodilessGate signature ∈ p.statements ∨ ∃ body, .gate signature body ∈ p.statements)

def Program.HasSubroutine (p : Program) (name : String) : Prop :=
  ∃ (signature : SubroutineSignature) (body : List Statement),
    signature.name = name ∧ .subroutine signature body ∈ p.statements

/-- A gate that can be called without a definition. -/
def Options.Provide (options : Options) (name : String) : Prop :=
  name = "U" ∨ standardInclude ∈ options.includes ∧ name ∈ StandardGate.includedNames

namespace Statement
variable (p : Program) (options : Options)

/-- A call of a gate or a barrier. -/
def IsUnitary : Statement → Prop
  | .gateCall call => options.Provide call.name ∨ p.HasGate call.name
  | .barrier _ => True
  | .subroutineCall _ => False
  | .measure .. => False
  | .branch .. => False

inductive IsCall : Statement → Prop
  | gate {call : Call} (h : options.Provide call.name ∨ p.HasGate call.name) :
      IsCall (.gateCall call)
  | subroutine {call : Call} (h : p.HasSubroutine call.name) : IsCall (.subroutineCall call)

/-- A barrier, a call, or a call under a test of a single bit. -/
inductive IsCallOrBarrier : Statement → Prop
  | barrier (qubits : List Operand) : IsCallOrBarrier (.barrier qubits)
  | call {st : Statement} (h : st.IsCall p options) : IsCallOrBarrier st
  | guarded {st : Statement} (o : Operand) (value : Int) (h : st.IsCall p options) :
      IsCallOrBarrier (.branch ⟨.operand o, .integer value⟩ [st])

end Statement

/-- Places a gate or a barrier, whatever happens. -/
def Instruction.IsUnitary (i : Instruction) : Prop :=
  i.condition = none ∧ (i.operation.kind = .gate ∨ i.operation.kind = .barrier)

namespace Definition
variable {d : Definition} {s : Scope} {fold : Bool} {g : ProgramItem}

/-- Gate blocks come from gates with a body. -/
theorem lower_gate {signature : Signature} {sts : List Statement}
    (hform : d.form = d.operation.form) (h : d.lower s fold = .ok (.gate signature sts)) :
    ∃ b, d.operation.kind = .gate ∧ d.operation.body = some b ∧
      b.lowered s fold .flat = .ok sts := by
  obtain ⟨b, _, hf, hs, hg⟩ | ⟨_, _, -, -, hg⟩ | ⟨-, hg⟩ := lower_eq_ok h
  · obtain ⟨rfl, rfl⟩ := ProgramItem.gate.inj hg
    have hbody := Operation.body_of_form (hform.symm.trans hf) (.inl rfl)
    refine ⟨b, ?_, hbody, hs⟩
    by_contra hkind
    simp [hform, Operation.form, hbody, hkind] at hf
  · cases hg
  · cases hg

theorem gate_of_lower (hform : d.form = d.operation.form) (hkind : d.operation.kind = .gate)
    (h : d.lower s fold = .ok g) :
    ∃ signature : Signature, signature.name = d.name ∧
      (g = .bodilessGate signature ∨ ∃ body, g = .gate signature body) := by
  obtain ⟨_, sts, -, -, rfl⟩ | ⟨b, _, hf, -, -⟩ | ⟨-, rfl⟩ := lower_eq_ok h
  · exact ⟨_, rfl, .inr ⟨sts, rfl⟩⟩
  · have hbody := Operation.body_of_form (hform.symm.trans hf) (.inr rfl)
    simp [hform, Operation.form, hbody, hkind] at hf
  · exact ⟨_, rfl, .inl rfl⟩

theorem subroutine_of_lower (hform : d.form = d.operation.form)
    (hkind : d.operation.kind = .subroutine) (hbody : d.operation.body ≠ none)
    (h : d.lower s fold = .ok g) :
    ∃ (signature : SubroutineSignature) (body : List Statement),
      signature.name = d.name ∧ g = .subroutine signature body := by
  obtain ⟨b, _, hf, -, -⟩ | ⟨_, sts, -, -, rfl⟩ | ⟨hf, -⟩ := lower_eq_ok h
  · have hsome := Operation.body_of_form (hform.symm.trans hf) (.inl rfl)
    simp [hform, Operation.form, hsome, hkind] at hf
  · exact ⟨_, sts, rfl, rfl⟩
  · exact absurd (Operation.body_none_of_form (hform.symm.trans hf)) hbody

end Definition

/-- Operations with one key are of one kind. -/
theorem kind_eq_of_key {ops : List Operation} (hops : Identified ops)
    (hmade : ∀ op ∈ ops, op.WellMade) {a b : Operation} (ha : a ∈ ops) (hb : b ∈ ops)
    (hkey : b.key = a.key) : b.kind = a.kind := by
  rcases Operation.key_eq_key hkey with ⟨hs, ht, -⟩ | ⟨-, -, hid⟩
  · obtain ⟨f, hf⟩ := Option.isSome_iff_exists.mp hs
    obtain ⟨g, hg⟩ := Option.isSome_iff_exists.mp ht
    rw [((hmade a ha).standard f hf).1, ((hmade b hb).standard g hg).1]
  · rw [hops.eq_of_id b hb a ha hid]

namespace Exported
variable {c : Circuit} {options : Options} {k : Catalog} {items : List ProgramItem}
  {statements : List Statement} {p : Program} (h : Exported c options k items statements)
  (hp : p.statements = items ++ c.declarations ++ statements.map .statement)

/-- Definitions stand nowhere but in front. -/
theorem mem_items (hp : p.statements = items ++ c.declarations ++ statements.map .statement)
    {g : ProgramItem} (hg : g ∈ p.statements) (hname : g.definedName?.isSome) : g ∈ items := by
  rw [hp, List.append_assoc] at hg
  rcases List.mem_append.mp hg with hg | hg
  · exact hg
  · have hnone : g.definedName? = none := by
      rcases List.mem_append.mp hg with hg | hg
      · exact List.filterMap_eq_nil_iff.mp (filterMap_definedName?_declarations c) g hg
      · obtain ⟨st, -, rfl⟩ := List.mem_map.mp hg
        rfl
    simp [hnone] at hname

include h hp

theorem exists_item {d : Definition} (hd : d ∈ k.definitions) :
    ∃ g ∈ p.statements, d.lower k.scope options.fold = .ok g := by
  obtain ⟨g, hg, hlow⟩ := exists_right_of_forall₂ h.definitions hd
  refine ⟨g, ?_, hlow⟩
  rw [hp, List.append_assoc]
  exact List.mem_append_left _ hg

variable (hc : c.FromFactories)
include hc

omit hp in
/-- Every operation with a body is defined. -/
theorem exists_definition_of_body {op : Operation} (hop : op ∈ operationsOf c.instructions)
    (hbody : op.body ≠ none) : ∃ d ∈ k.definitions, d.operation = op := by
  have hwalked (o : Operation) (ho : o ∈ operationsOf c.instructions) (hb : o.body ≠ none) :
      o.IsCalled ∧ k.scope.provides o = false := by
    refine ⟨?_, hc.identified.provides_of_body ho hb k.scope⟩
    obtain ⟨b, hb⟩ := Option.ne_none_iff_exists'.mp hb
    exact ((hc.wellMade o ho).body b hb).1
  obtain ⟨hcalled, hprov⟩ := hwalked op hop hbody
  obtain ⟨i, hi, rfl⟩ := exists_mem_postorder hwalked hop hcalled hprov
  obtain ⟨-, hkey⟩ := h.known hc.identified i hi
  obtain ⟨d, hd, hdk⟩ := List.mem_map.mp hkey
  exact ⟨d, hd, hc.identified.eq_of_key hop (h.definition_form hd).1 hbody hdk⟩

omit hp in
/-- Every body has registers that can be declared and instructions that have statements. -/
theorem lowered_body {op : Operation} (hop : op ∈ operationsOf c.instructions) {b : Circuit}
    (hb : op.body = some b) :
    checkRegisters b = .ok () ∧ ∃ sts, b.lowered k.scope options.fold .flat = .ok sts := by
  obtain ⟨d, hd, rfl⟩ := h.exists_definition_of_body hc hop (by simp [hb])
  exact h.lowered_definition hd hb

/-- The blocks of gates are the lowered bodies of the gates that the circuit places. -/
theorem gate_block_iff {sts : List Statement} :
    (∃ signature, .gate signature sts ∈ p.statements) ↔
      ∃ op ∈ operationsOf c.instructions, ∃ b, op.kind = .gate ∧ op.body = some b ∧
        b.lowered k.scope options.fold .flat = .ok sts := by
  constructor
  · rintro ⟨signature, hin⟩
    have hitem : ProgramItem.gate signature sts ∈ items := mem_items hp hin rfl
    obtain ⟨d, hd, hlow⟩ := exists_left_of_forall₂ h.definitions hitem
    obtain ⟨hop, hform⟩ := h.definition_form hd
    exact ⟨d.operation, hop, Definition.lower_gate hform hlow⟩
  · rintro ⟨op, hop, b, hkind, hbody, hsts⟩
    obtain ⟨d, hd, rfl⟩ := h.exists_definition_of_body hc hop (by simp [hbody])
    obtain ⟨g, hg, hlow⟩ := h.exists_item hp hd
    have hform : d.form = .gate b := by
      rw [(h.definition_form hd).2, Operation.form, hbody]
      exact if_pos hkind
    obtain ⟨_, _, hf, hlowered, rfl⟩ | ⟨_, _, hf, -, -⟩ | ⟨hf, -⟩ := Definition.lower_eq_ok hlow
    · obtain rfl := DefinitionForm.gate.inj (hform.symm.trans hf)
      obtain rfl := Except.ok.inj (hsts.symm.trans hlowered)
      exact ⟨_, hg⟩
    · cases hform.symm.trans hf
    · cases hform.symm.trans hf

omit hp in
/-- An operation is called by the name of a gate that is provided or of a definition of its own
kind. -/
theorem callee_definition {op : Operation} (hop : op ∈ operationsOf c.instructions)
    {name : String} (hname : k.scope.name? op = some name) :
    (op.kind = .gate ∧ options.Provide name) ∨
      ∃ d ∈ k.definitions, d.operation.kind = op.kind ∧ d.name = name := by
  cases hprov : k.scope.provides op with
  | true =>
    obtain rfl := Scope.name_eq_of_provides hprov hname
    have hbuiltin := (h.provides_iff hc.identified op).mp hprov
    obtain ⟨g, hg⟩ := Option.isSome_iff_exists.mp hbuiltin.isStandard
    exact .inl ⟨((hc.wellMade op hop).standard g hg).1,
      hbuiltin.name_provided (hc.wellMade op hop)⟩
  | false =>
    obtain ⟨d, hd, hkey, hdn⟩ := (h.ordered hc.identified).exists_of_name? hprov hname
    have hdop := (h.definition_form hd).1
    exact .inr ⟨d, hd, kind_eq_of_key hc.identified hc.wellMade hop hdop hkey, hdn⟩

theorem gate_callee {op : Operation} (hop : op ∈ operationsOf c.instructions)
    (hkind : op.kind = .gate) {name : String} (hname : k.scope.name? op = some name) :
    options.Provide name ∨ p.HasGate name := by
  obtain ⟨-, hprov⟩ | ⟨d, hd, hdk, rfl⟩ := h.callee_definition hc hop hname
  · exact .inl hprov
  · obtain ⟨g, hg, hlow⟩ := h.exists_item hp hd
    obtain ⟨signature, hsig, hitem⟩ :=
      Definition.gate_of_lower (h.definition_form hd).2 (hdk.trans hkind) hlow
    refine .inr ⟨signature, hsig, ?_⟩
    obtain rfl | ⟨body, rfl⟩ := hitem
    · exact .inl hg
    · exact .inr ⟨body, hg⟩

theorem subroutine_callee {op : Operation} (hop : op ∈ operationsOf c.instructions)
    (hkind : op.kind = .subroutine) {name : String} (hname : k.scope.name? op = some name) :
    p.HasSubroutine name := by
  obtain ⟨hgate, -⟩ | ⟨d, hd, hdk, rfl⟩ := h.callee_definition hc hop hname
  · rw [hkind] at hgate
    cases hgate
  · have hkind := hdk.trans hkind
    obtain ⟨g, hg, hlow⟩ := h.exists_item hp hd
    obtain ⟨hdop, hform⟩ := h.definition_form hd
    obtain ⟨signature, body, hsig, rfl⟩ :=
      Definition.subroutine_of_lower hform hkind ((hc.wellMade _ hdop).subroutine hkind) hlow
    exact ⟨signature, body, hsig, hg⟩

end Exported

section
variable {s : Scope} {fold : Bool} {naming : Naming} {p : Program} {options : Options}

theorem Lowered.isUnitary_iff {op : Operation} {qubits clbits : List Bit} {st : Statement}
    (h : Lowered s fold naming op qubits clbits st)
    (hgate : op.kind = .gate → ∀ name, s.name? op = some name →
      options.Provide name ∨ p.HasGate name) :
    st.IsUnitary p options ↔ op.kind = .gate ∨ op.kind = .barrier := by
  cases h with
  | gate kind resolved _ => exact iff_of_true (hgate kind _ resolved) (.inl kind)
  | subroutine kind _ _ => simp [Statement.IsUnitary, kind]
  | barrier kind _ => exact iff_of_true trivial (.inr kind)
  | measurement kind _ _ => simp [Statement.IsUnitary, kind]

/-- The statement of an instruction is unitary exactly if the instruction is. -/
theorem Instruction.isUnitary_iff {i : Instruction} {b : Circuit} {st : Statement}
    (h : i.lower b s fold naming = .ok st)
    (hgate : i.operation.kind = .gate → ∀ name, s.name? i.operation = some name →
      options.Provide name ∨ p.HasGate name) :
    st.IsUnitary p options ↔ i.IsUnitary := by
  obtain ⟨hcond, hlow⟩ | ⟨cond, _, _, hcond, -, -, rfl⟩ := lower_eq_ok h
  · simp [hlow.isUnitary_iff hgate, IsUnitary, hcond]
  · simp [Statement.IsUnitary, IsUnitary, hcond]

/-- What a statement can be that is no branch. -/
theorem Lowered.call_or_barrier {op : Operation} {qubits clbits : List Bit} {st : Statement}
    (h : Lowered s fold naming op qubits clbits st)
    (hgate : op.kind = .gate → ∀ name, s.name? op = some name →
      options.Provide name ∨ p.HasGate name)
    (hsubroutine : op.kind = .subroutine → ∀ name, s.name? op = some name →
      p.HasSubroutine name) (htarget : st.target? = none) :
    st.IsCall p options ∨ (op.kind = .barrier ∧ ∃ os, st = .barrier os) := by
  cases h with
  | gate kind resolved _ => exact .inl (.gate (hgate kind _ resolved))
  | subroutine kind resolved _ => exact .inl (.subroutine (hsubroutine kind _ resolved))
  | barrier kind _ => exact .inr ⟨kind, _, rfl⟩
  | measurement _ _ _ => cases htarget

theorem Instruction.kind_ne_barrier {i : Instruction} {b : Circuit} {st : Statement}
    (h : i.lower b s fold naming = .ok st) {cond : Condition} (hcond : i.condition = some cond) :
    i.operation.kind ≠ .barrier := by
  intro hkind
  simp [lower, hcond, hkind] at h

end

namespace Operation
variable {op : Operation} {usable : Circuit → Prop}

/-- A body comes from one of the two factories that take a circuit. -/
theorem Made.of_body (h : op.Made usable) {b : Circuit} (hb : op.body = some b) :
    ∃ id arguments, b.asGate id arguments = .ok op ∨ b.asSubroutine id arguments = .ok op := by
  have hbody {made : Circuit} (hmade : op.body = some made) : made = b :=
    Option.some.inj (hmade.symm.trans hb)
  cases h with
  | standard h =>
    unfold ofStandard at h
    split at h
    · cases h
      cases hb
    · cases h
  | bodiless h =>
    unfold Operation.bodiless at h
    split at h
    · cases h
    · split at h
      · cases h
      · cases h
        cases hb
  | barrier h =>
    unfold Operation.barrier at h
    split at h
    · cases h
    · cases h
      cases hb
  | measurement h =>
    unfold Operation.measurement at h
    split at h
    · cases h
    · cases h
      cases hb
  | @gate made id arguments _ _ h =>
    have hmade : made.asOperation id .gate arguments = .ok op := by
      unfold Circuit.asGate at h
      split at h
      · exact h
      · cases h
    obtain rfl := hbody (Circuit.asOperation_eq_ok hmade).2.1
    exact ⟨id, arguments, .inl h⟩
  | @subroutine made id arguments _ _ h =>
    obtain rfl := hbody (Circuit.asOperation_eq_ok h).2.1
    exact ⟨id, arguments, .inr h⟩

/-- A gate has a body without classical bits, as far as a word can tell. -/
theorem Made.clbitCount_body (h : op.Made usable) (hkind : op.kind = .gate) {b : Circuit}
    (hb : op.body = some b) : b.clbitCount = 0 := by
  obtain ⟨id, arguments, hgate | hsubroutine⟩ := h.of_body hb
  · unfold Circuit.asGate at hgate
    split at hgate
    · assumption
    · cases hgate
  · have hother := (Circuit.asOperation_eq_ok hsubroutine).1
    rw [hkind] at hother
    cases hother

end Operation

theorem Circuit.FromFactories.clbitCount_body {c : Circuit} (h : c.FromFactories) {op : Operation}
    (hop : op ∈ operationsOf c.instructions) (hkind : op.kind = .gate) {b : Circuit}
    (hb : op.body = some b) : b.clbitCount = 0 := by
  obtain ⟨made, hm, hc⟩ := h
  exact (hm.made_of_mem op (hm.operationsOf_subset hc hop)).clbitCount_body hkind hb

namespace Circuit

theorem sizeTotal_eq_zero {regs : List Register} (hlt : sizeTotal regs < UInt64.size)
    (h : sizeSum regs = 0) : sizeTotal regs = 0 := by
  rw [← Nat.mod_eq_of_lt hlt, ← toNat_sizeSum, h, UInt64.toNat_zero]

/-- Registers that can be declared have bits, so there are none where there are no bits. -/
theorem cregs_eq_nil {b : Circuit} (hregs : checkRegisters b = .ok ())
    (hcount : b.clbitCount = 0) (hlt : sizeTotal b.cregs < UInt64.size) : b.cregs = [] := by
  have htotal := sizeTotal_eq_zero hlt hcount
  have hdecl := checkRegisters_eq_ok.mp hregs
  cases hc : b.cregs with
  | nil => rfl
  | cons r rest =>
    rw [hc, sizeTotal] at htotal
    have hsize : r.size.toNat = 0 := by omega
    have hr : r ∈ b.qregs ++ b.cregs := by simp [hc]
    exact absurd (UInt64.toNat_inj.mp hsize) (hdecl r hr).2

namespace Regular
variable {b : Circuit} (h : b.Regular) (hb : b.cregs = [])
include h hb

theorem kind_eq_quantum : ∀ r ∈ b.qregs ++ b.cregs, r.kind = .quantum := by
  rw [hb, List.append_nil]
  exact h.quantum

/-- There is nothing to measure into. -/
theorem target?_eq_none {i : Instruction} (hi : i ∈ b.instructions) {s : Scope} {fold : Bool}
    {st : Statement} (hlow : Lowered s fold .flat i.operation i.qubits i.clbits st) :
    st.target? = none := by
  by_contra hsome
  obtain ⟨o, ho⟩ := Option.ne_none_iff_exists'.mp hsome
  obtain ⟨bit, hbit, hop⟩ := hlow.exists_clbit o ho
  obtain ⟨name, hname, -⟩ := Bit.operand_flat hop
  obtain ⟨r, hr, hclassical, -⟩ := ((h.placed i hi).clbits bit hbit).2 name hname
  rw [h.kind_eq_quantum hb r hr] at hclassical
  cases hclassical

/-- There is no register to test. -/
theorem equality_operand {cond : Condition} {naming : Naming} {test : Equality}
    (ht : cond.equality b naming = .ok test) :
    ∃ o, test = ⟨.operand o, .integer cond.value⟩ := by
  obtain ⟨-, ⟨r, declared, -, hfind, hkind, -⟩ | ⟨_, o, -, -, -, rfl⟩⟩ :=
    Condition.equality_eq_ok ht
  · rw [h.kind_eq_quantum hb declared (List.mem_of_find?_eq_some hfind)] at hkind
    cases hkind
  · exact ⟨o, rfl⟩

end Regular
end Circuit

/-- An instruction of a body without classical registers calls something, maybe under a test of a
single bit, or is a barrier. -/
theorem Exported.isCallOrBarrier {c : Circuit} {options : Options} {k : Catalog}
    {items : List ProgramItem} {statements : List Statement} {p : Program}
    (h : Exported c options k items statements)
    (hp : p.statements = items ++ c.declarations ++ statements.map .statement)
    (hc : c.FromFactories) {b : Circuit} (hb : b.Regular) (hnone : b.cregs = [])
    {i : Instruction} (hi : i ∈ b.instructions) (hop : i.operation ∈ operationsOf c.instructions)
    {st : Statement} (hst : i.lower b k.scope options.fold .flat = .ok st) :
    st.IsCallOrBarrier p options := by
  have hplain {st : Statement}
      (hlow : Lowered k.scope options.fold .flat i.operation i.qubits i.clbits st) :
      st.IsCall p options ∨ (i.operation.kind = .barrier ∧ ∃ os, st = .barrier os) :=
    hlow.call_or_barrier (fun hk _ => h.gate_callee hp hc hop hk)
      (fun hk _ => h.subroutine_callee hp hc hop hk) (hb.target?_eq_none hnone hi hlow)
  obtain ⟨-, hlow⟩ | ⟨cond, test, inner, hcond, ht, hlow, rfl⟩ := Instruction.lower_eq_ok hst
  · obtain hcall | ⟨-, os, rfl⟩ := hplain hlow
    · exact .call hcall
    · exact .barrier os
  · obtain ⟨o, rfl⟩ := hb.equality_operand hnone ht
    obtain hcall | ⟨hbarrier, -⟩ := hplain hlow
    · exact .guarded o cond.value hcall
    · exact absurd hbarrier (Instruction.kind_ne_barrier hst hcond)

/-- For a circuit whose operations come from the factories, the blocks of gates hold nothing but
calls of gates and barriers exactly if the gates that the circuit places, at any depth, have
bodies that place nothing else and without conditions. Where the sizes of the bodies' classical
registers do not exceed a word in sum, the blocks hold barriers and calls, and calls under a test
of a single bit. -/
theorem gate_blocks_unitary_iff {c : Circuit} (hc : c.FromFactories) {options : Options}
    {p : Program} (h : c.toProgram options = .ok p) :
    ((∀ signature body, .gate signature body ∈ p.statements →
        ∀ st ∈ body, st.IsUnitary p options) ↔
      ∀ op ∈ operationsOf c.instructions, op.kind = .gate → ∀ i ∈ op.inner, i.IsUnitary) ∧
    ((∀ op ∈ operationsOf c.instructions, op.kind = .gate →
        ∀ b ∈ op.body, Circuit.sizeTotal b.cregs < UInt64.size) →
      ∀ signature body, .gate signature body ∈ p.statements →
        ∀ st ∈ body, st.IsCallOrBarrier p options) := by
  obtain ⟨k, items, statements, hexp, hp⟩ := Circuit.exported_of_toProgram h
  have hinner {op : Operation} (hop : op ∈ operationsOf c.instructions) {b : Circuit}
      (hb : op.body = some b) {i : Instruction} (hi : i ∈ b.instructions) :
      i.operation ∈ operationsOf c.instructions := by
    rw [← Operation.inner_of_body hb] at hi
    exact operationsOf_inner_subset hop (operation_mem_operationsOf hi)
  -- an instruction of a gate and its statement in the block of the gate are unitary together
  have hiff {op : Operation} (hop : op ∈ operationsOf c.instructions) {b : Circuit}
      (hb : op.body = some b) {i : Instruction} (hi : i ∈ b.instructions) {st : Statement}
      (hst : i.lower b k.scope options.fold .flat = .ok st) :
      st.IsUnitary p options ↔ i.IsUnitary :=
    Instruction.isUnitary_iff hst fun hk _ => hexp.gate_callee hp hc (hinner hop hb hi) hk
  refine ⟨⟨?_, ?_⟩, ?_⟩
  · intro hblocks op hop hkind i hi
    obtain ⟨b, hb⟩ := Option.ne_none_iff_exists'.mp (Operation.body_ne_none_of_mem hi)
    rw [Operation.inner_of_body hb] at hi
    obtain ⟨-, sts, hlow⟩ := hexp.lowered_body hc hop hb
    obtain ⟨signature, hin⟩ := (hexp.gate_block_iff hp hc).mpr ⟨op, hop, b, hkind, hb, hlow⟩
    obtain ⟨st, hst, hsti⟩ := exists_right_of_forall₂ (Circuit.lowered_eq_ok.mp hlow) hi
    exact (hiff hop hb hi hsti).mp (hblocks signature sts hin st hst)
  · intro hbodies signature body hin st hst
    obtain ⟨op, hop, b, hkind, hb, hlow⟩ := (hexp.gate_block_iff hp hc).mp ⟨signature, hin⟩
    obtain ⟨i, hi, hsti⟩ := exists_left_of_forall₂ (Circuit.lowered_eq_ok.mp hlow) hst
    apply (hiff hop hb hi hsti).mpr
    exact hbodies op hop hkind i (Operation.inner_of_body hb ▸ hi)
  · intro hsizes signature body hin st hst
    obtain ⟨op, hop, b, hkind, hb, hlow⟩ := (hexp.gate_block_iff hp hc).mp ⟨signature, hin⟩
    obtain ⟨i, hi, hsti⟩ := exists_left_of_forall₂ (Circuit.lowered_eq_ok.mp hlow) hst
    have hnone : b.cregs = [] := Circuit.cregs_eq_nil (hexp.lowered_body hc hop hb).1
      (hc.clbitCount_body hop hkind hb) (hsizes op hop hkind b hb)
    exact hexp.isCallOrBarrier hp hc (hc.regular_body op hop b hb) hnone hi (hinner hop hb hi) hsti

instance : DecidablePred Instruction.IsUnitary :=
  fun i => inferInstanceAs
    (Decidable (i.condition = none ∧ (i.operation.kind = .gate ∨ i.operation.kind = .barrier)))

theorem Nested.gate_blocks_unitary :
    ∃ p, circuit.toProgram .standard = .ok p ∧
      .gate ⟨"swap_1", ["theta"], ["q_0", "q_1"]⟩
          [.gateCall ⟨"kick", [.identifier "theta"], [⟨"q_1", none⟩]⟩,
            .gateCall ⟨"cx", [], [⟨"q_1", none⟩, ⟨"q_0", none⟩]⟩] ∈ p.statements ∧
      ∀ signature body, .gate signature body ∈ p.statements →
        ∀ st ∈ body, st.IsUnitary p .standard ∧ st.IsCallOrBarrier p .standard := by
  obtain ⟨p, hp⟩ : ∃ p, circuit.toProgram .standard = .ok p := ⟨_, rfl⟩
  have hgate : (circuit.toProgram .standard).map (fun p => p.statements[1]?) =
      .ok (some (.gate ⟨"swap_1", ["theta"], ["q_0", "q_1"]⟩
        [.gateCall ⟨"kick", [.identifier "theta"], [⟨"q_1", none⟩]⟩,
          .gateCall ⟨"cx", [], [⟨"q_1", none⟩, ⟨"q_0", none⟩]⟩])) := rfl
  rw [hp] at hgate
  have hbodies : ∀ op ∈ operationsOf circuit.instructions, op.kind = .gate →
      ∀ i ∈ op.inner, i.IsUnitary := by decide
  have hsizes : ∀ op ∈ operationsOf circuit.instructions, op.kind = .gate →
      ∀ b ∈ op.body, Circuit.sizeTotal b.cregs < UInt64.size := by decide
  obtain ⟨hunitary, hcalls⟩ := gate_blocks_unitary_iff circuit_fromFactories hp
  refine ⟨p, hp, List.mem_of_getElem? (Except.ok.inj hgate), ?_⟩
  intro signature body hin st hst
  exact ⟨hunitary.mpr hbodies signature body hin st hst, hcalls hsizes signature body hin st hst⟩

namespace Impure

def flip : Operation := ⟨.gate, "h", 1, 0, [], none, some .h, 0⟩

def prep : Circuit := ⟨"prep", [⟨.quantum, "q", 1⟩], [], [⟨flip, [Nested.q 0], [], none⟩]⟩

def prepCall : Operation := ⟨.subroutine, "prep", 1, 0, [], some prep, none, 1⟩

/-- It has no classical bits, but calls a subroutine and tests a bit that is not there. -/
def mixed : Circuit :=
  ⟨"g", [⟨.quantum, "q", 1⟩], [],
    [⟨prepCall, [Nested.q 0], [], none⟩,
      ⟨flip, [Nested.q 0], [], some ⟨.bit ⟨.classical, some "c", 0⟩, .equal, 1⟩⟩]⟩

def mixedGate : Operation := ⟨.gate, "g", 1, 0, [], some mixed, none, 2⟩

def readout : Operation := ⟨.measurement, "measure", 1, 1, [], none, none, 3⟩

/-- The sizes of its classical registers add up to zero in a word. -/
def wide : Circuit :=
  ⟨"wide", [⟨.quantum, "q", 1⟩],
    [⟨.classical, "a", 9223372036854775808⟩, ⟨.classical, "b", 9223372036854775808⟩],
    [⟨readout, [Nested.q 0], [⟨.classical, some "a", 0⟩], none⟩]⟩

def wideGate : Operation := ⟨.gate, "wide", 1, 0, [], some wide, none, 4⟩

def circuit : Circuit :=
  ⟨"main", [⟨.quantum, "q", 1⟩], [],
    [⟨mixedGate, [Nested.q 0], [], none⟩, ⟨wideGate, [Nested.q 0], [], none⟩]⟩

theorem history : History [wideGate, readout, mixedGate, prepCall, flip] := by
  have hflip : Operation.ofStandard 0 .h [] = .ok flip := rfl
  have hprep : prep.Built (· ∈ [flip]) :=
    (Circuit.Built.ofSizes "prep" 1 0).append (i := ⟨flip, [Nested.q 0], [], none⟩) (by simp) rfl
  have hprepCall : prep.asSubroutine 1 none = .ok prepCall := rfl
  have hmixed : mixed.Built (· ∈ [prepCall, flip]) :=
    ((Circuit.Built.ofSizes "g" 1 0).append (i := ⟨prepCall, [Nested.q 0], [], none⟩)
      (by simp) rfl).append
      (i := ⟨flip, [Nested.q 0], [], some ⟨.bit ⟨.classical, some "c", 0⟩, .equal, 1⟩⟩)
      (by simp) rfl
  have hmixedGate : mixed.asGate 2 none = .ok mixedGate := rfl
  have hreadout : Operation.measurement 3 1 = .ok readout := rfl
  have hwide : wide.Built (· ∈ [readout, mixedGate, prepCall, flip]) :=
    (((Circuit.Built.ofSizes "wide" 1 0).declare
      (r := ⟨.classical, "a", 9223372036854775808⟩) rfl).declare
      (r := ⟨.classical, "b", 9223372036854775808⟩) rfl).append
      (i := ⟨readout, [Nested.q 0], [⟨.classical, some "a", 0⟩], none⟩) (by simp) rfl
  have hwideGate : wide.asGate 4 none = .ok wideGate := rfl
  exact ((((History.nil.cons (by decide) (.standard hflip)).cons (by decide)
    (.subroutine hprep hprepCall)).cons (by decide) (.gate hmixed hmixedGate)).cons (by decide)
    (.measurement hreadout)).cons (by decide) (.gate hwide hwideGate)

theorem circuit_fromFactories : circuit.FromFactories :=
  ⟨_, history, ((Circuit.Built.ofSizes "main" 1 0).append
    (i := ⟨mixedGate, [Nested.q 0], [], none⟩) (by simp) rfl).append
    (i := ⟨wideGate, [Nested.q 0], [], none⟩) (by simp) rfl⟩

/-- A subroutine call, a branch and a measurement in gate blocks. -/
theorem gate_blocks_not_unitary :
    circuit.FromFactories ∧ ∃ p, circuit.toProgram .standard = .ok p ∧
      .gate ⟨"g", [], ["q_0"]⟩
          [.subroutineCall ⟨"prep", [], [⟨"q_0", none⟩]⟩,
            .branch ⟨.operand ⟨"c_0", none⟩, .integer 1⟩ [.gateCall ⟨"h", [], [⟨"q_0", none⟩]⟩]] ∈
        p.statements ∧
      .gate ⟨"wide", [], ["q_0"]⟩ [.measure ⟨"a_0", none⟩ [⟨"q_0", none⟩]] ∈ p.statements ∧
      ¬ ∀ signature body, .gate signature body ∈ p.statements →
        ∀ st ∈ body, st.IsUnitary p .standard := by
  obtain ⟨p, hp⟩ : ∃ p, circuit.toProgram .standard = .ok p := ⟨_, rfl⟩
  have hmixed : (circuit.toProgram .standard).map (fun p => p.statements[1]?) =
      .ok (some (.gate ⟨"g", [], ["q_0"]⟩
        [.subroutineCall ⟨"prep", [], [⟨"q_0", none⟩]⟩,
          .branch ⟨.operand ⟨"c_0", none⟩, .integer 1⟩
            [.gateCall ⟨"h", [], [⟨"q_0", none⟩]⟩]])) := rfl
  have hwide : (circuit.toProgram .standard).map (fun p => p.statements[2]?) =
      .ok (some (.gate ⟨"wide", [], ["q_0"]⟩ [.measure ⟨"a_0", none⟩ [⟨"q_0", none⟩]])) := rfl
  rw [hp] at hmixed hwide
  have hin := List.mem_of_getElem? (Except.ok.inj hwide)
  refine ⟨circuit_fromFactories, p, hp, List.mem_of_getElem? (Except.ok.inj hmixed), hin, ?_⟩
  exact fun hall => hall _ _ hin _ List.mem_cons_self

end Impure
end OpenQasm
