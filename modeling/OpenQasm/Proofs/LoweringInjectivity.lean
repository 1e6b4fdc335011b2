import OpenQasm.Proofs.Scoping

/-! Instructions of a circuit that become the same statement say the same. -/
namespace OpenQasm

/-- The storage that a condition tests, a register being known by its name. -/
def ConditionTarget.storage : ConditionTarget → String ⊕ Bit
  | .register r => .inl r.name
  | .bit b => .inr b

def Condition.tested (cond : Condition) : (String ⊕ Bit) × Int := (cond.target.storage, cond.value)

/-- The instructions are of one kind and act on the same qubits, calls with the same callee and
parameters and measurements with the same target. Their conditions do not count. -/
structure Instruction.ActsLike (s : Scope) (i j : Instruction) : Prop where
  kind : i.operation.kind = j.operation.kind
  callee : i.operation.IsCalled →
    ∃ name, s.resolve i.operation = .ok name ∧ s.resolve j.operation = .ok name
  params : i.operation.IsCalled → i.operation.params = j.operation.params
  qubits : i.qubits = j.qubits
  clbits : i.operation.kind = .measurement → i.clbits = j.clbits

namespace Instruction
variable {s : Scope} {i j : Instruction} (hkind : i.operation.kind = j.operation.kind)
include hkind

theorem actsLike_iff_of_called (hcalled : i.operation.IsCalled) :
    i.ActsLike s j ↔
      (∃ name, s.resolve i.operation = .ok name ∧ s.resolve j.operation = .ok name) ∧
        i.operation.params = j.operation.params ∧ i.qubits = j.qubits := by
  constructor
  · intro h
    exact ⟨h.callee hcalled, h.params hcalled, h.qubits⟩
  · rintro ⟨hcallee, hparams, hqubits⟩
    refine ⟨hkind, fun _ => hcallee, fun _ => hparams, hqubits, ?_⟩
    intro hmeasured
    simp [Operation.IsCalled, hmeasured] at hcalled

theorem actsLike_iff_of_barrier (hbarrier : i.operation.kind = .barrier) :
    i.ActsLike s j ↔ i.qubits = j.qubits := by
  constructor
  · exact fun h => h.qubits
  · intro hqubits
    refine ⟨hkind, ?_, ?_, hqubits, ?_⟩ <;> simp [Operation.IsCalled, hbarrier]

theorem actsLike_iff_of_measurement (hmeasured : i.operation.kind = .measurement) :
    i.ActsLike s j ↔ i.clbits = j.clbits ∧ i.qubits = j.qubits := by
  constructor
  · exact fun h => ⟨h.clbits hmeasured, h.qubits⟩
  · rintro ⟨hclbits, hqubits⟩
    refine ⟨hkind, ?_, ?_, hqubits, fun _ => hclbits⟩ <;> simp [Operation.IsCalled, hmeasured]

end Instruction

attribute [ext] Bit

namespace Bit
variable {a b : Bit}

theorem eq_of_reference_eq (hkind : a.kind = b.kind) (h : a.reference = b.reference) : a = b := by
  unfold reference at h
  cases ha : a.register with
  | some name =>
    cases hb : b.register with
    | some other =>
      rw [ha, hb] at h
      obtain ⟨hname, hindex⟩ := Operand.mk.inj h
      exact Bit.ext hkind (by rw [ha, hb, hname]) (Option.some.inj hindex)
    | none => simp [ha, hb] at h
  | none =>
    cases hb : b.register with
    | some other => simp [ha, hb] at h
    | none =>
      rw [ha, hb] at h
      have htext : "$" ++ toString a.index.toNat = "$" ++ toString b.index.toNat := by
        simpa [ha, hb] using (Operand.mk.inj h).1
      have hindex := Nat.repr_injective ((String.append_right_inj "$").mp htext)
      exact Bit.ext hkind (by rw [ha, hb]) (UInt64.toNat_inj.mp hindex)

/-- Bits of one kind have the same operand exactly if they are the same, whichever way bits are
named. -/
theorem operand_eq_iff (hkind : a.kind = b.kind) {naming : Naming} {o other : Operand}
    (ha : a.operand naming = .ok o) (hb : b.operand naming = .ok other) : o = other ↔ a = b := by
  constructor
  · rintro rfl
    cases naming with
    | indexed =>
      exact eq_of_reference_eq hkind ((operand_indexed ha).symm.trans (operand_indexed hb))
    | flat =>
      obtain ⟨r, hr, rfl⟩ := operand_flat ha
      obtain ⟨t, ht, hname⟩ := operand_flat hb
      -- the last underscore of the name is the one that joins register and index
      obtain ⟨hregister, hindex⟩ := formalName_inj (Operand.mk.inj hname).1
      rw [hr, ht, Option.getD_some, Option.getD_some] at hregister
      exact Bit.ext hkind (by rw [hr, ht, hregister]) (UInt64.toNat_inj.mp hindex)
  · rintro rfl
    exact Except.ok.inj (ha.symm.trans hb)

end Bit

/-- Lists of bits of one kind have the same operands exactly if they are the same. -/
theorem operands_eq_iff {kind : BitKind} {naming : Naming} {xs ys : List Bit}
    {os others : List Operand} (hxs : ∀ b ∈ xs, b.kind = kind) (hys : ∀ b ∈ ys, b.kind = kind)
    (hx : List.Forall₂ (fun b o => b.operand naming = .ok o) xs os)
    (hy : List.Forall₂ (fun b o => b.operand naming = .ok o) ys others) :
    os = others ↔ xs = ys := by
  induction hx generalizing ys others with
  | nil =>
    cases hy with
    | nil => simp
    | cons _ _ => simp
  | @cons x o xs os ho _ ih =>
    cases hy with
    | nil => simp
    | @cons y o' ys others ho' hrest =>
      have hkind : x.kind = y.kind := by rw [hxs x List.mem_cons_self, hys y List.mem_cons_self]
      have htail := ih (fun b hb => hxs b (List.mem_cons_of_mem x hb))
        (fun b hb => hys b (List.mem_cons_of_mem y hb)) hrest
      rw [List.cons.injEq, List.cons.injEq, htail, Bit.operand_eq_iff hkind ho ho']

theorem Parameter.expression_injective (fold : Bool) :
    Function.Injective (Parameter.expression fold) := by
  intro p q h
  cases p with
  | value x =>
    cases q with
    | value y => rw [(Expression.real.inj h).1]
    | symbol name => cases h
  | symbol name =>
    cases q with
    | value y => cases h
    | symbol other => rw [Expression.identifier.inj h]

/-- Tests are equal exactly if they test the same. A register and a bit make different tests, even
where the bit is named without an index. -/
theorem Condition.equality_eq_iff {x y : Condition} {c : Circuit} {naming : Naming}
    {test other : Equality} (hx : x.equality c naming = .ok test)
    (hy : y.equality c naming = .ok other) : test = other ↔ x.tested = y.tested := by
  obtain ⟨-, ⟨r, _, hr, -, -, rfl⟩ | ⟨a, o, ha, hkind, ho, rfl⟩⟩ := equality_eq_ok hx
  · obtain ⟨-, ⟨t, _, ht, -, -, rfl⟩ | ⟨b, o, hb, -, -, rfl⟩⟩ := equality_eq_ok hy
    · simp [tested, ConditionTarget.storage, hr, ht]
    · simp [tested, ConditionTarget.storage, hr, hb]
  · obtain ⟨-, ⟨t, _, ht, -, -, rfl⟩ | ⟨b, o', hb, hkind', ho', rfl⟩⟩ := equality_eq_ok hy
    · simp [tested, ConditionTarget.storage, ha, ht]
    · have hbits := Bit.operand_eq_iff (hkind.trans hkind'.symm) ho ho'
      simp [tested, ConditionTarget.storage, ha, hb, hbits]

/-- A statement tells the kind of an operation, the callee and the parameters of a call, and the
bits of a measurement. -/
theorem Lowered.eq_iff_actsLike {c : Circuit} {s : Scope} {fold : Bool} {naming : Naming}
    {i j : Instruction} {st other : Statement}
    (hi : Lowered s fold naming i.operation i.qubits i.clbits st)
    (hj : Lowered s fold naming j.operation j.qubits j.clbits other) (hci : c.WellPlaced i)
    (hcj : c.WellPlaced j) : st = other ↔ i.ActsLike s j := by
  have hqubits {os others : List Operand}
      (hos : List.Forall₂ (fun b o => b.operand naming = .ok o) i.qubits os)
      (hothers : List.Forall₂ (fun b o => b.operand naming = .ok o) j.qubits others) :
      os = others ↔ i.qubits = j.qubits :=
    operands_eq_iff (fun b hb => (hci.qubits b hb).1) (fun b hb => (hcj.qubits b hb).1) hos hothers
  have hcall {name name' : String} {os others : List Operand} (hcalled : i.operation.IsCalled)
      (hkind : i.operation.kind = j.operation.kind) (hname : s.name? i.operation = some name)
      (hname' : s.name? j.operation = some name')
      (hos : List.Forall₂ (fun b o => b.operand naming = .ok o) i.qubits os)
      (hothers : List.Forall₂ (fun b o => b.operand naming = .ok o) j.qubits others) :
      Call.mk name (i.operation.params.map (Parameter.expression fold)) os =
          ⟨name', j.operation.params.map (Parameter.expression fold), others⟩ ↔
        i.ActsLike s j := by
    rw [Call.mk.injEq, (Parameter.expression_injective fold).list_map.eq_iff,
      hqubits hos hothers, Instruction.actsLike_iff_of_called hkind hcalled]
    simp [Scope.resolve_eq_ok, hname, hname', eq_comm (a := name)]
  have hdiffer {st other : Statement} (hst : st ≠ other)
      (hkind : i.operation.kind ≠ j.operation.kind) : st = other ↔ i.ActsLike s j :=
    iff_of_false hst fun h => hkind h.kind
  generalize hqs : i.qubits = qubits, hbs : i.clbits = clbits at hi
  generalize hqs' : j.qubits = qubits', hbs' : j.clbits = clbits' at hj
  cases hi with
  | gate hk hname hos =>
    cases hj with
    | gate hk' hname' hos' =>
      rw [Statement.gateCall.injEq]
      exact hcall (.inl hk) (hk.trans hk'.symm) hname hname' (hqs ▸ hos) (hqs' ▸ hos')
    | subroutine hk' _ _ | barrier hk' _ | measurement hk' _ _ =>
      exact hdiffer nofun (by rw [hk, hk']; decide)
  | subroutine hk hname hos =>
    cases hj with
    | subroutine hk' hname' hos' =>
      rw [Statement.subroutineCall.injEq]
      exact hcall (.inr hk) (hk.trans hk'.symm) hname hname' (hqs ▸ hos) (hqs' ▸ hos')
    | gate hk' _ _ | barrier hk' _ | measurement hk' _ _ =>
      exact hdiffer nofun (by rw [hk, hk']; decide)
  | barrier hk hos =>
    cases hj with
    | barrier hk' hos' =>
      rw [Statement.barrier.injEq, hqubits (hqs ▸ hos) (hqs' ▸ hos'),
        Instruction.actsLike_iff_of_barrier (hk.trans hk'.symm) hk]
    | gate hk' _ _ | subroutine hk' _ _ | measurement hk' _ _ =>
      exact hdiffer nofun (by rw [hk, hk']; decide)
  | @measurement q b target o hk ht ho =>
    cases hj with
    | @measurement q' b' target' o' hk' ht' ho' =>
      have hkind : b.kind = b'.kind := by
        rw [(hci.clbits b (by simp [hbs])).1, (hcj.clbits b' (by simp [hbs'])).1]
      rw [Statement.measure.injEq, Bit.operand_eq_iff hkind ht ht',
        hqubits (hqs ▸ .cons ho .nil) (hqs' ▸ .cons ho' .nil),
        Instruction.actsLike_iff_of_measurement (hk.trans hk'.symm) hk]
      simp [hbs, hbs']
    | gate hk' _ _ | subroutine hk' _ _ | barrier hk' _ =>
      exact hdiffer nofun (by rw [hk, hk']; decide)

theorem Lowered.ne_branch {s : Scope} {fold : Bool} {naming : Naming} {op : Operation}
    {qubits clbits : List Bit} {st : Statement} (h : Lowered s fold naming op qubits clbits st)
    (test : Equality) (body : List Statement) : st ≠ .branch test body := by
  cases h <;> nofun

/-- Two instructions of a circuit become the same statement exactly if they act alike and are both
without a condition or test the same storage for the same value. -/
theorem statements_tell_instructions_apart {c : Circuit} (hc : c.Built fun _ => True)
    {i j : Instruction} (hi : i ∈ c.instructions) (hj : j ∈ c.instructions) {s : Scope}
    {fold : Bool} {naming : Naming} {st other : Statement}
    (hst : i.lower c s fold naming = .ok st) (hother : j.lower c s fold naming = .ok other) :
    st = other ↔
      i.ActsLike s j ∧ i.condition.map Condition.tested = j.condition.map Condition.tested := by
  have hci := hc.regular.placed i hi
  have hcj := hc.regular.placed j hj
  obtain ⟨hnone, hlow⟩ | ⟨cond, test, body, hcond, htest, hlow, rfl⟩ :=
    Instruction.lower_eq_ok hst
  · obtain ⟨hnone', hlow'⟩ | ⟨cond', test', body', hcond', -, -, rfl⟩ :=
      Instruction.lower_eq_ok hother
    · rw [hlow.eq_iff_actsLike hlow' hci hcj]
      simp [hnone, hnone']
    · exact iff_of_false (hlow.ne_branch _ _) (by simp [hnone, hcond'])
  · obtain ⟨hnone', hlow'⟩ | ⟨cond', test', body', hcond', htest', hlow', rfl⟩ :=
      Instruction.lower_eq_ok hother
    · exact iff_of_false (hlow'.ne_branch _ _).symm (by simp [hcond, hnone'])
    · rw [Statement.branch.injEq, List.cons.injEq, hlow.eq_iff_actsLike hlow' hci hcj,
        Condition.equality_eq_iff htest htest', hcond, hcond']
      simp [and_comm]

namespace Lookalikes

def flip (id : OperationId) (qubit : Bit) (condition : Option Condition) : Instruction :=
  ⟨⟨.gate, "x", 1, 0, [], none, some .x, id⟩, [qubit], [], condition⟩

/-- In a body the qubit is `a_10`. -/
def tenth : Instruction := flip 0 ⟨.quantum, some "a", 10⟩ none

/-- In a body the qubit is `a_1_0`. -/
def zeroth : Instruction := flip 1 ⟨.quantum, some "a_1", 0⟩ none

/-- In a body the bit is `c_0`. -/
def onBit : Instruction :=
  flip 2 ⟨.quantum, some "a", 10⟩ (some ⟨.bit ⟨.classical, some "c", 0⟩, .equal, 1⟩)

def onRegister (id : OperationId) (size : UInt64) : Instruction :=
  flip id ⟨.quantum, some "a", 10⟩ (some ⟨.register ⟨.classical, "c_0", size⟩, .equal, 1⟩)

def circuit : Circuit :=
  ⟨"main", [⟨.quantum, "a", 11⟩, ⟨.quantum, "a_1", 1⟩],
    [⟨.classical, "c", 1⟩, ⟨.classical, "c_0", 1⟩],
    [tenth, zeroth, onBit, onRegister 3 1, onRegister 4 7]⟩

theorem circuit_built : circuit.Built fun _ => True :=
  (((((((((Circuit.Built.empty "main").declare (r := ⟨.quantum, "a", 11⟩) rfl).declare
    (r := ⟨.quantum, "a_1", 1⟩) rfl).declare (r := ⟨.classical, "c", 1⟩) rfl).declare
    (r := ⟨.classical, "c_0", 1⟩) rfl).append (i := tenth) trivial rfl).append
    (i := zeroth) trivial rfl).append (i := onBit) trivial rfl).append
    (i := onRegister 3 1) trivial rfl).append (i := onRegister 4 7) trivial rfl

/-- The two qubits are told apart, and so are the bit and the register of its name. The last two
instructions place different operations and test registers of different sizes, which does not
show. -/
theorem flips_told_apart :
    ∃ long short bit register again,
      circuit.lowered (.ofIncludes [standardInclude]) true .flat =
        .ok [long, short, bit, register, again] ∧
      long ≠ short ∧ bit ≠ register ∧ register = again := by
  have happly {i j : Instruction} {st other : Statement}
      (hst : i.lower circuit (.ofIncludes [standardInclude]) true .flat = .ok st)
      (hother : j.lower circuit (.ofIncludes [standardInclude]) true .flat = .ok other)
      (hi : i ∈ circuit.instructions) (hj : j ∈ circuit.instructions) :=
    statements_tell_instructions_apart circuit_built hi hj hst hother
  refine ⟨_, _, _, _, _, rfl, ?_, ?_, ?_⟩
  · intro h
    have hlike := (happly (i := tenth) (j := zeroth) rfl rfl (by simp [circuit])
      (by simp [circuit])).mp h
    exact absurd hlike.1.qubits (by decide)
  · intro h
    have hlike := (happly (i := onBit) (j := onRegister 3 1) rfl rfl (by simp [circuit])
      (by simp [circuit])).mp h
    exact absurd hlike.2 (by decide)
  · refine (happly (i := onRegister 3 1) (j := onRegister 4 7) rfl rfl (by simp [circuit])
      (by simp [circuit])).mpr ⟨⟨rfl, ?_, ?_, rfl, ?_⟩, rfl⟩
    · exact fun _ => ⟨"x", rfl, rfl⟩
    · exact fun _ => rfl
    · exact fun _ => rfl

end Lookalikes
end OpenQasm
