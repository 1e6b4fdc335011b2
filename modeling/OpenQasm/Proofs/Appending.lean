import OpenQasm.Proofs.CircuitRuns

/-! The checks of an instruction accept exactly what the circuit admits. -/
namespace OpenQasm

theorem Register.contains_iff {r : Register} {b : Bit} :
    r.contains b = true ↔ b.kind = r.kind ∧ b.register = some r.name ∧ b.index < r.size := by
  simp [contains, and_assoc]

/-- An element of some of the circuit's registers is a bit that the circuit holds. -/
theorem Bit.LiesIn.holds {c : Circuit} {b : Bit} {regs : List Register} (h : b.LiesIn regs)
    (hregs : regs ⊆ c.qregs ++ c.cregs) : c.Holds b.kind b := by
  refine ⟨rfl, ?_⟩
  intro name hname
  rcases h with hphysical | ⟨r, hr, hin⟩
  · simp [isPhysical, hname] at hphysical
  · obtain ⟨hkind, hregister, hlt⟩ := Register.contains_iff.mp hin
    obtain rfl := Option.some.inj (hname.symm.trans hregister)
    exact ⟨r, hregs hr, hkind.symm, rfl, hlt⟩

namespace Circuit

instance (b : Bit) (regs : List Register) : Decidable (b.LiesIn regs) :=
  inferInstanceAs (Decidable (_ ∨ ∃ r ∈ regs, r.contains b = true))

instance (c : Circuit) : DecidablePred c.Admits := fun i =>
  decidable_of_iff
    (i.qubits.length = i.operation.qubitCount.toNat ∧
      i.clbits.length = i.operation.clbitCount.toNat ∧ i.qubits.Nodup ∧
      (∀ b ∈ i.qubits, b.kind = .quantum ∧ b.LiesIn c.qregs) ∧
      ∀ b ∈ i.clbits, b.kind = .classical ∧ b.LiesIn (c.cregs.filter (·.kind = .classical)))
    ⟨fun ⟨hq, hb, hd, hqs, hbs⟩ => ⟨hq, hb, hd, hqs, hbs⟩,
      fun h => ⟨h.qubit_count, h.clbit_count, h.distinct, h.qubits, h.clbits⟩⟩

theorem Admits.wellPlaced {c : Circuit} {i : Instruction} (h : c.Admits i) : c.WellPlaced i := by
  refine ⟨h.qubit_count, h.clbit_count, ?_, ?_⟩
  · intro b hb
    obtain ⟨hkind, hin⟩ := h.qubits b hb
    rw [← hkind]
    exact hin.holds (List.subset_append_left _ _)
  · intro b hb
    obtain ⟨hkind, hin⟩ := h.clbits b hb
    rw [← hkind]
    exact hin.holds fun r hr => List.mem_append_right _ (List.mem_of_mem_filter hr)

namespace Regular
variable {c : Circuit} (h : c.Regular)
include h

theorem register?_eq {r : Register} (hr : r ∈ c.qregs ++ c.cregs) :
    c.register? r.name = some r := by
  obtain ⟨found, hfound⟩ : ∃ found, c.register? r.name = some found := by
    rw [← Option.isSome_iff_exists, register?, List.find?_isSome]
    exact ⟨r, hr, by simp⟩
  have hname : found.name = r.name := by simpa using List.find?_some hfound
  rw [hfound, List.inj_on_of_nodup_map h.names (List.mem_of_find?_eq_some hfound) hr hname]

/-- Operands are accepted exactly if they are physical or bits of the circuit's registers. -/
theorem checkOperand_eq_ok {operation : String} {kind : BitKind} {b : Bit} :
    c.checkOperand operation kind b = .ok () ↔ c.Holds kind b := by
  refine ⟨holds_of_checkOperand, ?_⟩
  rintro ⟨hkind, hregister⟩
  unfold checkOperand
  rw [if_neg (not_not.mpr hkind)]
  cases hname : b.register with
  | none => rfl
  | some name =>
    obtain ⟨r, hr, hrk, rfl, hlt⟩ := hregister name hname
    simp [h.register?_eq hr, hrk, Register.contains, hkind, hname, hlt]

/-- The qubits seen before stand for those that the loop compares with. -/
theorem checkQubits_eq_ok {operation : String} {seen bits : List Bit} :
    c.checkQubits operation seen bits = .ok () ↔
      (∀ b ∈ bits, c.Holds .quantum b) ∧ bits.Nodup ∧ ∀ b ∈ bits, b ∉ seen := by
  refine ⟨fun hok => ⟨holds_of_checkQubits hok, nodup_of_checkQubits hok⟩, ?_⟩
  induction bits generalizing seen with
  | nil => exact fun _ => rfl
  | cons b rest ih =>
    rintro ⟨hholds, hnodup, hnew⟩
    obtain ⟨hb, hrest⟩ := List.forall_mem_cons.mp hholds
    obtain ⟨hfirst, hdistinct⟩ := List.nodup_cons.mp hnodup
    obtain ⟨hbnew, hrestnew⟩ := List.forall_mem_cons.mp hnew
    have hlater : ∀ x ∈ rest, x ∉ b :: seen := by
      intro x hx hin
      rcases List.mem_cons.mp hin with rfl | hin
      · exact hfirst hx
      · exact hrestnew x hx hin
    rw [checkQubits, h.checkOperand_eq_ok.mpr hb]
    exact (if_neg hbnew).trans (ih ⟨hrest, hdistinct, hlater⟩)

theorem checkClbits_eq_ok {operation : String} {bits : List Bit} :
    c.checkClbits operation bits = .ok () ↔ ∀ b ∈ bits, c.Holds .classical b := by
  refine ⟨holds_of_checkClbits, ?_⟩
  induction bits with
  | nil => exact fun _ => rfl
  | cons b rest ih =>
    intro hholds
    obtain ⟨hb, hrest⟩ := List.forall_mem_cons.mp hholds
    rw [checkClbits, h.checkOperand_eq_ok.mpr hb]
    exact ih hrest

theorem checkInstruction_eq_ok {i : Instruction} :
    c.checkInstruction i = .ok () ↔ c.Admits i := by
  constructor
  · intro hok
    exact h.admits (wellPlaced_of_checkInstruction hok) (nodup_of_checkInstruction hok)
  · intro hadmits
    have hplaced := hadmits.wellPlaced
    have hqubits : c.checkQubits i.operation.name [] i.qubits = .ok () :=
      h.checkQubits_eq_ok.mpr ⟨hplaced.qubits, hadmits.distinct, by simp⟩
    have hclbits : c.checkClbits i.operation.name i.clbits = .ok () :=
      h.checkClbits_eq_ok.mpr hplaced.clbits
    simp [checkInstruction, hplaced.qubit_count, hplaced.clbit_count, hqubits, hclbits]

/-- Appending adds an instruction that the circuit admits at the end, and refuses any other. -/
theorem append_eq_ok_iff {i : Instruction} {d : Circuit} :
    c.append i = .ok d ↔
      c.Admits i ∧ d = { c with instructions := c.instructions ++ [i] } := by
  rw [append_eq_ok, h.checkInstruction_eq_ok]

theorem place_eq_ok_iff {operation : Option Operation} {qubits clbits : List Bit}
    {condition : Option Condition} {d : Circuit} :
    c.place operation qubits clbits condition = .ok d ↔
      ∃ op, operation = some op ∧ c.Admits ⟨op, qubits, clbits, condition⟩ ∧
        d = { c with instructions := c.instructions ++ [⟨op, qubits, clbits, condition⟩] } := by
  cases operation with
  | none => simp [place_eq, Instruction.place, bind, Except.bind]
  | some op =>
    have hplace : c.place (some op) qubits clbits condition =
        c.append ⟨op, qubits, clbits, condition⟩ := place_eq ..
    simp [hplace, h.append_eq_ok_iff]

end Regular
end Circuit

/-- In every state that calls lead to, an operation can be placed on bits of a circuit exactly if
there is an operation and the circuit admits the instruction. The instruction is then the last of
the circuit, and nothing else of any circuit changes; otherwise nothing changes at all. -/
theorem place_succeeds_iff_admits (calls : List CircuitCall) {n : Nat} {c : Circuit}
    (hc : (afterCalls [] calls)[n]? = some c) (operation : Option Operation)
    (qubits clbits : List Bit) (condition : Option Condition) :
    let after := afterCall (afterCalls [] calls)
      (.change n (.place operation qubits clbits condition))
    ((∃ d, c.place operation qubits clbits condition = .ok d) ↔
        ∃ op, operation = some op ∧ c.Admits ⟨op, qubits, clbits, condition⟩) ∧
      (∀ d, c.place operation qubits clbits condition = .ok d →
        (∃ op, operation = some op ∧
          d = { c with instructions := c.instructions ++ [⟨op, qubits, clbits, condition⟩] }) ∧
          after = ((afterCalls [] calls).set n d, none)) ∧
      ∀ e, c.place operation qubits clbits condition = .error e →
        after = (afterCalls [] calls, some e) := by
  have hregular := (built_afterCalls (by simp) calls c (List.mem_of_getElem? hc)).regular
  intro after
  refine ⟨?_, ?_, ?_⟩
  · constructor
    · rintro ⟨d, hd⟩
      obtain ⟨op, hop, hadmits, -⟩ := hregular.place_eq_ok_iff.mp hd
      exact ⟨op, hop, hadmits⟩
    · rintro ⟨op, hop, hadmits⟩
      exact ⟨_, hregular.place_eq_ok_iff.mpr ⟨op, hop, hadmits, rfl⟩⟩
  · intro d hd
    obtain ⟨op, hop, -, rfl⟩ := hregular.place_eq_ok_iff.mp hd
    exact ⟨⟨op, hop, rfl⟩, afterCall_of_edited hc hd⟩
  · intro e he
    exact afterCall_of_failed hc he

namespace Mixed

/-- The first circuit after the calls. -/
def firstCircuit : Circuit :=
  ⟨"main", [⟨.quantum, "q", 2⟩, ⟨.quantum, "late", 1⟩],
    [⟨.classical, "c", 1⟩, ⟨.outside 7, "odd", 3⟩],
    [⟨⟨.measurement, "measure", 1, 1, [], none, none, 1⟩, [Nested.q 0],
      [⟨.classical, some "c", 0⟩], none⟩]⟩

/-- A physical bit can be measured into; a bit of the register of an odd kind cannot. -/
theorem place_after_mixed :
    (afterCalls [] calls)[0]? = some firstCircuit ∧
      (∃ d, firstCircuit.place (some Nested.readout) [Nested.q 1]
        [⟨.classical, none, 4⟩] none = .ok d) ∧
      ¬ ∃ d, firstCircuit.place (some Nested.readout) [Nested.q 1]
        [⟨.classical, some "odd", 0⟩] none = .ok d := by
  have hfirst : (afterCalls [] calls)[0]? = some firstCircuit := rfl
  have hiff (target : Bit) := (place_succeeds_iff_admits calls hfirst (some Nested.readout)
    [Nested.q 1] [target] none).1
  refine ⟨hfirst, ?_, ?_⟩
  · exact (hiff _).mpr ⟨Nested.readout, rfl, by decide⟩
  · intro hsucceeds
    obtain ⟨op, hop, hadmits⟩ := (hiff _).mp hsucceeds
    obtain rfl := Option.some.inj hop
    exact absurd hadmits (by decide)

end Mixed
end OpenQasm
