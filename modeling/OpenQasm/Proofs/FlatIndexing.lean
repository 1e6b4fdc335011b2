import OpenQasm.Proofs.Appending
import OpenQasm.Proofs.Formals

/-! The bits of a circuit in order, register after register, and their number as a word. -/
namespace OpenQasm

namespace Register

@[simp] theorem length_bits (r : Register) : r.bits.length = r.size.toNat := by
  simp [bits]

theorem getElem?_bits {r : Register} {i : UInt64} (h : i < r.size) :
    r.bits[i.toNat]? = some (r.element i) := by
  have hlt : i.toNat < r.size.toNat := UInt64.lt_iff_toNat_lt.mp h
  simp [bits, hlt]

theorem mem_bits {r : Register} {b : Bit} : b ∈ r.bits ↔ r.contains b = true := by
  rw [contains_iff, bits, List.mem_map]
  constructor
  · rintro ⟨i, hi, rfl⟩
    refine ⟨rfl, rfl, ?_⟩
    rw [UInt64.lt_iff_toNat_lt, element, toNat_ofNat_index (List.mem_range.mp hi)]
    exact List.mem_range.mp hi
  · rintro ⟨hkind, hregister, hlt⟩
    refine ⟨b.index.toNat, List.mem_range.mpr (UInt64.lt_iff_toNat_lt.mp hlt), ?_⟩
    rw [element, UInt64.ofNat_toNat, ← hkind, ← hregister]

theorem nodup_bits (r : Register) : r.bits.Nodup := by
  refine List.nodup_range.map_on ?_
  intro i hi j hj he
  have hindex := congrArg (fun b : Bit => b.index.toNat) he
  simpa [element, toNat_ofNat_index (List.mem_range.mp hi),
    toNat_ofNat_index (List.mem_range.mp hj)] using hindex

end Register

namespace Circuit

theorem length_flatMap_bits (regs : List Register) :
    (regs.flatMap Register.bits).length = sizeTotal regs := by
  induction regs with
  | nil => rfl
  | cons r rest ih => simp [sizeTotal, ih]

theorem mem_flatMap_bits {regs : List Register} {b : Bit} :
    b ∈ regs.flatMap Register.bits ↔ ∃ r ∈ regs, r.contains b = true := by
  simp [List.mem_flatMap, Register.mem_bits]

/-- Elements of registers with different names are different. -/
theorem nodup_flatMap_bits {regs : List Register} (h : (regs.map (·.name)).Nodup) :
    (regs.flatMap Register.bits).Nodup := by
  rw [List.nodup_flatMap]
  refine ⟨fun r _ => r.nodup_bits, (List.pairwise_map.mp h).imp fun {r s} hne => ?_⟩
  intro b hr hs
  obtain ⟨-, hrname, -⟩ := Register.contains_iff.mp (Register.mem_bits.mp hr)
  obtain ⟨-, hsname, -⟩ := Register.contains_iff.mp (Register.mem_bits.mp hs)
  exact hne (Option.some.inj (hrname.symm.trans hsname))

/-- The walk takes off one register after another, so what it has left of the index is the position
among the elements of the registers that remain. Nothing wraps on the way. -/
theorem bitAt?_eq_getElem? (regs : List Register) (i : UInt64) :
    bitAt? regs i = (regs.flatMap Register.bits)[i.toNat]? := by
  induction regs generalizing i with
  | nil => rfl
  | cons r rest ih =>
    rw [bitAt?, List.flatMap_cons]
    by_cases hlt : i < r.size
    · have hpos : i.toNat < r.bits.length := by
        rw [r.length_bits]
        exact UInt64.lt_iff_toNat_lt.mp hlt
      rw [if_pos hlt, List.getElem?_append_left hpos, Register.getElem?_bits hlt]
    · have hle : r.size ≤ i := UInt64.not_lt.mp hlt
      have hpos : r.bits.length ≤ i.toNat := by
        rw [r.length_bits]
        exact UInt64.le_iff_toNat_le.mp hle
      rw [if_neg hlt, List.getElem?_append_right hpos, ih, UInt64.toNat_sub_of_le _ _ hle,
        r.length_bits]

theorem bitAt?_eq_none_iff {regs : List Register} {i : UInt64} :
    bitAt? regs i = none ↔ sizeTotal regs ≤ i.toNat := by
  rw [bitAt?_eq_getElem?, List.getElem?_eq_none_iff, length_flatMap_bits]

theorem bitAt?_inj {regs : List Register} (hnames : (regs.map (·.name)).Nodup) {i j : UInt64}
    {b : Bit} (hi : bitAt? regs i = some b) (hj : bitAt? regs j = some b) : i = j := by
  rw [bitAt?_eq_getElem?] at hi hj
  obtain ⟨hlt, -⟩ := List.getElem?_eq_some_iff.mp hi
  have hpos := (List.getElem?_inj hlt (nodup_flatMap_bits hnames)).mp (hi.trans hj.symm)
  exact UInt64.toNat_inj.mp hpos

theorem exists_bitAt?_iff {regs : List Register} (hsize : sizeTotal regs < UInt64.size) {b : Bit} :
    (∃ i, bitAt? regs i = some b) ↔ ∃ r ∈ regs, r.contains b = true := by
  rw [← mem_flatMap_bits, List.mem_iff_getElem?]
  constructor
  · rintro ⟨i, hi⟩
    exact ⟨i.toNat, (bitAt?_eq_getElem? regs i).symm.trans hi⟩
  · rintro ⟨n, hn⟩
    obtain ⟨hlt, -⟩ := List.getElem?_eq_some_iff.mp hn
    rw [length_flatMap_bits] at hlt
    refine ⟨UInt64.ofNat n, ?_⟩
    rw [bitAt?_eq_getElem?, UInt64.toNat_ofNat_of_lt' (Nat.lt_trans hlt hsize), hn]

/-- Asking for a bit by its index succeeds below the count and gives each element of the registers
once. -/
structure Enumerates (bitAt : UInt64 → Except CircuitError Bit) (count : UInt64)
    (regs : List Register) : Prop where
  count_eq : count.toNat = sizeTotal regs
  succeeds_iff : ∀ i, (∃ b, bitAt i = .ok b) ↔ i < count
  one_to_one : ∀ i j b, bitAt i = .ok b → bitAt j = .ok b → i = j
  onto : ∀ b, (∃ i, bitAt i = .ok b) ↔ ∃ r ∈ regs, r.contains b = true

section
variable {bitAt : UInt64 → Except CircuitError Bit} {regs : List Register}
  (hat : ∀ i b, bitAt i = .ok b ↔ bitAt? regs i = some b)
include hat

/-- A bit is found exactly if its index is less than the number of elements. -/
theorem exists_bitAt_iff (i : UInt64) : (∃ b, bitAt i = .ok b) ↔ i.toNat < sizeTotal regs := by
  simp only [hat]
  rw [← Option.isSome_iff_exists, Option.isSome_iff_ne_none, ne_eq, bitAt?_eq_none_iff, Nat.not_le]

theorem enumerates (hnames : (regs.map (·.name)).Nodup)
    (hsize : sizeTotal regs < UInt64.size) : Enumerates bitAt (sizeSum regs) regs := by
  have hcount : (sizeSum regs).toNat = sizeTotal regs := by
    rw [toNat_sizeSum, Nat.mod_eq_of_lt hsize]
  refine ⟨hcount, ?_, ?_, ?_⟩
  · intro i
    rw [exists_bitAt_iff hat, UInt64.lt_iff_toNat_lt, hcount]
  · intro i j b hi hj
    exact bitAt?_inj hnames ((hat i b).mp hi) ((hat j b).mp hj)
  · intro b
    simp only [hat, exists_bitAt?_iff hsize]

end

theorem qubit_eq_ok {c : Circuit} {i : UInt64} {b : Bit} :
    c.qubit i = .ok b ↔ bitAt? c.qregs i = some b := by
  unfold qubit
  cases bitAt? c.qregs i <;> simp

theorem clbit_eq_ok {c : Circuit} {i : UInt64} {b : Bit} :
    c.clbit i = .ok b ↔ bitAt? c.cregs i = some b := by
  unfold clbit
  cases bitAt? c.cregs i <;> simp

/-- The qubits by their indices, one after another. -/
def numberedQubits (c : Circuit) : Except CircuitError (List Bit) :=
  (List.range c.qubitTotal).mapM fun i => c.qubit (UInt64.ofNat i)

theorem numberedQubits_eq {c : Circuit} (hsize : c.qubitTotal < UInt64.size) :
    c.numberedQubits = .ok c.allQubits := by
  have hlength : c.allQubits.length = c.qubitTotal := length_flatMap_bits c.qregs
  refine mapM_eq_ok.mpr (List.forall₂_iff_get.mpr ⟨by simp [hlength], ?_⟩)
  intro n hrange hn
  have hlt : n < UInt64.size := by omega
  rw [List.get_eq_getElem, List.getElem_range, qubit_eq_ok, bitAt?_eq_getElem?,
    UInt64.toNat_ofNat_of_lt' hlt]
  exact List.getElem?_eq_getElem hn

/-- The formal qubits are what the qubits are called in a body. -/
theorem operands_allQubits (c : Circuit) :
    operands c.allQubits .flat = .ok (c.qubitFormals.map (⟨·, none⟩)) := by
  rw [operands_eq_ok, qubitFormals_eq, List.map_map, List.forall₂_map_right_iff,
    List.forall₂_same]
  intro b hb
  obtain ⟨r, -, hin⟩ := mem_flatMap_bits.mp hb
  obtain ⟨-, hregister, -⟩ := Register.contains_iff.mp hin
  simp [Bit.operand, Bit.flatName, hregister]

namespace Regular
variable {c : Circuit} (h : c.Regular)
include h

theorem nodup_allQubits : c.allQubits.Nodup := by
  have hnames := h.names
  rw [List.map_append] at hnames
  exact nodup_flatMap_bits hnames.of_append_left

theorem barrierAll_eq_ok (hsize : c.qubitTotal < UInt64.size) (hpos : 0 < c.qubitTotal)
    (id : OperationId) :
    ∃ op, Operation.barrier id c.qubitCount = .ok op ∧
      c.barrierAll id =
        .ok { c with instructions := c.instructions ++ [⟨op, c.allQubits, [], none⟩] } := by
  have hlength : c.allQubits.length = c.qubitTotal := length_flatMap_bits c.qregs
  have hcount : c.qubitCount.toNat = c.qubitTotal := qubitCount_toNat hsize
  have hwidth : UInt64.ofNat c.allQubits.length = c.qubitCount := by
    rw [hlength, ← hcount, UInt64.ofNat_toNat]
  have hne : c.qubitCount ≠ 0 := by
    intro hzero
    rw [hzero, UInt64.toNat_zero] at hcount
    omega
  let op : Operation :=
    { kind := .barrier, name := "barrier", qubitCount := c.qubitCount, clbitCount := 0,
      params := [], body := none, standard := none, id }
  have hop : Operation.barrier id c.qubitCount = .ok op := if_neg hne
  have hadmits : c.Admits ⟨op, c.allQubits, [], none⟩ := by
    refine ⟨hlength.trans hcount.symm, rfl, h.nodup_allQubits, ?_, by simp⟩
    intro b hb
    obtain ⟨r, hr, hin⟩ := mem_flatMap_bits.mp hb
    obtain ⟨hkind, -, -⟩ := Register.contains_iff.mp hin
    exact ⟨hkind.trans (h.quantum r hr), .inr ⟨r, hr, hin⟩⟩
  refine ⟨op, hop, ?_⟩
  rw [barrierAll, Edit.barrierAll, edited_get_bind, Edit.barrier, edited_ofExcept_bind, hwidth, hop]
  exact h.place_eq_ok_iff.mpr ⟨op, rfl, hadmits, rfl⟩

end Regular
end Circuit

theorem Definition.qubits_of_lower {d : Definition} {s : Scope} {fold : Bool} {g : ProgramItem}
    {body : Circuit} (hform : d.form = .gate body ∨ d.form = .subroutine body)
    (h : d.lower s fold = .ok g) : ∃ b, g.block? = some b ∧ b.qubits = body.qubitFormals := by
  obtain ⟨other, sts, hf, -, rfl⟩ | ⟨other, sts, hf, -, rfl⟩ | ⟨hf, -⟩ := lower_eq_ok h
  · obtain rfl : other = body := by simpa [hf] using hform
    exact ⟨_, rfl, rfl⟩
  · obtain rfl : other = body := by simpa [hf] using hform
    exact ⟨_, rfl, by simp [Function.comp_def]⟩
  · simp [hf] at hform

/-- However a circuit came about, if its qubits can be counted by a word, then the indices below
the count give each of them once, and the order of the indices is that of a barrier over all qubits
and of the formal qubits of a definition with the circuit as body. Classical bits are numbered in
the same way. -/
theorem enumerations_agree (calls : List CircuitCall) {c : Circuit}
    (hc : c ∈ afterCalls [] calls) :
    (c.qubitTotal < UInt64.size →
      Circuit.Enumerates c.qubit c.qubitCount c.qregs ∧
      ∃ qs, c.numberedQubits = .ok qs ∧
        (0 < c.qubitTotal → ∀ id, ∃ op, Operation.barrier id c.qubitCount = .ok op ∧
          c.barrierAll id =
            .ok { c with instructions := c.instructions ++ [⟨op, qs, [], none⟩] }) ∧
        ∀ (d : Definition) (s : Scope) (fold : Bool) (g : ProgramItem),
          d.form = .gate c ∨ d.form = .subroutine c → d.lower s fold = .ok g →
          ∃ b, g.block? = some b ∧ b.qubits = qs.map Bit.flatName ∧
            operands qs .flat = .ok (b.qubits.map (⟨·, none⟩))) ∧
    (Circuit.sizeTotal c.cregs < UInt64.size →
      Circuit.Enumerates c.clbit c.clbitCount c.cregs) := by
  have hregular := (built_afterCalls (by simp) calls c hc).regular
  have hnames := hregular.names
  rw [List.map_append] at hnames
  constructor
  · intro hsize
    refine ⟨Circuit.enumerates (fun i b => Circuit.qubit_eq_ok) hnames.of_append_left hsize,
      c.allQubits, Circuit.numberedQubits_eq hsize, ?_, ?_⟩
    · intro hpos id
      exact hregular.barrierAll_eq_ok hsize hpos id
    · intro d s fold g hform hlower
      obtain ⟨b, hb, hqubits⟩ := Definition.qubits_of_lower hform hlower
      refine ⟨b, hb, hqubits.trans c.qubitFormals_eq, ?_⟩
      rw [hqubits]
      exact c.operands_allQubits
  · intro hsize
    exact Circuit.enumerates (fun i b => Circuit.clbit_eq_ok) hnames.of_append_right hsize

namespace Staggered

/-- A circuit with two quantum registers, and a copy of it with two more, one of them empty. -/
def calls : List CircuitCall :=
  [.create "layout", .change 0 (.declare ⟨.quantum, "a", 2⟩),
    .change 0 (.declare ⟨.classical, "c", 1⟩), .change 0 (.declare ⟨.quantum, "b", 1⟩),
    .clone 0, .change 1 (.declare ⟨.quantum, "none", 0⟩),
    .change 1 (.declare ⟨.quantum, "d", 1⟩)]

def layout : Circuit :=
  ⟨"layout", [⟨.quantum, "a", 2⟩, ⟨.quantum, "b", 1⟩], [⟨.classical, "c", 1⟩], []⟩

def wider : Circuit :=
  { layout with qregs := layout.qregs ++ [⟨.quantum, "none", 0⟩, ⟨.quantum, "d", 1⟩] }

def definition : Definition :=
  ⟨⟨.subroutine, "layout", 3, 1, [], some layout, none, 0⟩, .subroutine layout, "layout"⟩

theorem layout_enumerated :
    afterCalls [] calls = [layout, wider] ∧ layout.qubitTotal = 3 ∧ wider.qubitTotal = 4 ∧
      Circuit.Enumerates wider.qubit 4 wider.qregs ∧
      Circuit.Enumerates layout.clbit 1 layout.cregs ∧
      ∃ qs, layout.numberedQubits = .ok qs ∧
        (∃ d, layout.barrierAll 0 = .ok d ∧ d.instructions.map (·.qubits) = [qs]) ∧
        ∃ g b, definition.lower (Scope.ofIncludes []) true = .ok g ∧ g.block? = some b ∧
          b.qubits = ["a_0", "a_1", "b_0"] ∧ b.qubits = qs.map Bit.flatName := by
  have hcalls : afterCalls [] calls = [layout, wider] := rfl
  have hlayout := enumerations_agree calls (show layout ∈ _ by simp [hcalls])
  have hwider := enumerations_agree calls (show wider ∈ _ by simp [hcalls])
  obtain ⟨-, qs, hqs, hbarrier, hformals⟩ := hlayout.1 (by decide)
  obtain ⟨op, -, hd⟩ := hbarrier (by decide) 0
  obtain ⟨g, hg⟩ : ∃ g, definition.lower (Scope.ofIncludes []) true = .ok g := ⟨_, rfl⟩
  obtain ⟨b, hb, hqubits, -⟩ := hformals definition _ _ g (.inr rfl) hg
  refine ⟨hcalls, rfl, rfl, (hwider.1 (by decide)).1, hlayout.2 (by decide), qs, hqs,
    ⟨_, hd, rfl⟩, g, b, hg, hb, ?_, hqubits⟩
  obtain rfl := Except.ok.inj hg
  obtain rfl := Option.some.inj hb
  rfl

end Staggered

namespace Circuit

theorem sizeTotal_eq_zero_iff {regs : List Register} :
    sizeTotal regs = 0 ↔ ∀ r ∈ regs, r.size = 0 := by
  induction regs with
  | nil => simp [sizeTotal]
  | cons r rest ih =>
    rw [sizeTotal, Nat.add_eq_zero_iff, ih, List.forall_mem_cons, ← UInt64.toNat_inj,
      UInt64.toNat_zero]

theorem sizeSum_eq_zero_iff {regs : List Register} :
    sizeSum regs = 0 ↔ UInt64.size ∣ sizeTotal regs := by
  rw [← UInt64.toNat_inj, toNat_sizeSum, UInt64.toNat_zero, Nat.dvd_iff_mod_eq_zero]

/-- The sum stands for the total in all comparisons exactly if it is not reduced. -/
theorem sizeSum_le_iff_forall {regs : List Register} :
    (∀ i : UInt64, sizeTotal regs ≤ i.toNat ↔ sizeSum regs ≤ i) ↔
      sizeTotal regs < UInt64.size := by
  simp only [UInt64.le_iff_toNat_le, toNat_sizeSum]
  constructor
  · intro h
    -- the sum itself is an index, and one that a reduced sum puts too low
    have htotal := (h (sizeSum regs)).mpr (Nat.le_of_eq (toNat_sizeSum regs).symm)
    rw [toNat_sizeSum] at htotal
    exact Nat.lt_of_le_of_lt htotal (Nat.mod_lt _ (by decide))
  · intro hsize i
    rw [Nat.mod_eq_of_lt hsize]

/-- The bit asked for does not exist. -/
def OutOfRange (result : Except CircuitError Bit) : Prop :=
  ∃ e, result = .error e ∧ e.isRange = true

theorem outOfRange_qubit_iff {c : Circuit} {i : UInt64} :
    OutOfRange (c.qubit i) ↔ c.qubitTotal ≤ i.toNat := by
  rw [qubitTotal, ← bitAt?_eq_none_iff, qubit]
  cases bitAt? c.qregs i <;> simp [OutOfRange, CircuitError.isRange]

theorem outOfRange_clbit_iff {c : Circuit} {i : UInt64} :
    OutOfRange (c.clbit i) ↔ sizeTotal c.cregs ≤ i.toNat := by
  rw [← bitAt?_eq_none_iff, clbit]
  cases bitAt? c.cregs i <;> simp [OutOfRange, CircuitError.isRange]

/-- A circuit with classical bits is refused as a gate, unless their number is a multiple of the
size of a word. -/
theorem asGate_refused_iff {c : Circuit} :
    (∀ id arguments, c.asGate id arguments = .error (.classicalBitsInGate c.name)) ↔
      ¬ UInt64.size ∣ sizeTotal c.cregs := by
  rw [← sizeSum_eq_zero_iff]
  constructor
  · intro hrefused hzero
    have haccepted : c.asGate 0 none = c.asOperation 0 .gate none := if_pos hzero
    have hnone := haccepted.symm.trans (hrefused 0 none)
    simp [asOperation] at hnone
  · intro hne id arguments
    exact if_neg hne

end Circuit

/-- When the sizes of registers are checked soundly, for every circuit. Bits are found by indices
up to the number of bits, whatever that is. Comparing the index with the counted number gives the
same exactly if the sizes sum to less than the size of a word, and a circuit with classical bits is
refused as a gate unless the sum of their sizes is reduced to zero. -/
theorem size_checks_sound_iff (c : Circuit) :
    (((∃ r ∈ c.cregs, r.size ≠ 0) →
        ∀ id arguments, c.asGate id arguments = .error (.classicalBitsInGate c.name)) ↔
      (UInt64.size ∣ Circuit.sizeTotal c.cregs → Circuit.sizeTotal c.cregs = 0)) ∧
    ((∀ i, Circuit.OutOfRange (c.qubit i) ↔ c.qubitCount ≤ i) ↔ c.qubitTotal < UInt64.size) ∧
    ((∀ i, Circuit.OutOfRange (c.clbit i) ↔ c.clbitCount ≤ i) ↔
      Circuit.sizeTotal c.cregs < UInt64.size) ∧
    (∀ i, Circuit.OutOfRange (c.qubit i) ↔ c.qubitTotal ≤ i.toNat) ∧
    ∀ i, Circuit.OutOfRange (c.clbit i) ↔ Circuit.sizeTotal c.cregs ≤ i.toNat := by
  refine ⟨?_, ?_, ?_, fun i => Circuit.outOfRange_qubit_iff, fun i => Circuit.outOfRange_clbit_iff⟩
  · have hbits : (∃ r ∈ c.cregs, r.size ≠ 0) ↔ Circuit.sizeTotal c.cregs ≠ 0 := by
      rw [ne_eq, Circuit.sizeTotal_eq_zero_iff]
      push Not
      rfl
    rw [hbits, Circuit.asGate_refused_iff, ← not_imp_not, not_not, not_not]
  · simp only [Circuit.outOfRange_qubit_iff]
    exact Circuit.sizeSum_le_iff_forall
  · simp only [Circuit.outOfRange_clbit_iff]
    exact Circuit.sizeSum_le_iff_forall

namespace Wrapping

/-- Two registers of each kind whose sizes sum to the size of a word. -/
def calls : List CircuitCall :=
  [.create "main", .change 0 (.declare ⟨.quantum, "a", 9223372036854775808⟩),
    .change 0 (.declare ⟨.quantum, "b", 9223372036854775808⟩),
    .change 0 (.declare ⟨.classical, "c", 9223372036854775808⟩),
    .change 0 (.declare ⟨.classical, "d", 9223372036854775808⟩)]

def wide : Circuit :=
  ⟨"main", [⟨.quantum, "a", 9223372036854775808⟩, ⟨.quantum, "b", 9223372036854775808⟩],
    [⟨.classical, "c", 9223372036854775808⟩, ⟨.classical, "d", 9223372036854775808⟩], []⟩

/-- By its counts the circuit has no qubits and no classical bits. Still the first of each is
found, and the circuit becomes a gate. -/
theorem counts_wrap :
    afterCalls [] calls = [wide] ∧
      (∃ r ∈ wide.cregs, r.size ≠ 0) ∧ (∃ op, wide.asGate 0 none = .ok op) ∧
      wide.qubitCount ≤ 0 ∧ ¬ Circuit.OutOfRange (wide.qubit 0) ∧
      wide.clbitCount ≤ 0 ∧ ¬ Circuit.OutOfRange (wide.clbit 0) := by
  refine ⟨rfl, ⟨_, List.mem_cons_self, by decide⟩, ⟨_, rfl⟩, by decide, ?_, by decide, ?_⟩
  · rw [Circuit.outOfRange_qubit_iff]
    decide
  · rw [Circuit.outOfRange_clbit_iff]
    decide

end Wrapping
end OpenQasm
