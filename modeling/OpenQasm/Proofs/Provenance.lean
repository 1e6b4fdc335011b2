import Mathlib.Data.List.Basic
import Mathlib.Data.List.Nodup
import OpenQasm.Circuit.Construction
import OpenQasm.Proofs.Nesting

/-! Circuits built step by step, and operations from the factories with their history. -/
namespace OpenQasm

/-- Circuits that are built step by step and place allowed operations only. -/
inductive Circuit.Built (allowed : Operation → Prop) : Circuit → Prop
  | empty (name : String) : Built allowed (.empty name)
  | ofSizes (name : String) (qubitCount clbitCount : UInt64) :
      Built allowed (.ofSizes name qubitCount clbitCount)
  | declare {c d : Circuit} {r : Register} (hc : Built allowed c) (hd : c.declare r = .ok d) :
      Built allowed d
  | append {c d : Circuit} {i : Instruction} (hc : Built allowed c)
      (hi : allowed i.operation) (hd : c.append i = .ok d) : Built allowed d

namespace Circuit

/-- A bit of the given kind that is physical or lies in a register of that kind. -/
def Holds (c : Circuit) (kind : BitKind) (b : Bit) : Prop :=
  b.kind = kind ∧ ∀ name, b.register = some name →
    ∃ r ∈ c.qregs ++ c.cregs, r.kind = kind ∧ r.name = name ∧ b.index < r.size

structure WellPlaced (c : Circuit) (i : Instruction) : Prop where
  qubit_count : i.qubits.length = i.operation.qubitCount.toNat
  clbit_count : i.clbits.length = i.operation.clbitCount.toNat
  qubits : ∀ b ∈ i.qubits, c.Holds .quantum b
  clbits : ∀ b ∈ i.clbits, c.Holds .classical b

/-- Registers have different names and are kept by kind, and instructions are well placed. -/
structure Regular (c : Circuit) : Prop where
  names : ((c.qregs ++ c.cregs).map (·.name)).Nodup
  quantum : ∀ r ∈ c.qregs, r.kind = .quantum
  classical : ∀ r ∈ c.cregs, r.kind ≠ .quantum
  placed : ∀ i ∈ c.instructions, c.WellPlaced i

theorem holds_of_checkOperand {c : Circuit} {operation : String} {kind : BitKind} {b : Bit}
    (h : c.checkOperand operation kind b = .ok ()) : c.Holds kind b := by
  unfold checkOperand at h
  split at h
  · simp at h
  rename_i hkind
  refine ⟨not_not.mp hkind, ?_⟩
  intro name hname
  rw [hname] at h
  dsimp only at h
  cases hr : c.register? name with
  | none => simp [hr] at h
  | some r =>
    rw [hr] at h
    dsimp only at h
    split at h
    · simp at h
    rename_i hrk
    split at h
    · rename_i hin
      simp only [Register.contains, Bool.and_eq_true, beq_iff_eq, decide_eq_true_eq] at hin
      have hregister := hin.1.2
      rw [hname] at hregister
      exact ⟨r, List.mem_of_find?_eq_some hr, not_not.mp hrk,
        (Option.some.inj hregister).symm, hin.2⟩
    · simp at h

theorem holds_of_checkQubits {c : Circuit} {operation : String} {seen bits : List Bit}
    (h : c.checkQubits operation seen bits = .ok ()) : ∀ b ∈ bits, c.Holds .quantum b := by
  induction bits generalizing seen with
  | nil => simp
  | cons b rest ih =>
    rw [checkQubits] at h
    cases hb : c.checkOperand operation .quantum b with
    | error e => simp [hb] at h
    | ok u =>
      rw [hb] at h
      dsimp only at h
      split at h
      · simp at h
      · rintro x hx
        rcases List.mem_cons.mp hx with rfl | hx
        · exact holds_of_checkOperand hb
        · exact ih h x hx

theorem holds_of_checkClbits {c : Circuit} {operation : String} {bits : List Bit}
    (h : c.checkClbits operation bits = .ok ()) : ∀ b ∈ bits, c.Holds .classical b := by
  induction bits with
  | nil => simp
  | cons b rest ih =>
    rw [checkClbits] at h
    cases hb : c.checkOperand operation .classical b with
    | error e => simp [hb] at h
    | ok u =>
      rw [hb] at h
      rintro x hx
      rcases List.mem_cons.mp hx with rfl | hx
      · exact holds_of_checkOperand hb
      · exact ih h x hx

theorem wellPlaced_of_checkInstruction {c : Circuit} {i : Instruction}
    (h : c.checkInstruction i = .ok ()) : c.WellPlaced i := by
  unfold checkInstruction at h
  dsimp only at h
  split at h
  · simp at h
  rename_i hq
  split at h
  · simp at h
  rename_i hb
  cases hqs : c.checkQubits i.operation.name [] i.qubits with
  | error e => simp [hqs] at h
  | ok u =>
    rw [hqs] at h
    exact ⟨not_not.mp hq, not_not.mp hb, holds_of_checkQubits hqs, holds_of_checkClbits h⟩

theorem declare_eq_ok {c d : Circuit} {r : Register} (h : c.declare r = .ok d) :
    (∀ s ∈ c.qregs ++ c.cregs, s.name ≠ r.name) ∧
      ((r.kind = .quantum ∧ d = { c with qregs := c.qregs ++ [r] }) ∨
        (r.kind ≠ .quantum ∧ d = { c with cregs := c.cregs ++ [r] })) := by
  rw [declare_eq] at h
  split at h
  · simp at h
  rename_i hnew
  constructor
  · intro s hs hname
    apply hnew
    rw [register?, List.find?_isSome]
    exact ⟨s, hs, by simp [hname]⟩
  · split at h
    · rename_i hk
      exact .inl ⟨hk, (Except.ok.inj h).symm⟩
    · rename_i hk
      exact .inr ⟨hk, (Except.ok.inj h).symm⟩

/-- More registers hold no fewer bits. -/
theorem WellPlaced.mono {c d : Circuit} {i : Instruction} (h : c.WellPlaced i)
    (hsub : c.qregs ++ c.cregs ⊆ d.qregs ++ d.cregs) : d.WellPlaced i := by
  have hholds {kind : BitKind} {b : Bit} (hb : c.Holds kind b) : d.Holds kind b := by
    refine ⟨hb.1, ?_⟩
    intro name hname
    obtain ⟨r, hr, hin⟩ := hb.2 name hname
    exact ⟨r, hsub hr, hin⟩
  exact ⟨h.qubit_count, h.clbit_count, fun b hb => hholds (h.qubits b hb),
    fun b hb => hholds (h.clbits b hb)⟩

theorem regular_empty (name : String) : (empty name).Regular := by
  refine ⟨List.nodup_nil, ?_, ?_, ?_⟩ <;> simp [empty]

theorem regular_ofSizes (name : String) (qubitCount clbitCount : UInt64) :
    (ofSizes name qubitCount clbitCount).Regular := by
  unfold ofSizes
  by_cases hq : qubitCount = 0 <;> by_cases hb : clbitCount = 0 <;>
    refine ⟨?_, ?_, ?_, ?_⟩ <;> simp [hq, hb]

theorem Regular.declare {c d : Circuit} {r : Register} (h : c.Regular)
    (hd : c.declare r = .ok d) : d.Regular := by
  obtain ⟨hnew, hd⟩ := declare_eq_ok hd
  -- wherever the register goes, the registers are the old ones and it
  have hperm : (d.qregs ++ d.cregs).Perm (r :: (c.qregs ++ c.cregs)) := by
    obtain ⟨-, rfl⟩ | ⟨-, rfl⟩ := hd
    · rw [List.append_assoc]
      exact List.perm_middle
    · rw [← List.append_assoc]
      exact List.perm_append_singleton r _
  have hnames : ((d.qregs ++ d.cregs).map (·.name)).Nodup := by
    rw [(hperm.map _).nodup_iff, List.map_cons, List.nodup_cons]
    refine ⟨?_, h.names⟩
    intro hmem
    obtain ⟨s, hs, hname⟩ := List.mem_map.mp hmem
    exact hnew s hs hname
  have hplaced (i : Instruction) (hi : i ∈ c.instructions) : d.WellPlaced i :=
    (h.placed i hi).mono fun s hs => hperm.mem_iff.mpr (List.mem_cons_of_mem r hs)
  obtain ⟨hk, rfl⟩ | ⟨hk, rfl⟩ := hd
  · have hquantum := List.forall_mem_append.mpr ⟨h.quantum, List.forall_mem_singleton.mpr hk⟩
    exact ⟨hnames, hquantum, h.classical, hplaced⟩
  · have hclassical := List.forall_mem_append.mpr ⟨h.classical, List.forall_mem_singleton.mpr hk⟩
    exact ⟨hnames, h.quantum, hclassical, hplaced⟩

theorem Regular.append {c d : Circuit} {i : Instruction} (h : c.Regular)
    (hd : c.append i = .ok d) : d.Regular := by
  obtain ⟨hcheck, rfl⟩ := append_eq_ok.mp hd
  refine ⟨h.names, h.quantum, h.classical, ?_⟩
  have hlast := List.forall_mem_singleton.mpr (wellPlaced_of_checkInstruction hcheck)
  intro j hj
  exact (List.forall_mem_append.mpr ⟨h.placed, hlast⟩ j hj).mono (List.Subset.refl _)

namespace Built
variable {allowed : Operation → Prop} {c : Circuit}

theorem regular (h : c.Built allowed) : c.Regular := by
  induction h with
  | empty name => exact regular_empty name
  | ofSizes name qubitCount clbitCount => exact regular_ofSizes name qubitCount clbitCount
  | declare _ hd ih => exact ih.declare hd
  | append _ _ hd ih => exact ih.append hd

theorem operation_allowed (h : c.Built allowed) :
    ∀ i ∈ c.instructions, allowed i.operation := by
  induction h with
  | empty name => simp [Circuit.empty]
  | ofSizes name qubitCount clbitCount => simp [Circuit.ofSizes]
  | declare _ hd ih =>
    obtain ⟨-, ⟨-, rfl⟩ | ⟨-, rfl⟩⟩ := declare_eq_ok hd
    · exact ih
    · exact ih
  | append _ hi hd ih =>
    obtain ⟨-, rfl⟩ := append_eq_ok.mp hd
    exact List.forall_mem_append.mpr ⟨ih, List.forall_mem_singleton.mpr hi⟩

theorem mono {wider : Operation → Prop} (h : c.Built allowed)
    (hw : ∀ op, allowed op → wider op) : c.Built wider := by
  induction h with
  | empty name => exact .empty name
  | ofSizes name qubitCount clbitCount => exact .ofSizes name qubitCount clbitCount
  | declare _ hd ih => exact .declare ih hd
  | append _ hi hd ih => exact .append ih (hw _ hi) hd

end Built

/-- The number of bits of some registers, not reduced to a word. -/
def sizeTotal : List Register → Nat
  | [] => 0
  | r :: rest => r.size.toNat + sizeTotal rest

def qubitTotal (c : Circuit) : Nat := sizeTotal c.qregs

theorem toNat_foldl_size (regs : List Register) (total : UInt64) :
    (regs.foldl (fun total r => total + r.size) total).toNat =
      (total.toNat + sizeTotal regs) % UInt64.size := by
  induction regs generalizing total with
  | nil => exact (Nat.mod_eq_of_lt total.toNat_lt).symm
  | cons r rest ih =>
    have hadd : (total + r.size).toNat = (total.toNat + r.size.toNat) % UInt64.size :=
      UInt64.toNat_add total r.size
    rw [List.foldl_cons, ih, hadd, sizeTotal, Nat.mod_add_mod, Nat.add_assoc]

theorem toNat_sizeSum (regs : List Register) :
    (sizeSum regs).toNat = sizeTotal regs % UInt64.size := by
  rw [sizeSum, toNat_foldl_size, UInt64.toNat_zero, Nat.zero_add]

theorem qubitCount_toNat {c : Circuit} (h : c.qubitTotal < UInt64.size) :
    c.qubitCount.toNat = c.qubitTotal :=
  (toNat_sizeSum c.qregs).trans (Nat.mod_eq_of_lt h)

end Circuit

/-- Operations that a factory makes, with a usable circuit as body where it takes one. -/
inductive Operation.Made (usable : Circuit → Prop) : Operation → Prop
  | standard {id : OperationId} {gate : StandardGate} {params : List Parameter}
      {op : Operation} (h : Operation.ofStandard id gate params = .ok op) : Made usable op
  | bodiless {id : OperationId} {name : String} {qubitCount : UInt64} {params : List Parameter}
      {op : Operation} (h : Operation.bodiless id name qubitCount params = .ok op) :
      Made usable op
  | barrier {id : OperationId} {width : UInt64} {op : Operation}
      (h : Operation.barrier id width = .ok op) : Made usable op
  | measurement {id : OperationId} {width : UInt64} {op : Operation}
      (h : Operation.measurement id width = .ok op) : Made usable op
  | gate {c : Circuit} {id : OperationId} {arguments : Option (List Parameter)}
      {op : Operation} (hc : usable c) (h : c.asGate id arguments = .ok op) : Made usable op
  | subroutine {c : Circuit} {id : OperationId} {arguments : Option (List Parameter)}
      {op : Operation} (hc : usable c) (h : c.asSubroutine id arguments = .ok op) :
      Made usable op

/-- Operations made one after another, the latest first. Each has an identity of its own, and
its body, if any, places operations made before it. -/
inductive History : List Operation → Prop
  | nil : History []
  | cons {made : List Operation} {op : Operation} (h : History made)
      (fresh : ∀ o ∈ made, o.id ≠ op.id) (hop : op.Made (Circuit.Built (· ∈ made))) :
      History (op :: made)

/-- Circuits all of whose operations come from the factories. -/
def Circuit.FromFactories (c : Circuit) : Prop :=
  ∃ made, History made ∧ c.Built (· ∈ made)

/-- What the factories guarantee of an operation by itself. -/
structure Operation.WellMade (op : Operation) : Prop where
  standard : ∀ g, op.standard = some g →
    op.kind = .gate ∧ op.body = none ∧ op.name = g.name ∧ op.qubitCount.toNat = g.qubits ∧
      op.params.length = g.params
  body : ∀ b, op.body = some b →
    op.IsCalled ∧ op.params.length = b.symbols.length ∧ op.qubitCount = b.qubitCount
  subroutine : op.kind = .subroutine → op.body ≠ none

theorem Circuit.asOperation_eq_ok {c : Circuit} {id : OperationId} {kind : OperationKind}
    {arguments : Option (List Parameter)} {op : Operation}
    (h : c.asOperation id kind arguments = .ok op) :
    op.kind = kind ∧ op.body = some c ∧ op.standard = none ∧ op.qubitCount = c.qubitCount ∧
      op.params.length = c.symbols.length := by
  unfold asOperation at h
  cases arguments with
  | none =>
    obtain rfl := Except.ok.inj h
    exact ⟨rfl, rfl, rfl, rfl, by simp⟩
  | some params =>
    dsimp only at h
    split at h
    · rename_i hlen
      obtain rfl := Except.ok.inj h
      exact ⟨rfl, rfl, rfl, rfl, hlen⟩
    · simp at h

theorem StandardGate.toNat_ofNat_qubits (g : StandardGate) :
    (UInt64.ofNat g.qubits).toNat = g.qubits := by
  cases g <;> rfl

namespace Operation
variable {op : Operation}

theorem WellMade.of_asOperation {c : Circuit} {id : OperationId} {kind : OperationKind}
    {arguments : Option (List Parameter)} (hkind : kind = .gate ∨ kind = .subroutine)
    (h : c.asOperation id kind arguments = .ok op) : op.WellMade ∧ op.body = some c := by
  obtain ⟨hk, hb, hs, hq, hp⟩ := Circuit.asOperation_eq_ok h
  refine ⟨⟨?_, ?_, ?_⟩, hb⟩
  · intro g hg
    simp [hs] at hg
  · intro b hbody
    obtain rfl := Option.some.inj (hb.symm.trans hbody)
    exact ⟨by rwa [IsCalled, hk], hp, hq⟩
  · intro _
    simp [hb]

/-- Every factory makes well-made operations, whose bodies are usable. -/
theorem Made.wellMade {usable : Circuit → Prop} (h : op.Made usable) :
    op.WellMade ∧ ∀ b, op.body = some b → usable b := by
  cases h with
  | standard h =>
    unfold ofStandard at h
    split at h
    · rename_i hlen
      obtain rfl := Except.ok.inj h
      refine ⟨⟨?_, by simp, by simp⟩, by simp⟩
      intro g hg
      obtain rfl := Option.some.inj hg
      exact ⟨rfl, rfl, rfl, StandardGate.toNat_ofNat_qubits _, hlen⟩
    · simp at h
  | bodiless h =>
    unfold Operation.bodiless at h
    split at h
    · simp at h
    split at h
    · simp at h
    obtain rfl := Except.ok.inj h
    exact ⟨⟨by simp, by simp, by simp⟩, by simp⟩
  | barrier h =>
    unfold Operation.barrier at h
    split at h
    · simp at h
    obtain rfl := Except.ok.inj h
    exact ⟨⟨by simp, by simp, by simp⟩, by simp⟩
  | measurement h =>
    unfold Operation.measurement at h
    split at h
    · simp at h
    obtain rfl := Except.ok.inj h
    exact ⟨⟨by simp, by simp, by simp⟩, by simp⟩
  | gate hc h =>
    unfold Circuit.asGate at h
    split at h
    · obtain ⟨hmade, hb⟩ := WellMade.of_asOperation (.inl rfl) h
      exact ⟨hmade, fun b hbody => Option.some.inj (hb.symm.trans hbody) ▸ hc⟩
    · simp at h
  | subroutine hc h =>
    obtain ⟨hmade, hb⟩ := WellMade.of_asOperation (.inr rfl) h
    exact ⟨hmade, fun b hbody => Option.some.inj (hb.symm.trans hbody) ▸ hc⟩

theorem Made.mono {usable wider : Circuit → Prop} (h : op.Made usable)
    (hw : ∀ c, usable c → wider c) : op.Made wider := by
  cases h with
  | standard h => exact .standard h
  | bodiless h => exact .bodiless h
  | barrier h => exact .barrier h
  | measurement h => exact .measurement h
  | gate hc h => exact .gate (hw _ hc) h
  | subroutine hc h => exact .subroutine (hw _ hc) h

end Operation

namespace History
variable {made : List Operation}

theorem eq_of_id (h : History made) :
    ∀ a ∈ made, ∀ b ∈ made, a.id = b.id → a = b := by
  induction h with
  | nil => simp
  | @cons made op _ fresh _ ih =>
    intro a ha b hb hid
    rw [List.mem_cons] at ha hb
    rcases ha with rfl | ha <;> rcases hb with rfl | hb
    · rfl
    · exact absurd hid.symm (fresh b hb)
    · exact absurd hid (fresh a ha)
    · exact ih a ha b hb hid

theorem made_of_mem (h : History made) :
    ∀ op ∈ made, op.Made (Circuit.Built (· ∈ made)) := by
  induction h with
  | nil => simp
  | @cons made op _ _ hop ih =>
    intro o ho
    have hlater (c : Circuit) (hc : c.Built (· ∈ made)) : c.Built (· ∈ op :: made) :=
      hc.mono fun _ hm => List.mem_cons_of_mem op hm
    rcases List.mem_cons.mp ho with rfl | ho
    · exact hop.mono hlater
    · exact (ih o ho).mono hlater

/-- Nothing is placed in a body that was not made before. -/
theorem operationsOf_inner_subset (h : History made) :
    ∀ op ∈ made, operationsOf op.inner ⊆ made := by
  induction h with
  | nil => simp
  | @cons made op _ _ hop ih =>
    intro o ho x hx
    apply List.mem_cons_of_mem
    rcases List.mem_cons.mp ho with rfl | ho
    · obtain ⟨i, hi, hin⟩ := mem_operationsOf.mp hx
      cases hb : o.body with
      | none => exact absurd hb (Operation.body_ne_none_of_mem hi)
      | some b =>
        rw [Operation.inner_of_body hb] at hi
        have hmem := (hop.wellMade.2 b hb).operation_allowed i hi
        rcases hin with rfl | hin
        · exact hmem
        · exact ih i.operation hmem hin
    · exact ih o ho hx

theorem operationsOf_subset (h : History made) {c : Circuit} (hc : c.Built (· ∈ made)) :
    operationsOf c.instructions ⊆ made := by
  intro op hop
  obtain ⟨i, hi, rfl | hin⟩ := mem_operationsOf.mp hop
  · exact hc.operation_allowed i hi
  · exact h.operationsOf_inner_subset _ (hc.operation_allowed i hi) hin

end History

namespace Circuit.FromFactories
variable {c : Circuit}

theorem identified (h : c.FromFactories) : Identified (operationsOf c.instructions) := by
  obtain ⟨made, hm, hc⟩ := h
  have hsub := hm.operationsOf_subset hc
  refine ⟨fun a ha b hb => hm.eq_of_id a (hsub ha) b (hsub hb), ?_⟩
  intro a ha hs
  obtain ⟨g, hg⟩ := Option.isSome_iff_exists.mp hs
  exact ((hm.made_of_mem a (hsub ha)).wellMade.1.standard g hg).2.1

theorem regular (h : c.FromFactories) : c.Regular := by
  obtain ⟨_, _, hc⟩ := h
  exact hc.regular

theorem wellMade (h : c.FromFactories) : ∀ op ∈ operationsOf c.instructions, op.WellMade := by
  obtain ⟨made, hm, hc⟩ := h
  intro op hop
  exact (hm.made_of_mem op (hm.operationsOf_subset hc hop)).wellMade.1

theorem regular_body (h : c.FromFactories) :
    ∀ op ∈ operationsOf c.instructions, ∀ b, op.body = some b → b.Regular := by
  obtain ⟨made, hm, hc⟩ := h
  intro op hop b hb
  exact ((hm.made_of_mem op (hm.operationsOf_subset hc hop)).wellMade.2 b hb).regular

end Circuit.FromFactories

namespace Nested

def q (index : UInt64) : Bit := ⟨.quantum, some "q", index⟩

/-- A gate without a body that takes an angle. -/
def kick : Operation := ⟨.gate, "kick", 1, 0, [.symbol "theta"], none, none, 0⟩

def cx : Operation := ⟨.gate, "cx", 2, 0, [], none, some .cx, 1⟩

def pair : Circuit :=
  ⟨"swap", [⟨.quantum, "q", 2⟩], [],
    [⟨kick, [q 1], [], none⟩, ⟨cx, [q 1, q 0], [], none⟩]⟩

/-- A gate with a body, called with a symbol of another name. -/
def pairGate : Operation := ⟨.gate, "swap", 2, 0, [.symbol "phi"], some pair, none, 2⟩

def fence : Operation := ⟨.barrier, "barrier", 2, 0, [], none, none, 3⟩

/-- A body that places one gate twice, on the qubits in both orders, and has the gate's name. -/
def chain : Circuit :=
  ⟨"swap", [⟨.quantum, "q", 2⟩], [],
    [⟨pairGate, [q 1, q 0], [], none⟩, ⟨fence, [q 0, q 1], [], none⟩,
      ⟨pairGate, [q 0, q 1], [], none⟩]⟩

def chainCall : Operation := ⟨.subroutine, "swap", 2, 0, [.symbol "theta"], some chain, none, 4⟩

def readout : Operation := ⟨.measurement, "measure", 1, 1, [], none, none, 5⟩

/-- A circuit that calls a subroutine under a condition, with two levels of calls below. -/
def circuit : Circuit :=
  ⟨"main", [⟨.quantum, "q", 2⟩], [⟨.classical, "c", 1⟩],
    [⟨readout, [q 0], [⟨.classical, some "c", 0⟩], none⟩,
      ⟨chainCall, [q 1, q 0], [], some ⟨.register ⟨.classical, "c", 1⟩, .equal, 1⟩⟩,
      ⟨kick, [q 0], [], none⟩]⟩

theorem chain_built : chain.Built (· ∈ [fence, pairGate, cx, kick]) :=
  (((Circuit.Built.ofSizes "swap" 2 0).append
    (i := ⟨pairGate, [q 1, q 0], [], none⟩) (by simp) rfl).append
    (i := ⟨fence, [q 0, q 1], [], none⟩) (by simp) rfl).append
    (i := ⟨pairGate, [q 0, q 1], [], none⟩) (by simp) rfl

theorem history : History [readout, chainCall, fence, pairGate, cx, kick] := by
  have hkick : Operation.bodiless 0 "kick" 1 [.symbol "theta"] = .ok kick := rfl
  have hcx : Operation.ofStandard 1 .cx [] = .ok cx := rfl
  have hpair : pair.Built (· ∈ [cx, kick]) :=
    ((Circuit.Built.ofSizes "swap" 2 0).append (i := ⟨kick, [q 1], [], none⟩) (by simp) rfl).append
      (i := ⟨cx, [q 1, q 0], [], none⟩) (by simp) rfl
  have hpairGate : pair.asGate 2 (some [.symbol "phi"]) = .ok pairGate := rfl
  have hfence : Operation.barrier 3 2 = .ok fence := rfl
  have hchainCall : chain.asSubroutine 4 (some [.symbol "theta"]) = .ok chainCall := rfl
  have hreadout : Operation.measurement 5 1 = .ok readout := rfl
  exact (((((History.nil.cons (by decide) (.bodiless hkick)).cons (by decide)
    (.standard hcx)).cons (by decide) (.gate hpair hpairGate)).cons (by decide)
    (.barrier hfence)).cons (by decide) (.subroutine chain_built hchainCall)).cons (by decide)
    (.measurement hreadout)

theorem circuit_fromFactories : circuit.FromFactories :=
  ⟨_, history, (((Circuit.Built.ofSizes "main" 2 1).append
    (i := ⟨readout, [q 0], [⟨.classical, some "c", 0⟩], none⟩) (by simp) rfl).append
    (i := ⟨chainCall, [q 1, q 0], [], some ⟨.register ⟨.classical, "c", 1⟩, .equal, 1⟩⟩)
      (by simp) rfl).append
    (i := ⟨kick, [q 0], [], none⟩) (by simp) rfl⟩

end Nested
end OpenQasm
