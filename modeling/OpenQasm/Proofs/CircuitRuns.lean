import Mathlib.Data.List.Basic
import OpenQasm.Proofs.Building
import OpenQasm.Proofs.Provenance

/-! Circuits over time: what every sequence of calls preserves, and what a failed call leaves
alone. -/
namespace OpenQasm

/-- A call that changes one circuit. -/
inductive CircuitChange where
  | declare (r : Register)
  | append (i : Instruction)
  | place (operation : Option Operation) (qubits clbits : List Bit) (condition : Option Condition)
  | applyGate (id : OperationId) (gate : StandardGate) (qubits : List Bit)
      (params : List Parameter)
  | measure (id : OperationId) (qubit clbit : Bit)
  | barrier (id : OperationId) (qubits : List Bit)
  | barrierAll (id : OperationId)

/-- A call on the circuits made so far, which are numbered in the order in which they were made. -/
inductive CircuitCall where
  | create (name : String)
  | createOfSizes (name : String) (qubitCount clbitCount : UInt64)
  | clone (n : Nat)
  | change (n : Nat) (change : CircuitChange)

def CircuitChange.edit : CircuitChange → Circuit.Edit
  | .declare r => .declare r
  | .append i => .append i
  | .place operation qubits clbits condition => .place operation qubits clbits condition
  | .applyGate id gate qubits params => .applyGate id gate qubits params
  | .measure id qubit clbit => .measure id qubit clbit
  | .barrier id qubits => .barrier id qubits
  | .barrierAll id => .barrierAll id

/-- The circuits after a call and the error that it ends with, if it does. A circuit is kept as the
call leaves it, also when the call fails. A call on a number that no circuit has is no call. -/
def afterCall (circuits : List Circuit) : CircuitCall → List Circuit × Option CircuitError
  | .create name => (circuits ++ [.empty name], none)
  | .createOfSizes name qubitCount clbitCount =>
    (circuits ++ [.ofSizes name qubitCount clbitCount], none)
  | .clone n => (circuits ++ circuits[n]?.toList, none)
  | .change n change =>
    match circuits[n]? with
    | none => (circuits, none)
    | some c => (circuits.set n (change.edit.after c), change.edit.error? c)

def afterCalls (circuits : List Circuit) (calls : List CircuitCall) : List Circuit :=
  calls.foldl (fun made call => (afterCall made call).1) circuits

namespace Circuit.Edit

/-- The name is looked up before the register is added. -/
theorem atomic_declare (r : Register) : (Edit.declare r).Atomic := by
  apply InPlace.readOnly_get.bind_atomic
  intro c
  apply InPlace.Atomic.ite
  · exact (InPlace.readOnly_throw _).atomic
  · exact .ite (InPlace.atomic_set _) (InPlace.atomic_set _)

/-- All checks are made before the instruction is added. -/
theorem atomic_append (i : Instruction) : (Edit.append i).Atomic := by
  apply InPlace.readOnly_get.bind_atomic
  intro c
  apply (InPlace.readOnly_ofExcept _).bind_atomic
  exact fun _ => InPlace.atomic_set _

theorem atomic_place (operation : Option Operation) (qubits clbits : List Bit)
    (condition : Option Condition) : (Edit.place operation qubits clbits condition).Atomic :=
  (InPlace.readOnly_ofExcept _).bind_atomic atomic_append

/-- An operation that is made first and then placed. -/
theorem atomic_made_and_placed (made : Except CircuitError Operation) (qubits clbits : List Bit) :
    InPlace.Atomic (ofExcept made >>= fun op => Edit.place (some op) qubits clbits none) :=
  (InPlace.readOnly_ofExcept made).bind_atomic fun op => atomic_place (some op) qubits clbits none

end Circuit.Edit

theorem CircuitChange.atomic_edit (change : CircuitChange) : change.edit.Atomic := by
  cases change with
  | declare r => exact Circuit.Edit.atomic_declare r
  | append i => exact Circuit.Edit.atomic_append i
  | place operation qubits clbits condition =>
    exact Circuit.Edit.atomic_place operation qubits clbits condition
  | applyGate id gate qubits params => exact Circuit.Edit.atomic_made_and_placed _ qubits []
  | measure id qubit clbit => exact Circuit.Edit.atomic_made_and_placed _ [qubit] [clbit]
  | barrier id qubits => exact Circuit.Edit.atomic_made_and_placed _ qubits []
  | barrierAll id =>
    apply InPlace.readOnly_get.bind_atomic
    exact fun c => Circuit.Edit.atomic_made_and_placed _ c.allQubits []

namespace Circuit
variable {c d : Circuit}

theorem append_of_place {operation : Option Operation} {qubits clbits : List Bit}
    {condition : Option Condition} (h : c.place operation qubits clbits condition = .ok d) :
    ∃ i, c.append i = .ok d := by
  rw [place_eq] at h
  obtain ⟨i, -, hi⟩ := bind_eq_ok.mp h
  exact ⟨i, hi⟩

theorem append_of_made_and_placed {made : Except CircuitError Operation} {qubits clbits : List Bit}
    (h : c.edited (ofExcept made >>= fun op => Edit.place (some op) qubits clbits none) = .ok d) :
    ∃ i, c.append i = .ok d := by
  rw [edited_ofExcept_bind] at h
  obtain ⟨op, -, hplace⟩ := bind_eq_ok.mp h
  exact append_of_place hplace

/-- All that a change does is to declare a register or to append an instruction. -/
theorem declare_or_append_of_edited {change : CircuitChange} (h : c.edited change.edit = .ok d) :
    (∃ r, c.declare r = .ok d) ∨ ∃ i, c.append i = .ok d := by
  cases change with
  | declare r => exact .inl ⟨r, h⟩
  | append i => exact .inr ⟨i, h⟩
  | place operation qubits clbits condition => exact .inr (append_of_place h)
  | applyGate id gate qubits params => exact .inr (append_of_made_and_placed h)
  | measure id qubit clbit => exact .inr (append_of_made_and_placed h)
  | barrier id qubits => exact .inr (append_of_made_and_placed h)
  | barrierAll id => exact .inr (append_of_made_and_placed h)

theorem Built.edited (hc : c.Built fun _ => True) {change : CircuitChange}
    (h : c.edited change.edit = .ok d) : d.Built fun _ => True := by
  obtain ⟨r, hr⟩ | ⟨i, hi⟩ := declare_or_append_of_edited h
  · exact hc.declare hr
  · exact hc.append trivial hi

/-- The second circuit has what the first one has, and possibly more at the end. -/
structure Extends (c d : Circuit) : Prop where
  name : d.name = c.name
  qregs : c.qregs <+: d.qregs
  cregs : c.cregs <+: d.cregs
  instructions : c.instructions <+: d.instructions

theorem Extends.refl (c : Circuit) : c.Extends c :=
  ⟨rfl, List.prefix_rfl, List.prefix_rfl, List.prefix_rfl⟩

theorem Extends.trans {e : Circuit} (h : c.Extends d) (h' : d.Extends e) : c.Extends e :=
  ⟨h'.name.trans h.name, h.qregs.trans h'.qregs, h.cregs.trans h'.cregs,
    h.instructions.trans h'.instructions⟩

theorem extends_of_edited {change : CircuitChange} (h : c.edited change.edit = .ok d) :
    c.Extends d := by
  obtain ⟨r, hr⟩ | ⟨i, hi⟩ := declare_or_append_of_edited h
  · obtain ⟨-, ⟨-, rfl⟩ | ⟨-, rfl⟩⟩ := declare_eq_ok hr
    · exact ⟨rfl, List.prefix_append _ _, List.prefix_rfl, List.prefix_rfl⟩
    · exact ⟨rfl, List.prefix_rfl, List.prefix_append _ _, List.prefix_rfl⟩
  · obtain ⟨-, rfl⟩ := append_eq_ok.mp hi
    exact ⟨rfl, List.prefix_rfl, List.prefix_rfl, List.prefix_append _ _⟩

end Circuit

section
variable {circuits : List Circuit} {n : Nat} {c : Circuit} (hn : circuits[n]? = some c)
  {change : CircuitChange}
include hn

theorem afterCall_of_edited {d : Circuit} (h : c.edited change.edit = .ok d) :
    afterCall circuits (.change n change) = (circuits.set n d, none) := by
  obtain ⟨herror, hafter⟩ := Circuit.edited_eq_ok.mp h
  simp only [afterCall, hn, herror, hafter]

/-- A change that fails leaves all circuits as they were. -/
theorem afterCall_of_failed {e : CircuitError} (h : c.edited change.edit = .error e) :
    afterCall circuits (.change n change) = (circuits, some e) := by
  have herror := Circuit.edited_eq_error.mp h
  have hsame := change.atomic_edit c e herror
  obtain ⟨hlt, hc⟩ := List.getElem?_eq_some_iff.mp hn
  have hset : circuits.set n c = circuits := by
    rw [← hc]
    exact List.set_getElem_self hlt
  simp only [afterCall, hn, herror, hsame, hset]

end

/-- A call leaves the circuits as they are, adds one that is new or a copy, or changes one; only in
the first case can it fail. -/
theorem afterCall_cases (circuits : List Circuit) (call : CircuitCall) :
    (afterCall circuits call).1 = circuits ∨
      (afterCall circuits call).2 = none ∧
        ((∃ c, (c.Built (fun _ => True) ∨ c ∈ circuits) ∧
            (afterCall circuits call).1 = circuits ++ [c]) ∨
          ∃ (n : Nat) (c d : Circuit) (change : CircuitChange), circuits[n]? = some c ∧
            c.edited change.edit = .ok d ∧
            (afterCall circuits call).1 = circuits.set n d) := by
  cases call with
  | create name => exact .inr ⟨rfl, .inl ⟨_, .inl (.empty name), rfl⟩⟩
  | createOfSizes name qubitCount clbitCount =>
    exact .inr ⟨rfl, .inl ⟨_, .inl (.ofSizes name qubitCount clbitCount), rfl⟩⟩
  | clone n =>
    cases hn : circuits[n]? with
    | none => exact .inl (by simp [afterCall, hn])
    | some c =>
      have hmem := List.mem_of_getElem? hn
      exact .inr ⟨rfl, .inl ⟨c, .inr hmem, by simp [afterCall, hn]⟩⟩
  | change n change =>
    cases hn : circuits[n]? with
    | none => exact .inl (by simp [afterCall, hn])
    | some c =>
      cases hd : c.edited change.edit with
      | error e => exact .inl (by rw [afterCall_of_failed hn hd])
      | ok d =>
        rw [afterCall_of_edited hn hd]
        exact .inr ⟨rfl, .inr ⟨n, c, d, change, hn, hd, rfl⟩⟩

theorem built_afterCall {circuits : List Circuit} (h : ∀ c ∈ circuits, c.Built fun _ => True)
    (call : CircuitCall) : ∀ c ∈ (afterCall circuits call).1, c.Built fun _ => True := by
  intro d hd
  obtain hsame | ⟨-, ⟨c, hc, hadd⟩ | ⟨n, c, e, change, hn, he, hset⟩⟩ :=
    afterCall_cases circuits call
  · exact h d (hsame ▸ hd)
  · rw [hadd] at hd
    rcases List.mem_append.mp hd with hd | hd
    · exact h d hd
    · rw [List.mem_singleton.mp hd]
      exact hc.elim id (h c)
  · rw [hset] at hd
    rcases List.mem_or_eq_of_mem_set hd with hd | rfl
    · exact h d hd
    · exact (h c (List.mem_of_getElem? hn)).edited he

theorem extends_afterCall {circuits : List Circuit} (call : CircuitCall) {n : Nat} {c : Circuit}
    (h : circuits[n]? = some c) :
    ∃ d, (afterCall circuits call).1[n]? = some d ∧ c.Extends d := by
  obtain ⟨hn, -⟩ := List.getElem?_eq_some_iff.mp h
  obtain hsame | ⟨-, ⟨e, -, hadd⟩ | ⟨m, e, d, change, hm, hd, hset⟩⟩ :=
    afterCall_cases circuits call
  · rw [hsame]
    exact ⟨c, h, .refl c⟩
  · exact ⟨c, by rw [hadd, List.getElem?_append_left hn, h], .refl c⟩
  · rw [hset]
    by_cases hmn : m = n
    · subst hmn
      obtain rfl := Option.some.inj (hm.symm.trans h)
      exact ⟨d, List.getElem?_set_self hn, Circuit.extends_of_edited hd⟩
    · exact ⟨c, by rw [List.getElem?_set_ne hmn, h], .refl c⟩

/-- Every circuit of a run is built by declaring registers and appending instructions. -/
theorem built_afterCalls {circuits : List Circuit} (h : ∀ c ∈ circuits, c.Built fun _ => True)
    (calls : List CircuitCall) : ∀ c ∈ afterCalls circuits calls, c.Built fun _ => True := by
  induction calls generalizing circuits with
  | nil => exact h
  | cons call rest ih => exact ih (built_afterCall h call)

theorem extends_afterCalls {circuits : List Circuit} (calls : List CircuitCall) {n : Nat}
    {c : Circuit} (h : circuits[n]? = some c) :
    ∃ d, (afterCalls circuits calls)[n]? = some d ∧ c.Extends d := by
  induction calls generalizing circuits c with
  | nil => exact ⟨c, h, .refl c⟩
  | cons call rest ih =>
    obtain ⟨d, hd, hcd⟩ := extends_afterCall call h
    obtain ⟨e, he, hde⟩ := ih hd
    exact ⟨e, he, hcd.trans hde⟩

/-- A bit that stands alone or is an element of one of the registers. -/
def Bit.LiesIn (b : Bit) (regs : List Register) : Prop :=
  b.isPhysical = true ∨ ∃ r ∈ regs, r.contains b = true

/-- An instruction that places its operation on as many bits as it declares: on different qubits
and on classical bits, all of which stand alone or are the circuit's own. -/
structure Circuit.Admits (c : Circuit) (i : Instruction) : Prop where
  qubit_count : i.qubits.length = i.operation.qubitCount.toNat
  clbit_count : i.clbits.length = i.operation.clbitCount.toNat
  distinct : i.qubits.Nodup
  qubits : ∀ b ∈ i.qubits, b.kind = .quantum ∧ b.LiesIn c.qregs
  clbits : ∀ b ∈ i.clbits, b.kind = .classical ∧ b.LiesIn (c.cregs.filter (·.kind = .classical))

structure Circuit.Consistent (c : Circuit) : Prop where
  names : ((c.qregs ++ c.cregs).map (·.name)).Nodup
  quantum : ∀ r ∈ c.qregs, r.kind = .quantum
  classical : ∀ r ∈ c.cregs, r.kind ≠ .quantum
  instructions : ∀ i ∈ c.instructions, c.Admits i

namespace Circuit

theorem nodup_of_checkQubits {c : Circuit} {operation : String} {seen bits : List Bit}
    (h : c.checkQubits operation seen bits = .ok ()) :
    bits.Nodup ∧ ∀ b ∈ bits, b ∉ seen := by
  induction bits generalizing seen with
  | nil => simp
  | cons b rest ih =>
    rw [checkQubits] at h
    cases hb : c.checkOperand operation .quantum b with
    | error e => simp [hb] at h
    | ok u =>
      rw [hb] at h
      dsimp only at h
      split at h
      · simp at h
      · rename_i hnew
        obtain ⟨hnodup, hrest⟩ := ih h
        constructor
        · apply List.nodup_cons.mpr
          exact ⟨fun hin => hrest b hin List.mem_cons_self, hnodup⟩
        · intro x hx
          rcases List.mem_cons.mp hx with rfl | hx
          · exact hnew
          · exact fun hin => hrest x hx (List.mem_cons_of_mem b hin)

theorem nodup_of_checkInstruction {c : Circuit} {i : Instruction}
    (h : c.checkInstruction i = .ok ()) : i.qubits.Nodup := by
  unfold checkInstruction at h
  dsimp only at h
  split at h
  · simp at h
  split at h
  · simp at h
  cases hqs : c.checkQubits i.operation.name [] i.qubits with
  | error e => simp [hqs] at h
  | ok u => exact (nodup_of_checkQubits hqs).1

theorem Built.nodup_qubits {allowed : Operation → Prop} {c : Circuit} (h : c.Built allowed) :
    ∀ i ∈ c.instructions, i.qubits.Nodup := by
  induction h with
  | empty name => simp [Circuit.empty]
  | ofSizes name qubitCount clbitCount => simp [Circuit.ofSizes]
  | declare _ hd ih =>
    obtain ⟨-, ⟨-, rfl⟩ | ⟨-, rfl⟩⟩ := declare_eq_ok hd
    · exact ih
    · exact ih
  | append _ _ hd ih =>
    obtain ⟨hcheck, rfl⟩ := append_eq_ok.mp hd
    intro j hj
    rcases List.mem_append.mp hj with hj | hj
    · exact ih j hj
    · rw [List.mem_singleton.mp hj]
      exact nodup_of_checkInstruction hcheck

/-- A register that has the kind and the name of a bit, and is long enough, contains it. -/
theorem Holds.liesIn {c : Circuit} {kind : BitKind} {b : Bit} (h : c.Holds kind b)
    {regs : List Register} (hregs : ∀ r ∈ c.qregs ++ c.cregs, r.kind = kind → r ∈ regs) :
    b.LiesIn regs := by
  obtain ⟨hkind, hin⟩ := h
  cases hname : b.register with
  | none => exact .inl (by simp [Bit.isPhysical, hname])
  | some name =>
    obtain ⟨r, hr, hrk, hrn, hlt⟩ := hin name hname
    exact .inr ⟨r, hregs r hr hrk, by simp [Register.contains, hkind, hrk, hname, hrn, hlt]⟩

namespace Regular
variable {c : Circuit} (h : c.Regular)
include h

theorem mem_qregs {r : Register} (hr : r ∈ c.qregs ++ c.cregs) (hk : r.kind = .quantum) :
    r ∈ c.qregs :=
  (List.mem_append.mp hr).resolve_right fun hc => h.classical r hc hk

theorem mem_cregs {r : Register} (hr : r ∈ c.qregs ++ c.cregs) (hk : r.kind = .classical) :
    r ∈ c.cregs.filter (·.kind = .classical) := by
  rcases List.mem_append.mp hr with hq | hc
  · rw [h.quantum r hq] at hk
    cases hk
  · exact List.mem_filter.mpr ⟨hc, decide_eq_true hk⟩

theorem admits {i : Instruction} (hplaced : c.WellPlaced i) (hdistinct : i.qubits.Nodup) :
    c.Admits i := by
  refine ⟨hplaced.qubit_count, hplaced.clbit_count, hdistinct, ?_, ?_⟩
  · intro b hb
    have hholds := hplaced.qubits b hb
    exact ⟨hholds.1, hholds.liesIn fun r => h.mem_qregs⟩
  · intro b hb
    have hholds := hplaced.clbits b hb
    exact ⟨hholds.1, hholds.liesIn fun r => h.mem_cregs⟩

end Regular

theorem Built.consistent {allowed : Operation → Prop} {c : Circuit} (h : c.Built allowed) :
    c.Consistent := by
  have hregular := h.regular
  refine ⟨hregular.names, hregular.quantum, hregular.classical, ?_⟩
  intro i hi
  exact hregular.admits (hregular.placed i hi) (h.nodup_qubits i hi)

end Circuit

/-- However circuits are created, cloned and changed, with calls that fail anywhere, each of them is
consistent. A call that fails leaves all of them as they were, and any later calls leave each
circuit the registers and instructions it has. -/
theorem consistent_after_calls (calls : List CircuitCall) :
    let circuits := afterCalls [] calls
    (∀ c ∈ circuits, c.Consistent) ∧
      (∀ call e, (afterCall circuits call).2 = some e → (afterCall circuits call).1 = circuits) ∧
      ∀ (later : List CircuitCall) (n : Nat) (c : Circuit), circuits[n]? = some c →
        ∃ d, (afterCalls circuits later)[n]? = some d ∧ c.Extends d := by
  intro circuits
  refine ⟨?_, ?_, ?_⟩
  · intro c hc
    exact (built_afterCalls (by simp) calls c hc).consistent
  · intro call e he
    obtain hsame | ⟨hnone, -⟩ := afterCall_cases circuits call
    · exact hsame
    · simp [hnone] at he
  · intro later n c hc
    exact extends_afterCalls later hc

namespace Mixed

/-- Calls that fail stand among the others: a name is taken and a qubit is used twice. A register of
an odd kind is kept with the classical ones, and the clone goes its own way. -/
def calls : List CircuitCall :=
  [.createOfSizes "main" 2 1, .change 0 (.declare ⟨.outside 7, "odd", 3⟩),
    .change 0 (.declare ⟨.quantum, "c", 1⟩),
    .change 0 (.applyGate 0 .cx [Nested.q 0, Nested.q 0] []),
    .change 0 (.measure 1 (Nested.q 0) ⟨.classical, some "c", 0⟩), .clone 0,
    .change 1 (.barrierAll 2), .change 0 (.declare ⟨.quantum, "late", 1⟩)]

/-- A measurement into the register of an odd kind. -/
def stray : CircuitCall := .change 0 (.measure 3 (Nested.q 1) ⟨.classical, some "odd", 0⟩)

theorem consistent_after_mixed :
    (afterCalls [] calls).map (fun c => (c.qregs.length, c.cregs.length, c.instructions.length)) =
        [(2, 2, 1), (1, 2, 2)] ∧
      (∀ c ∈ afterCalls [] calls, c.Consistent) ∧
      (afterCall (afterCalls [] calls) stray).2 =
        some (.operandRegisterMissing "measure" ⟨.classical, some "odd", 0⟩ "main") ∧
      (afterCall (afterCalls [] calls) stray).1 = afterCalls [] calls := by
  obtain ⟨hconsistent, hfailed, -⟩ := consistent_after_calls calls
  have hstray : (afterCall (afterCalls [] calls) stray).2 =
      some (.operandRegisterMissing "measure" ⟨.classical, some "odd", 0⟩ "main") := rfl
  exact ⟨rfl, hconsistent, hstray, hfailed stray _ hstray⟩

end Mixed
end OpenQasm
