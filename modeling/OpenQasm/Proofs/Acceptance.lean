import Mathlib.Logic.Relation
import OpenQasm.Proofs.Resolution
import OpenQasm.Proofs.ScopeRuns

/-! Which circuits can be exported, told from the circuit and the bodies that a build looks at. -/
namespace OpenQasm

/-- A register that can be declared. -/
def Register.Declarable (r : Register) : Prop := r.name ≠ "" ∧ r.size ≠ 0

/-- Storage that a condition in the circuit can test: a classical register that the circuit has,
or a classical bit of some register. -/
def ConditionTarget.Testable (c : Circuit) : ConditionTarget → Prop
  | .register r => r.name ≠ "" ∧
      ∃ declared, c.register? r.name = some declared ∧ declared.kind = .classical
  | .bit b => b.kind = .classical ∧ b.register.isSome

/-- An instruction that the walk for definitions can pass. -/
structure Instruction.Collectable (i : Instruction) (options : Options) : Prop where
  kind : i.operation.kind ∈ [.gate, .barrier, .measurement, .subroutine]
  named : i.operation.IsCalled → ¬ i.operation.Builtin options → i.operation.name ≠ ""

/-- An instruction of the circuit `c` that also has a statement. Physical qubits, which lie in no
register, can be written down at the top level only. -/
structure Instruction.Exportable (i : Instruction) (c : Circuit) (options : Options)
    (naming : Naming) : Prop extends i.Collectable options where
  condition : ∀ cond, i.condition = some cond →
    i.operation.kind ≠ .barrier ∧ cond.comparison = .equal ∧ cond.target.Testable c
  measurement : i.operation.kind = .measurement →
    ∃ q b, i.qubits = [q] ∧ i.clbits = [b] ∧ b.register.isSome
  qubits : naming = .flat → ∀ q ∈ i.qubits, q.register.isSome

namespace Circuit

structure Exportable (c : Circuit) (options : Options) (naming : Naming) : Prop where
  registers : ∀ r ∈ c.qregs ++ c.cregs, r.Declarable
  instructions : ∀ i ∈ c.instructions, i.Exportable c options naming

/-- The circuit calls a gate or subroutine that is not built in and has the given body. -/
def Enters (options : Options) (c b : Circuit) : Prop :=
  ∃ i ∈ c.instructions, i.operation.IsCalled ∧ ¬ i.operation.Builtin options ∧
    i.operation.body = some b

/-- The bodies that a circuit enters, those that they enter, and so on. -/
def Reaches (options : Options) : Circuit → Circuit → Prop := Relation.TransGen (Enters options)

/-- A circuit made by declaring registers and appending instructions, like all bodies in it, of
operations that may be of any make but are told apart by their identities. -/
structure Assembled (c : Circuit) : Prop where
  built : c.Built fun _ => True
  bodies : ∀ op ∈ operationsOf c.instructions, ∀ b, op.body = some b → b.Built fun _ => True
  identified : Identified (operationsOf c.instructions)

theorem FromFactories.assembled {c : Circuit} (h : c.FromFactories) : c.Assembled := by
  obtain ⟨made, hmade, hc⟩ := id h
  refine ⟨hc.mono fun _ _ => trivial, ?_, h.identified⟩
  intro op hop b hb
  have hbuilt := (hmade.made_of_mem op (hmade.operationsOf_subset hc hop)).wellMade.2 b hb
  exact hbuilt.mono fun _ _ => trivial

end Circuit

theorem exists_bind_eq_ok {ε α β : Type} {x : Except ε α} {f : α → Except ε β} :
    (∃ b, (x >>= f) = .ok b) ↔ ∃ a, x = .ok a ∧ ∃ b, f a = .ok b := by
  cases x with
  | error e => simp [bind, Except.bind]
  | ok a => simp [bind, Except.bind]

theorem exists_bind_pure_eq_ok {ε α β : Type} {x : Except ε α} {f : α → β} :
    (∃ b, (x >>= fun a => pure (f a)) = .ok b) ↔ ∃ a, x = .ok a := by
  cases x with
  | error e => simp [bind, Except.bind]
  | ok a => simp [bind, Except.bind, pure, Except.pure]

theorem exists_mapM_eq_ok {ε α β : Type} {f : α → Except ε β} {xs : List α} :
    (∃ ys, xs.mapM f = .ok ys) ↔ ∀ x ∈ xs, ∃ y, f x = .ok y := by
  induction xs with
  | nil => simp [pure, Except.pure]
  | cons x rest ih =>
    rw [List.mapM_cons, exists_bind_eq_ok, List.forall_mem_cons, ← ih]
    simp only [exists_bind_pure_eq_ok, ← exists_and_right]

theorem checkRegisters_eq_ok {c : Circuit} :
    checkRegisters c = .ok () ↔ ∀ r ∈ c.qregs ++ c.cregs, r.Declarable := by
  unfold checkRegisters
  induction c.qregs ++ c.cregs with
  | nil => simp [pure, Except.pure]
  | cons r rest ih =>
    rw [List.forM, bind_eq_ok, List.forall_mem_cons, ← ih]
    by_cases hn : r.name = "" <;> by_cases hs : r.size = 0 <;> simp [Register.Declarable, hn, hs]

/-- A qubit can be written down at the top level, and in a body if a register has it. -/
theorem Bit.exists_operand_of_quantum {b : Bit} (h : b.kind = .quantum) {naming : Naming} :
    (∃ o, b.operand naming = .ok o) ↔ (naming = .flat → b.register.isSome) := by
  unfold operand
  cases b.register <;> cases naming <;> simp [h]

theorem Bit.exists_operand_of_classical {b : Bit} (h : b.kind = .classical) {naming : Naming} :
    (∃ o, b.operand naming = .ok o) ↔ b.register.isSome := by
  unfold operand
  cases b.register <;> cases naming <;> simp [h]

theorem exists_operands {bits : List Bit} (h : ∀ b ∈ bits, b.kind = .quantum) {naming : Naming} :
    (∃ os, operands bits naming = .ok os) ↔
      (naming = .flat → ∀ b ∈ bits, b.register.isSome) := by
  rw [operands, exists_mapM_eq_ok]
  constructor
  · intro hall hflat b hb
    exact (Bit.exists_operand_of_quantum (h b hb)).mp (hall b hb) hflat
  · intro hall b hb
    exact (Bit.exists_operand_of_quantum (h b hb)).mpr fun hflat => hall hflat b hb

namespace Condition

theorem exists_targetExpression {target : ConditionTarget} {c : Circuit} {naming : Naming} :
    (∃ left, targetExpression target c naming = .ok left) ↔ target.Testable c := by
  unfold targetExpression
  cases target with
  | register r =>
    by_cases hn : r.name = ""
    · simp [ConditionTarget.Testable, hn]
    · cases hr : c.register? r.name with
      | none => simp [ConditionTarget.Testable, hr, hn]
      | some declared =>
        by_cases hk : declared.kind = .classical <;> simp [ConditionTarget.Testable, hr, hn, hk]
  | bit b =>
    by_cases hk : b.kind = .classical
    · simp only [hk, if_true, ConditionTarget.Testable, true_and]
      rw [exists_bind_pure_eq_ok, Bit.exists_operand_of_classical hk]
    · simp [ConditionTarget.Testable, hk]

theorem exists_equality {cond : Condition} {c : Circuit} {naming : Naming} :
    (∃ test, cond.equality c naming = .ok test) ↔
      cond.comparison = .equal ∧ cond.target.Testable c := by
  unfold equality
  by_cases he : cond.comparison = .equal
  · simp only [he, if_true, true_and]
    rw [exists_bind_pure_eq_ok, exists_targetExpression]
  · simp [he]

end Condition

namespace Instruction
variable {i : Instruction} {c : Circuit} {s : Scope} {fold : Bool} {naming : Naming}

theorem exists_call (hplaced : c.WellPlaced i) (hknown : s.knows i.operation = true) :
    (∃ call, i.call s fold naming = .ok call) ↔
      (naming = .flat → ∀ q ∈ i.qubits, q.register.isSome) := by
  obtain ⟨name, hname⟩ := (s.knows_iff_resolve i.operation).mp hknown
  rw [← exists_operands fun b hb => (hplaced.qubits b hb).1]
  simp only [call, exists_bind_eq_ok, unlocated_eq_ok, located_eq_ok]
  simp [hname, pure, Except.pure]

theorem exists_measurement (hplaced : c.WellPlaced i) :
    (∃ st, i.measurement naming = .ok st) ↔
      (∃ q b, i.qubits = [q] ∧ i.clbits = [b] ∧ b.register.isSome) ∧
        (naming = .flat → ∀ q ∈ i.qubits, q.register.isSome) := by
  unfold measurement
  split
  · rename_i q b hq hb
    have hqubit : (∃ o, q.operand naming = .ok o) ↔ _ :=
      Bit.exists_operand_of_quantum (hplaced.qubits q (by simp [hq])).1
    have htarget : (∃ o, b.operand naming = .ok o) ↔ _ :=
      Bit.exists_operand_of_classical (hplaced.clbits b (by simp [hb])).1
    rw [exists_bind_eq_ok]
    simp only [exists_bind_pure_eq_ok, located_eq_ok, exists_and_right, hqubit, htarget]
    simp [hq, hb]
  · rename_i hwidth
    simp only [reduceCtorEq, exists_false, false_iff]
    rintro ⟨⟨q, b, hq, hb, -⟩, -⟩
    exact hwidth q b hq hb

/-- What is asked of an instruction of a known kind whose callee has a name. -/
theorem exists_unconditioned (hplaced : c.WellPlaced i)
    (hkind : i.operation.kind ∈ [.gate, .barrier, .measurement, .subroutine])
    (hknown : i.operation.IsCalled → s.knows i.operation = true) :
    (∃ st, i.unconditioned s fold naming = .ok st) ↔
      (i.operation.kind = .measurement →
        ∃ q b, i.qubits = [q] ∧ i.clbits = [b] ∧ b.register.isSome) ∧
      (naming = .flat → ∀ q ∈ i.qubits, q.register.isSome) := by
  unfold unconditioned
  cases hk : i.operation.kind with
  | gate =>
    dsimp only
    rw [exists_bind_pure_eq_ok, exists_call hplaced (hknown (.inl hk))]
    simp
  | subroutine =>
    dsimp only
    rw [exists_bind_pure_eq_ok, exists_call hplaced (hknown (.inr hk))]
    simp
  | barrier =>
    dsimp only
    rw [exists_bind_pure_eq_ok, ← exists_operands fun b hb => (hplaced.qubits b hb).1]
    simp only [located_eq_ok]
    simp
  | measurement => simpa using exists_measurement hplaced
  | outside code => simp [hk] at hkind

theorem exists_lower (hplaced : c.WellPlaced i) {options : Options}
    (hcollect : i.Collectable options)
    (hknown : i.operation.IsCalled → s.knows i.operation = true) :
    (∃ st, i.lower c s fold naming = .ok st) ↔ i.Exportable c options naming := by
  unfold lower
  cases hcond : i.condition with
  | none =>
    dsimp only
    rw [exists_unconditioned hplaced hcollect.kind hknown]
    constructor
    · rintro ⟨hm, hq⟩
      exact ⟨hcollect, by simp [hcond], hm, hq⟩
    · exact fun h => ⟨h.measurement, h.qubits⟩
  | some cond =>
    have hunguarded : c.WellPlaced i.unguarded :=
      ⟨hplaced.qubit_count, hplaced.clbit_count, hplaced.qubits, hplaced.clbits⟩
    dsimp only
    by_cases hb : i.operation.kind = .barrier
    · simp only [hb, if_true, reduceCtorEq, exists_false, false_iff]
      exact fun h => (h.condition cond hcond).1 hb
    · simp only [hb, if_false]
      rw [exists_bind_eq_ok]
      simp only [exists_bind_pure_eq_ok, located_eq_ok, exists_and_right]
      rw [Condition.exists_equality, exists_unconditioned hunguarded hcollect.kind hknown]
      constructor
      · rintro ⟨htest, hm, hq⟩
        refine ⟨hcollect, ?_, hm, hq⟩
        rintro other hother
        obtain rfl := Option.some.inj (hcond.symm.trans hother)
        exact ⟨hb, htest⟩
      · intro h
        exact ⟨(h.condition cond hcond).2, h.measurement, h.qubits⟩

end Instruction

theorem Definition.exists_lower {d : Definition} (hform : d.form = d.operation.form) {s : Scope}
    {fold : Bool} :
    (∃ g, d.lower s fold = .ok g) ↔
      ∀ b, d.operation.body = some b →
        checkRegisters b = .ok () ∧ ∃ sts, b.lowered s fold .flat = .ok sts := by
  have hbody {b : Circuit} {f : List Statement → ProgramItem} :
      (∃ g, (do unlocated (checkRegisters b); let sts ← b.lowered s fold .flat; pure (f sts)) =
        Except.ok g) ↔ checkRegisters b = .ok () ∧ ∃ sts, b.lowered s fold .flat = .ok sts := by
    rw [exists_bind_eq_ok]
    simp only [exists_bind_pure_eq_ok, unlocated_eq_ok, exists_and_right]
    exact and_congr_left fun _ => ⟨fun ⟨_, h⟩ => h, fun h => ⟨(), h⟩⟩
  unfold lower
  rw [hform, Operation.form]
  cases d.operation.body with
  | none => simp
  | some b =>
    simp only [Option.some.injEq, forall_eq']
    by_cases hk : d.operation.kind = .gate
    · simp only [hk, if_true]
      exact hbody
    · simp only [hk, if_false]
      exact hbody

/-- The walk for definitions stops at an instruction of unknown kind, and enters the operation of
a call that is not built in. -/
def Instruction.Listed (i : Instruction) (options : Options) : Prop :=
  (∃ code, i.operation.kind = .outside code) ∨
    (i.operation.IsCalled ∧ ¬ i.operation.Builtin options)

section
variable {options : Options} {provided : Operation → Bool}

theorem mem_postorder_self_of_uncalled {i : Instruction} (h : ¬ i.operation.IsCalled) :
    i ∈ i.postorder provided ↔ ∃ code, i.operation.kind = .outside code := by
  obtain ⟨⟨kind, name, qubitCount, clbitCount, params, body, standard, id⟩, _, _, _⟩ := i
  cases kind with
  | gate => exact absurd (.inl rfl) h
  | subroutine => exact absurd (.inr rfl) h
  | barrier => simp [Instruction.postorder]
  | measurement => simp [Instruction.postorder]
  | outside code => simp [Instruction.postorder]

variable (hprov : ∀ op, provided op = true ↔ op.Builtin options)
include hprov

theorem provided_eq_false {op : Operation} (h : ¬ op.Builtin options) : provided op = false := by
  rw [Bool.eq_false_iff, ne_eq, hprov]
  exact h

theorem Circuit.Enters.postorder_subset {c b : Circuit} (h : c.Enters options b) :
    postorder provided b.instructions ⊆ postorder provided c.instructions := by
  obtain ⟨i, hi, hcalled, hown, hb⟩ := h
  intro j hj
  apply mem_postorder.mpr
  use i, hi
  simp [postorder_of_called hcalled, provided_eq_false hprov hown, Operation.inner_of_body hb, hj]

/-- What the plain walk lists stands in the circuit or in a body that it reaches. -/
theorem exists_circuit_of_mem_postorder {c : Circuit} {i : Instruction}
    (h : i ∈ postorder provided c.instructions) :
    ∃ d, Relation.ReflTransGen (Circuit.Enters options) c d ∧ i ∈ d.instructions ∧
      i.Listed options := by
  obtain ⟨j, hj, hi⟩ := mem_postorder.mp h
  clear h
  induction j using Instruction.nested_induction generalizing c with
  | step j ih =>
    by_cases hcalled : j.operation.IsCalled
    · rw [postorder_of_called hcalled] at hi
      split at hi
      · simp at hi
      · rename_i hp
        have hown : ¬ j.operation.Builtin options := fun hb => hp ((hprov _).mpr hb)
        rcases List.mem_append.mp hi with hi | hi
        · -- further down: the walk of the body starts from a circuit that `c` enters
          obtain ⟨m, hm, him⟩ := mem_postorder.mp hi
          obtain ⟨b, hb⟩ := Option.ne_none_iff_exists'.mp (Operation.body_ne_none_of_mem hm)
          obtain ⟨d, hd, hrest⟩ := ih m hm (Operation.inner_of_body hb ▸ hm) him
          exact ⟨d, .head ⟨j, hj, hcalled, hown, hb⟩ hd, hrest⟩
        · obtain rfl := List.mem_singleton.mp hi
          exact ⟨c, .refl, hj, .inr ⟨hcalled, hown⟩⟩
    · obtain rfl := List.mem_singleton.mp (postorder_subset_of_uncalled hcalled hi)
      exact ⟨c, .refl, hj, .inl ((mem_postorder_self_of_uncalled hcalled).mp hi)⟩

/-- The plain walk misses nothing in the circuit and in the bodies that it reaches. -/
theorem mem_postorder_of_reaches {c d : Circuit}
    (h : Relation.ReflTransGen (Circuit.Enters options) c d) {i : Instruction}
    (hi : i ∈ d.instructions) (hlisted : i.Listed options) :
    i ∈ postorder provided c.instructions := by
  induction h using Relation.ReflTransGen.head_induction_on with
  | refl =>
    apply mem_postorder.mpr
    use i, hi
    rcases hlisted with ⟨code, hk⟩ | ⟨hcalled, hown⟩
    · apply (mem_postorder_self_of_uncalled _).mpr ⟨code, hk⟩
      simp [Operation.IsCalled, hk]
    · exact mem_postorder_self hcalled (provided_eq_false hprov hown)
  | head hb _ ih => exact hb.postorder_subset hprov ih

/-- The walk has no fault if it can pass all instructions of the circuit and of the bodies. -/
theorem faultless_iff {c : Circuit} :
    (∀ i ∈ postorder provided c.instructions, i.walkFault? = none) ↔
      ∀ d, Relation.ReflTransGen (Circuit.Enters options) c d →
        ∀ i ∈ d.instructions, i.Collectable options := by
  constructor
  · intro h d hd i hi
    have hfault := fun hlisted => h i (mem_postorder_of_reaches hprov hd hi hlisted)
    constructor
    · cases hk : i.operation.kind with
      | outside code => simpa [Instruction.walkFault?, hk] using hfault (.inl ⟨code, hk⟩)
      | _ => simp
    · intro hcalled hown hname
      simpa [Catalog.walkFault?_of_called hcalled, hname] using hfault (.inr ⟨hcalled, hown⟩)
  · intro h i hi
    obtain ⟨d, hd, hi, ⟨code, hk⟩ | ⟨hcalled, hown⟩⟩ :=
      exists_circuit_of_mem_postorder hprov hi
    · simpa [hk] using (h d hd i hi).kind
    · rw [Catalog.walkFault?_of_called hcalled]
      simp [(h d hd i hi).named hcalled hown]

end

theorem Circuit.operationsOf_subset_of_enters {options : Options} {c d : Circuit}
    (h : Relation.ReflTransGen (Enters options) c d) :
    operationsOf d.instructions ⊆ operationsOf c.instructions := by
  induction h with
  | refl => exact List.Subset.refl _
  | tail _ hstep ih =>
    obtain ⟨i, hi, -, -, hb⟩ := hstep
    rw [← Operation.inner_of_body hb]
    exact fun op hop => ih (operationsOf_inner_subset_of_mem hi hop)

theorem Catalog.exists_mem_of_enterAll (s : Scope) (is : List Instruction) :
    ∀ d ∈ ((ofScope s).enterAll is).catalog.definitions, ∃ i ∈ is, i.operation = d.operation := by
  apply enterAll_induction
    (P := fun k => ∀ d ∈ k.definitions, ∃ i ∈ is, i.operation = d.operation)
  · intro k i hi _ _ hk d hd
    rcases List.mem_append.mp hd with hd | hd
    · exact hk d hd
    · rw [List.mem_singleton.mp hd]
      exact ⟨i, hi, rfl⟩
  · intro d hd
    simp [ofScope] at hd

namespace Circuit.Assembled
variable {c d : Circuit} (hc : c.Assembled) {options : Options}
include hc

theorem regular (h : Relation.ReflTransGen (Enters options) c d) : d.Regular := by
  rcases Relation.ReflTransGen.cases_tail h with rfl | ⟨e, he, i, hi, -, -, hb⟩
  · exact hc.built.regular
  · have hop := operationsOf_subset_of_enters he (operation_mem_operationsOf hi)
    exact (hc.bodies i.operation hop d hb).regular

theorem collectAll_succeeds_iff :
    (∃ k, (Catalog.ofScope (c.globalScope options)).collectAll c.instructions = ⟨k, none⟩) ↔
      ∀ d, Relation.ReflTransGen (Enters options) c d →
        ∀ i ∈ d.instructions, i.Collectable options := by
  rw [← faultless_iff (fun _ => c.provides_globalScope),
    Catalog.collectAll_eq_enterAll hc.identified (c.ordered_globalScope options)
      (List.Subset.refl _), ← List.findSome?_eq_none_iff, ← Catalog.failure_enterAll]
  constructor
  · rintro ⟨k, hk⟩
    exact congrArg Collected.failure hk
  · intro h
    exact ⟨_, congrArg (Collected.mk _) h⟩

variable {k : Catalog}
  (hk : (Catalog.ofScope (c.globalScope options)).collectAll c.instructions = ⟨k, none⟩)
include hk

/-- All callees have names. -/
theorem knows (h : Relation.ReflTransGen (Enters options) c d) {i : Instruction}
    (hi : i ∈ d.instructions) (hcalled : i.operation.IsCalled) :
    k.scope.knows i.operation = true := by
  rw [(ordered_of_collectAll hk hc.identified).knows_iff,
    provides_of_collectAll hk hc.identified, c.provides_globalScope]
  by_cases hb : i.operation.Builtin options
  · exact .inl hb
  · have hwalk := mem_postorder_of_reaches (fun _ => c.provides_globalScope) h hi
      (.inr ⟨hcalled, hb⟩)
    exact .inr (known_of_collectAll hk hc.identified i hwalk).2

/-- What is asked of the circuit, or of a body that it reaches, once the catalog is filled. -/
theorem exportable_iff (h : Relation.ReflTransGen (Enters options) c d) {naming : Naming} :
    d.Exportable options naming ↔
      checkRegisters d = .ok () ∧ ∃ sts, d.lowered k.scope options.fold naming = .ok sts := by
  have hcollect := hc.collectAll_succeeds_iff.mp ⟨k, hk⟩ d h
  have hlower : (∃ sts, d.lowered k.scope options.fold naming = .ok sts) ↔
      ∀ i ∈ d.instructions, i.Exportable d options naming := by
    rw [lowered, exists_mapM_eq_ok]
    exact forall₂_congr fun i hi => Instruction.exists_lower ((hc.regular h).placed i hi)
      (hcollect i hi) (hc.knows hk h hi)
  rw [checkRegisters_eq_ok, hlower]
  exact ⟨fun h => ⟨h.registers, h.instructions⟩, fun h => ⟨h.1, h.2⟩⟩

/-- The bodies of the definitions are the bodies that the circuit reaches. -/
theorem defined_iff {b : Circuit} :
    (∃ e ∈ k.definitions, e.operation.body = some b) ↔ c.Reaches options b := by
  have hord := ordered_of_collectAll hk hc.identified
  have hprov (op : Operation) : (c.globalScope options).provides op = true ↔ _ :=
    c.provides_globalScope
  constructor
  · rintro ⟨e, he, hb⟩
    have hwalked := Catalog.exists_mem_of_enterAll (c.globalScope options)
      (postorder (c.globalScope options).provides c.instructions)
    rw [enterAll_of_collectAll hk hc.identified] at hwalked
    obtain ⟨i, hwalk, hop⟩ := hwalked e he
    obtain ⟨d, hd, hi, -⟩ := exists_circuit_of_mem_postorder hprov hwalk
    have hown : ¬ e.operation.Builtin options := by
      rw [← hprov, ← provides_of_collectAll hk hc.identified, hord.unprovided e he]
      simp
    rw [← hop] at hb hown
    exact .tail' hd ⟨i, hi, hop ▸ hord.called e he, hown, hb⟩
  · intro h
    obtain ⟨d, hd, i, hi, hcalled, hown, hb⟩ := Relation.TransGen.tail'_iff.mp h
    have hwalk := mem_postorder_of_reaches hprov hd hi (.inr ⟨hcalled, hown⟩)
    have hkey := (known_of_collectAll hk hc.identified i hwalk).2
    obtain ⟨before, e, after, hs, hekey⟩ := Catalog.Ordered.exists_definition hkey
    have he : e ∈ k.definitions := by simp [hs]
    -- an operation with a body is the only one of its key
    have heq : e.operation = i.operation :=
      hc.identified.eq_of_key
        (operationsOf_subset_of_enters hd (operation_mem_operationsOf hi)) (hord.mem e he)
        (by simp [hb]) hekey
    exact ⟨e, he, heq ▸ hb⟩

end Circuit.Assembled

theorem Session.exists_program {c : Circuit} {options : Options} {k : Catalog} :
    (∃ p, program c options k = .ok p) ↔
      (∀ d ∈ k.definitions, ∃ g, d.lower k.scope options.fold = .ok g) ∧
        ∃ sts, c.lowered k.scope options.fold .indexed = .ok sts := by
  rw [program, exists_bind_eq_ok, ← exists_mapM_eq_ok]
  simp only [exists_bind_pure_eq_ok, exists_and_right]

/-- A build succeeds if the registers, the walk and the program do. -/
theorem exists_toProgram {c : Circuit} {options : Options} :
    (∃ p, c.toProgram options = .ok p) ↔
      checkRegisters c = .ok () ∧
        ∃ k, (Catalog.ofScope (c.globalScope options)).collectAll c.instructions = ⟨k, none⟩ ∧
          ∃ p, Session.program c options k = .ok p := by
  unfold Circuit.toProgram Session.build
  split
  · rename_i fault hregisters
    change checkRegisters c = .error fault at hregisters
    simp [hregisters]
  · rename_i hregisters
    change checkRegisters c = .ok () at hregisters
    split
    · rename_i k e hk
      change (Catalog.ofScope (c.globalScope options)).collectAll c.instructions = _ at hk
      simp [hk]
    · rename_i k hk
      change (Catalog.ofScope (c.globalScope options)).collectAll c.instructions = _ at hk
      simp [hregisters, hk, Session.start]

/-- A circuit can be exported exactly if its own registers and instructions, and those of all
bodies that it reaches, can be. -/
theorem toProgram_succeeds_iff {c : Circuit} (hc : c.Assembled) (options : Options) :
    (∃ p, c.toProgram options = .ok p) ↔
      c.Exportable options .indexed ∧ ∀ b, c.Reaches options b → b.Exportable options .flat := by
  rw [exists_toProgram]
  constructor
  · rintro ⟨hregisters, k, hk, hp⟩
    obtain ⟨hdefinitions, hstatements⟩ := Session.exists_program.mp hp
    constructor
    · exact (hc.exportable_iff hk .refl).mpr ⟨hregisters, hstatements⟩
    · intro b hb
      obtain ⟨e, he, hbody⟩ := (hc.defined_iff hk).mpr hb
      have hform := (Circuit.ordered_of_collectAll hk hc.identified).form e he
      apply (hc.exportable_iff hk hb.to_reflTransGen).mpr
      exact (Definition.exists_lower hform).mp (hdefinitions e he) b hbody
  · rintro ⟨htop, hbodies⟩
    have hcollect : ∀ d, Relation.ReflTransGen (Circuit.Enters options) c d →
        ∀ i ∈ d.instructions, i.Collectable options := by
      intro d hd i hi
      rcases Relation.reflTransGen_iff_eq_or_transGen.mp hd with rfl | hd
      · exact (htop.instructions i hi).toCollectable
      · exact ((hbodies d hd).instructions i hi).toCollectable
    obtain ⟨k, hk⟩ := hc.collectAll_succeeds_iff.mpr hcollect
    obtain ⟨hregisters, hstatements⟩ := (hc.exportable_iff hk .refl).mp htop
    refine ⟨hregisters, k, hk, Session.exists_program.mpr ⟨?_, hstatements⟩⟩
    intro e he
    have hform := (Circuit.ordered_of_collectAll hk hc.identified).form e he
    apply (Definition.exists_lower hform).mpr
    intro b hb
    have hreaches := (hc.defined_iff hk).mp ⟨e, he, hb⟩
    exact (hc.exportable_iff hk hreaches.to_reflTransGen).mp (hbodies b hreaches)

/-- The nested circuit is exported, so the bodies of its subroutine and of the gate in it are in
order. -/
theorem Nested.circuit_accepted :
    circuit.Assembled ∧ (∃ p, circuit.toProgram .standard = .ok p) ∧
      circuit.Exportable .standard .indexed ∧
      chain.Exportable .standard .flat ∧ pair.Exportable .standard .flat := by
  have hassembled := circuit_fromFactories.assembled
  have hp : ∃ p, circuit.toProgram .standard = .ok p := ⟨_, rfl⟩
  obtain ⟨htop, hbodies⟩ := (toProgram_succeeds_iff hassembled .standard).mp hp
  have hchain : circuit.Enters .standard chain :=
    ⟨⟨chainCall, [q 1, q 0], [], some ⟨.register ⟨.classical, "c", 1⟩, .equal, 1⟩⟩,
      by simp [circuit], .inr rfl, by simp [Operation.Builtin, chainCall], rfl⟩
  have hpair : chain.Enters .standard pair :=
    ⟨⟨pairGate, [q 1, q 0], [], none⟩, by simp [chain], .inl rfl,
      by simp [Operation.Builtin, pairGate], rfl⟩
  exact ⟨hassembled, hp, htop, hbodies chain (.single hchain),
    hbodies pair ((Relation.TransGen.single hchain).tail hpair)⟩

end OpenQasm
