import OpenQasm.Export.Catalog

/-! Operations at any depth: none occurs in its own body. -/
namespace OpenQasm

mutual

/-- The operation of an instruction, then those of its body at any depth. -/
def Instruction.operations : Instruction → List Operation
  | ⟨⟨kind, name, qubitCount, clbitCount, params, body, standard, id⟩, _, _, _⟩ =>
    ⟨kind, name, qubitCount, clbitCount, params, body, standard, id⟩ :: bodyOperations body

def bodyOperations : Option Circuit → List Operation
  | none => []
  | some ⟨_, _, _, instructions⟩ => operationsOf instructions

/-- All operations that some instructions place, directly or in bodies. -/
def operationsOf : List Instruction → List Operation
  | [] => []
  | i :: rest => i.operations ++ operationsOf rest

end

/-- The instructions of an operation's body, none if it has no body. -/
def Operation.inner (op : Operation) : List Instruction := op.body.elim [] (·.instructions)

/-- Whether an instruction calls its operation, which then is provided or defined. -/
def Operation.IsCalled (op : Operation) : Prop := op.kind = .gate ∨ op.kind = .subroutine

theorem Operation.inner_of_body {op : Operation} {b : Circuit} (h : op.body = some b) :
    op.inner = b.instructions := by
  rw [inner, h, Option.elim_some]

theorem Operation.body_ne_none_of_mem {op : Operation} {i : Instruction} (h : i ∈ op.inner) :
    op.body ≠ none := by
  intro hn
  simp [inner, hn] at h

theorem Instruction.operations_eq (i : Instruction) :
    i.operations = i.operation :: operationsOf i.operation.inner := by
  obtain ⟨⟨kind, name, qubitCount, clbitCount, params, body, standard, id⟩, _, _, _⟩ := i
  rcases body with _ | ⟨_, _, _, instructions⟩ <;> rfl

@[simp] theorem operationsOf_nil : operationsOf [] = [] := rfl

@[simp] theorem operationsOf_cons (i : Instruction) (rest : List Instruction) :
    operationsOf (i :: rest) =
      i.operation :: (operationsOf i.operation.inner ++ operationsOf rest) := by
  rw [operationsOf, i.operations_eq, List.cons_append]

@[simp] theorem operationsOf_append (xs ys : List Instruction) :
    operationsOf (xs ++ ys) = operationsOf xs ++ operationsOf ys := by
  induction xs with
  | nil => rfl
  | cons i rest ih => simp [ih]

theorem mem_operationsOf {op : Operation} {is : List Instruction} :
    op ∈ operationsOf is ↔
      ∃ i ∈ is, op = i.operation ∨ op ∈ operationsOf i.operation.inner := by
  induction is with
  | nil => simp
  | cons i rest ih => simp [ih, or_assoc]

theorem operation_mem_operationsOf {i : Instruction} {is : List Instruction} (h : i ∈ is) :
    i.operation ∈ operationsOf is :=
  mem_operationsOf.mpr ⟨i, h, .inl rfl⟩

theorem operationsOf_inner_subset_of_mem {i : Instruction} {is : List Instruction}
    (h : i ∈ is) : operationsOf i.operation.inner ⊆ operationsOf is :=
  fun _ ho => mem_operationsOf.mpr ⟨i, h, .inr ho⟩

theorem sizeOf_lt_of_mem_inner {op : Operation} {i : Instruction} (h : i ∈ op.inner) :
    sizeOf i < sizeOf op := by
  obtain ⟨kind, name, qubitCount, clbitCount, params, body, standard, id⟩ := op
  rcases body with _ | ⟨_, _, _, instructions⟩
  · simp [Operation.inner] at h
  · have h : sizeOf i < sizeOf instructions := List.sizeOf_lt_of_mem h
    simp only [Operation.mk.sizeOf_spec, Option.some.sizeOf_spec, Circuit.mk.sizeOf_spec]
    omega

theorem sizeOf_operation_lt (i : Instruction) : sizeOf i.operation < sizeOf i := by
  obtain ⟨operation, _, _, _⟩ := i
  simp only [Instruction.mk.sizeOf_spec]
  omega

/-- What holds of an instruction whenever it holds of those in its body holds of every one. -/
theorem Instruction.nested_induction {P : Instruction → Prop}
    (step : ∀ i : Instruction, (∀ j ∈ i.operation.inner, P j) → P i) (i : Instruction) : P i := by
  induction hn : sizeOf i using Nat.strongRecOn generalizing i with
  | ind n ih =>
    apply step
    intro j hj
    have hlt := Nat.lt_trans (sizeOf_lt_of_mem_inner hj) (sizeOf_operation_lt i)
    exact ih (sizeOf j) (hn ▸ hlt) j rfl

/-- Bodies of operations at any depth place nothing new. -/
theorem operationsOf_inner_subset {op : Operation} {is : List Instruction}
    (h : op ∈ operationsOf is) : operationsOf op.inner ⊆ operationsOf is := by
  obtain ⟨i, hi, rfl | ho⟩ := mem_operationsOf.mp h
  · exact operationsOf_inner_subset_of_mem hi
  · suffices hs : operationsOf op.inner ⊆ operationsOf i.operation.inner from
      fun _ hx => operationsOf_inner_subset_of_mem hi (hs hx)
    clear h hi
    induction i using Instruction.nested_induction with
    | step i ih =>
      obtain ⟨j, hj, rfl | hin⟩ := mem_operationsOf.mp ho
      · exact operationsOf_inner_subset_of_mem hj
      · exact fun _ hx => operationsOf_inner_subset_of_mem hj (ih j hj hin hx)

theorem sizeOf_lt_of_mem_operationsOf_inner {op nested : Operation}
    (h : nested ∈ operationsOf op.inner) : sizeOf nested < sizeOf op := by
  obtain ⟨i, hi, ho⟩ := mem_operationsOf.mp h
  have hlt := sizeOf_lt_of_mem_inner hi
  clear hi h
  induction i using Instruction.nested_induction generalizing op with
  | step i ih =>
    have hop := sizeOf_operation_lt i
    rcases ho with rfl | ho
    · omega
    · obtain ⟨j, hj, hin⟩ := mem_operationsOf.mp ho
      have := ih j hj hin (sizeOf_lt_of_mem_inner hj)
      omega

theorem notMem_operationsOf_inner (op : Operation) : op ∉ operationsOf op.inner :=
  fun h => Nat.lt_irrefl _ (sizeOf_lt_of_mem_operationsOf_inner h)

/-- Equal identities mean equal operations, and a standard gate has no body. -/
structure Identified (ops : List Operation) : Prop where
  eq_of_id : ∀ a ∈ ops, ∀ b ∈ ops, a.id = b.id → a = b
  standard_bodiless : ∀ a ∈ ops, a.standard.isSome → a.body = none

theorem Operation.key_of_standard {op : Operation} {g : StandardGate}
    (h : op.standard = some g) : op.key = .standard op.name := by
  simp [key, h]

theorem Operation.key_of_custom {op : Operation} (h : op.standard = none) :
    op.key = .custom op.id := by
  simp [key, h]

/-- Two operations have one key if they are standard gates of one name, or neither is a standard
gate and they have one identity. -/
theorem Operation.key_eq_key {a b : Operation} (h : b.key = a.key) :
    (a.standard.isSome ∧ b.standard.isSome ∧ b.name = a.name) ∨
      (a.standard = none ∧ b.standard = none ∧ b.id = a.id) := by
  cases hs : a.standard with
  | none =>
    cases ht : b.standard with
    | none =>
      rw [key_of_custom hs, key_of_custom ht] at h
      exact .inr ⟨rfl, rfl, OperationKey.custom.inj h⟩
    | some g => simp [key_of_custom hs, key_of_standard ht] at h
  | some f =>
    cases ht : b.standard with
    | none => simp [key_of_standard hs, key_of_custom ht] at h
    | some g =>
      rw [key_of_standard hs, key_of_standard ht] at h
      exact .inl ⟨rfl, rfl, OperationKey.standard.inj h⟩

namespace Identified
variable {ops : List Operation}

/-- The key of an operation with a body is the key of no other operation. -/
theorem eq_of_key (h : Identified ops) {a b : Operation} (ha : a ∈ ops) (hb : b ∈ ops)
    (hbody : a.body ≠ none) (hkey : b.key = a.key) : b = a := by
  rcases Operation.key_eq_key hkey with ⟨hs, -, -⟩ | ⟨-, -, hid⟩
  · exact absurd (h.standard_bodiless a ha hs) hbody
  · exact h.eq_of_id b hb a ha hid

/-- No scope provides an operation that has a body. -/
theorem provides_of_body (h : Identified ops) {op : Operation} (hop : op ∈ ops)
    (hbody : op.body ≠ none) (s : Scope) : s.provides op = false := by
  have hstd : op.standard = none := by
    rw [← Option.not_isSome_iff_eq_none]
    exact fun hs => hbody (h.standard_bodiless op hop hs)
  simp [Scope.provides, hstd]

/-- A key tells the name of its operation. -/
theorem name_eq_of_key (h : Identified ops) {a b : Operation} (ha : a ∈ ops) (hb : b ∈ ops)
    (hkey : b.key = a.key) : b.name = a.name := by
  rcases Operation.key_eq_key hkey with ⟨-, -, hname⟩ | ⟨-, -, hid⟩
  · exact hname
  · rw [h.eq_of_id b hb a ha hid]

theorem key_ne_of_mem_inner (h : Identified ops) {op nested : Operation} (hop : op ∈ ops)
    (hnested : nested ∈ ops) (hmem : nested ∈ operationsOf op.inner) : nested.key ≠ op.key := by
  intro hkey
  obtain ⟨i, hi, -⟩ := mem_operationsOf.mp hmem
  obtain rfl := h.eq_of_key hop hnested (Operation.body_ne_none_of_mem hi) hkey
  exact notMem_operationsOf_inner _ hmem

end Identified
end OpenQasm
