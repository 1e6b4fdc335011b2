import OpenQasm.Proofs.Nesting

/-! The collecting walk comes to the same definitions as the plain walk, which skips no body. -/
namespace OpenQasm

mutual

/-- An instruction that needs a definition, after those of its body. Barriers, measurements and
provided operations need none; an instruction of unknown kind stands alone. -/
def Instruction.postorder (provided : Operation → Bool) : Instruction → List Instruction
  | ⟨⟨kind, name, qubitCount, clbitCount, params, body, standard, id⟩, qubits, clbits,
      condition⟩ =>
    let op : Operation := ⟨kind, name, qubitCount, clbitCount, params, body, standard, id⟩
    match kind with
    | .barrier => []
    | .measurement => []
    | .outside _ => [⟨op, qubits, clbits, condition⟩]
    | .gate =>
      if provided op then []
      else bodyPostorder provided body ++ [⟨op, qubits, clbits, condition⟩]
    | .subroutine =>
      if provided op then []
      else bodyPostorder provided body ++ [⟨op, qubits, clbits, condition⟩]

def bodyPostorder (provided : Operation → Bool) : Option Circuit → List Instruction
  | none => []
  | some ⟨_, _, _, instructions⟩ => postorder provided instructions

/-- The plain walk through some instructions. -/
def postorder (provided : Operation → Bool) : List Instruction → List Instruction
  | [] => []
  | i :: rest => i.postorder provided ++ postorder provided rest

end

/-- Why the walk ends at an instruction that it lists, if it does. -/
def Instruction.walkFault? (i : Instruction) : Option ExportFailure :=
  match i.operation.kind with
  | .outside _ => some (.inside .unknownKind i)
  | kind => if i.operation.name.isEmpty then some (.general (.unnamedOperation kind)) else none

/-- The operations of a walk up to the first fault. -/
def operationsBeforeFault (walk : List Instruction) : List Operation :=
  (walk.takeWhile fun i => i.walkFault?.isNone).map (·.operation)

/-- The first operation of each key that is not among those `seen`. -/
def firstByKey (seen : List OperationKey) : List Operation → List Operation
  | [] => []
  | op :: rest =>
    if op.key ∈ seen then firstByKey seen rest else op :: firstByKey (seen ++ [op.key]) rest

section
variable {provided : Operation → Bool}

theorem postorder_of_called {i : Instruction} (h : i.operation.IsCalled) :
    i.postorder provided =
      if provided i.operation then [] else postorder provided i.operation.inner ++ [i] := by
  obtain ⟨⟨kind, name, qubitCount, clbitCount, params, body, standard, id⟩, _, _, _⟩ := i
  obtain rfl | rfl : kind = .gate ∨ kind = .subroutine := h <;>
    rcases body with _ | ⟨_, _, _, instructions⟩ <;> rfl

theorem postorder_subset_of_uncalled {i : Instruction} (h : ¬ i.operation.IsCalled) :
    i.postorder provided ⊆ [i] := by
  obtain ⟨⟨kind, name, qubitCount, clbitCount, params, body, standard, id⟩, _, _, _⟩ := i
  cases kind with
  | gate => exact absurd (.inl rfl) h
  | subroutine => exact absurd (.inr rfl) h
  | barrier => exact List.nil_subset _
  | measurement => exact List.nil_subset _
  | outside code => exact List.Subset.refl _

@[simp] theorem postorder_nil : postorder provided [] = [] := rfl

@[simp] theorem postorder_cons (i : Instruction) (rest : List Instruction) :
    postorder provided (i :: rest) = i.postorder provided ++ postorder provided rest := rfl

theorem mem_postorder {i : Instruction} {is : List Instruction} :
    i ∈ postorder provided is ↔ ∃ j ∈ is, i ∈ j.postorder provided := by
  induction is with
  | nil => simp
  | cons j rest ih => simp [ih]

end

/-- How an operation is defined. -/
def Operation.form (op : Operation) : DefinitionForm :=
  match op.body with
  | none => .bodiless
  | some b => if op.kind = .gate then .gate b else .subroutine b

theorem Operation.body_of_form {op : Operation} {form : DefinitionForm} {b : Circuit}
    (h : op.form = form) (hf : form = .gate b ∨ form = .subroutine b) : op.body = some b := by
  subst h
  unfold Operation.form at hf
  cases hb : op.body with
  | none => simp [hb] at hf
  | some body =>
    rw [hb] at hf
    dsimp only at hf
    split at hf <;> simp_all

theorem Operation.body_none_of_form {op : Operation} (h : op.form = .bodiless) :
    op.body = none := by
  unfold Operation.form at h
  cases hb : op.body with
  | none => rfl
  | some body =>
    rw [hb] at h
    dsimp only at h
    split at h <;> simp at h

namespace Catalog

def keys (k : Catalog) : List OperationKey := k.definitions.map (·.operation.key)

/-- The catalog with a definition of the operation in the next slot. -/
def enter (k : Catalog) (op : Operation) : Catalog :=
  let name := k.scope.freshName op.name
  { scope := { k.scope with entries := k.scope.entries ++ [⟨op.key, name⟩] }
    definitions := k.definitions ++ [⟨op, op.form, name⟩] }

/-- Enters the operations of a walk in order, each key once, up to the first fault. -/
def enterAll (k : Catalog) : List Instruction → Collected
  | [] => ⟨k, none⟩
  | i :: rest =>
    match i.walkFault? with
    | some e => ⟨k, some e⟩
    | none =>
      if i.operation.key ∈ k.keys then k.enterAll rest
      else (k.enter i.operation).enterAll rest

@[simp] theorem keys_enter (k : Catalog) (op : Operation) :
    (k.enter op).keys = k.keys ++ [op.key] := by
  simp [keys, enter]

theorem enterAll_append (k : Catalog) (xs ys : List Instruction) :
    k.enterAll (xs ++ ys) =
      match k.enterAll xs with
      | ⟨next, none⟩ => next.enterAll ys
      | failed => failed := by
  induction xs generalizing k with
  | nil => rfl
  | cons i rest ih =>
    rw [List.cons_append, enterAll, enterAll]
    cases i.walkFault? with
    | some e => rfl
    | none =>
      dsimp only
      split
      · exact ih k
      · exact ih _

/-- A walk through what is registered already adds nothing. -/
theorem enterAll_of_known {k : Catalog} {is : List Instruction}
    (h : ∀ i ∈ is, i.walkFault? = none ∧ i.operation.key ∈ k.keys) :
    k.enterAll is = ⟨k, none⟩ := by
  induction is with
  | nil => rfl
  | cons i rest ih =>
    obtain ⟨hf, hk⟩ := h i List.mem_cons_self
    rw [enterAll, hf]
    simpa only [hk, if_true] using ih fun j hj => h j (List.mem_cons_of_mem i hj)

theorem provides_enterAll (k : Catalog) (is : List Instruction) :
    (k.enterAll is).catalog.scope.provides = k.scope.provides := by
  fun_induction enterAll k is with
  | case1 => rfl
  | case2 => rfl
  | case3 k i rest hf hk ih => exact ih
  | case4 k i rest hf hk ih => exact ih

/-- What each entry keeps, a whole walk keeps. -/
theorem enterAll_induction {P : Catalog → Prop} {is : List Instruction}
    (step : ∀ k, ∀ i ∈ is, i.walkFault? = none → i.operation.key ∉ k.keys → P k →
      P (k.enter i.operation))
    {k : Catalog} (h : P k) : P (k.enterAll is).catalog := by
  induction is generalizing k with
  | nil => exact h
  | cons i rest ih =>
    have hrest := fun k j hj => step k j (List.mem_cons_of_mem i hj)
    rw [enterAll]
    cases hf : i.walkFault? with
    | some e => exact h
    | none =>
      dsimp only
      split
      · exact ih hrest h
      · rename_i hk
        exact ih hrest (step k i List.mem_cons_self hf hk h)

theorem keys_subset_enterAll (k : Catalog) (is : List Instruction) :
    k.keys ⊆ (k.enterAll is).catalog.keys := by
  apply enterAll_induction (P := fun next => k.keys ⊆ next.keys)
  · intro next i _ _ _ hn key hkey
    simp [hn hkey]
  · exact fun _ hkey => hkey

/-- A walk without a fault registers all it lists. -/
theorem enterAll_known {k next : Catalog} {is : List Instruction}
    (h : k.enterAll is = ⟨next, none⟩) :
    ∀ i ∈ is, i.walkFault? = none ∧ i.operation.key ∈ next.keys := by
  induction is generalizing k with
  | nil => simp
  | cons i rest ih =>
    rw [enterAll] at h
    cases hf : i.walkFault? with
    | some e => simp [hf] at h
    | none =>
      rw [hf] at h
      dsimp only at h
      intro j hj
      split at h
      · rename_i hk
        rcases List.mem_cons.mp hj with rfl | hj
        · have hs := keys_subset_enterAll k rest hk
          rw [h] at hs
          exact ⟨hf, hs⟩
        · exact ih h j hj
      · rcases List.mem_cons.mp hj with rfl | hj
        · have hs := keys_subset_enterAll (k.enter j.operation) rest
          rw [h] at hs
          exact ⟨hf, hs (by simp)⟩
        · exact ih h j hj

/-- Each definition is of an operation that needs one, with a slot and a key of its own, after
the definitions of all that its body calls. -/
structure Ordered (ops : List Operation) (k : Catalog) : Prop where
  entries : k.scope.entries = k.definitions.map fun d => ⟨d.operation.key, d.name⟩
  distinct : k.keys.Nodup
  mem : ∀ d ∈ k.definitions, d.operation ∈ ops
  called : ∀ d ∈ k.definitions, d.operation.IsCalled
  unprovided : ∀ d ∈ k.definitions, k.scope.provides d.operation = false
  named : ∀ d ∈ k.definitions, d.operation.name.isEmpty = false
  form : ∀ d ∈ k.definitions, d.form = d.operation.form
  bodies : ∀ before d after, k.definitions = before ++ d :: after →
    ∀ i ∈ postorder k.scope.provides d.operation.inner,
      i.walkFault? = none ∧ i.operation.key ∈ before.map (·.operation.key)

theorem ordered_ofScope (ops : List Operation) {s : Scope} (h : s.entries = []) :
    Ordered ops (ofScope s) where
  entries := h
  distinct := List.nodup_nil
  mem _ hd := absurd hd List.not_mem_nil
  called _ hd := absurd hd List.not_mem_nil
  unprovided _ hd := absurd hd List.not_mem_nil
  named _ hd := absurd hd List.not_mem_nil
  form _ hd := absurd hd List.not_mem_nil
  bodies before d after hs := by simp [ofScope] at hs

theorem walkFault?_of_called {i : Instruction} (h : i.operation.IsCalled) :
    i.walkFault? =
      if i.operation.name.isEmpty then some (.general (.unnamedOperation i.operation.kind))
      else none := by
  rcases h with h | h <;> simp [Instruction.walkFault?, h]

namespace Ordered
variable {ops : List Operation} {k : Catalog}

theorem slot?_isSome (h : Ordered ops k) (op : Operation) :
    (k.scope.slot? op).isSome = true ↔ op.key ∈ k.keys := by
  rw [Scope.slot?, h.entries, List.findIdx?_isSome]
  simp [keys]

theorem knows_iff (h : Ordered ops k) (op : Operation) :
    k.scope.knows op = true ↔ k.scope.provides op = true ∨ op.key ∈ k.keys := by
  rw [Scope.knows, Bool.or_eq_true, h.slot?_isSome]

/-- The definition of a key. -/
theorem exists_definition {key : OperationKey} (hkey : key ∈ k.keys) :
    ∃ before d after, k.definitions = before ++ d :: after ∧ d.operation.key = key := by
  obtain ⟨d, hd, hk⟩ := List.mem_map.mp hkey
  obtain ⟨before, after, hs⟩ := List.append_of_mem hd
  exact ⟨before, d, after, hs, hk⟩

/-- The body of a registered operation is registered. -/
theorem body_known (h : Ordered ops k) (hops : Identified ops) {op : Operation} (hop : op ∈ ops)
    (hkey : op.key ∈ k.keys) :
    ∀ i ∈ postorder k.scope.provides op.inner,
      i.walkFault? = none ∧ i.operation.key ∈ k.keys := by
  intro i hi
  obtain ⟨before, d, after, hs, hk⟩ := exists_definition hkey
  obtain ⟨j, hj, -⟩ := mem_postorder.mp hi
  have hbody := Operation.body_ne_none_of_mem hj
  have hd : d.operation ∈ ops := h.mem d (by simp [hs])
  have heq : d.operation = op := hops.eq_of_key hop hd hbody hk
  obtain ⟨hf, hin⟩ := h.bodies before d after hs i (heq ▸ hi)
  refine ⟨hf, ?_⟩
  simp only [keys, hs, List.map_append, List.mem_append]
  exact .inl hin

theorem name_of_known (h : Ordered ops k) (hops : Identified ops) {op : Operation}
    (hop : op ∈ ops) (hkey : op.key ∈ k.keys) : op.name.isEmpty = false := by
  obtain ⟨before, d, after, hs, hk⟩ := exists_definition hkey
  have hd : d ∈ k.definitions := by simp [hs]
  rw [← hops.name_eq_of_key hop (h.mem d hd) hk]
  exact h.named d hd

/-- Entering an operation whose body is registered keeps the order. -/
theorem enter (h : Ordered ops k) {op : Operation} (hop : op ∈ ops) (hcalled : op.IsCalled)
    (hprov : k.scope.provides op = false) (hname : op.name.isEmpty = false)
    (hnew : op.key ∉ k.keys)
    (hbody : ∀ i ∈ postorder k.scope.provides op.inner,
      i.walkFault? = none ∧ i.operation.key ∈ k.keys) :
    Ordered ops (k.enter op) := by
  have hall {P : Definition → Prop} (hold : ∀ d ∈ k.definitions, P d)
      (hlast : P ⟨op, op.form, k.scope.freshName op.name⟩) :
      ∀ d ∈ (k.enter op).definitions, P d := by
    intro d hd
    rcases List.mem_append.mp hd with hd | hd
    · exact hold d hd
    · rw [List.mem_singleton.mp hd]
      exact hlast
  refine ⟨?_, ?_, hall h.mem hop, hall h.called hcalled, hall h.unprovided hprov,
    hall h.named hname, hall h.form rfl, ?_⟩
  · simp [Catalog.enter, h.entries]
  · rw [keys_enter, List.nodup_append]
    refine ⟨h.distinct, by simp, ?_⟩
    intro a ha b hb
    rw [List.mem_singleton.mp hb]
    exact fun he => hnew (he ▸ ha)
  · intro before d after hs
    rcases List.eq_nil_or_concat after with rfl | ⟨rest, last, rfl⟩
    · obtain ⟨rfl, hd⟩ := List.append_inj' hs rfl
      obtain rfl := (List.cons.inj hd).1
      exact hbody
    · rw [List.concat_eq_append, ← List.cons_append, ← List.append_assoc] at hs
      exact h.bodies before d rest (List.append_inj' hs rfl).1

end Ordered

theorem define_unnamed {k : Catalog} {op : Operation} {form : DefinitionForm}
    (hknown : k.scope.knows op = false) (hname : op.name.isEmpty = true) :
    k.define op form = ⟨k, some (.general (.unnamedOperation op.kind))⟩ := by
  simp [define_eq, Scope.register_eq, hknown, hname]

theorem define_new {k : Catalog} {op : Operation} (hknown : k.scope.knows op = false)
    (hname : op.name.isEmpty = false) : k.define op op.form = ⟨k.enter op, none⟩ := by
  simp [define_eq, Scope.register_eq, Scope.enrol, hknown, hname, enter]

/-- Defining an operation that is not known is the last step of its plain walk. -/
theorem define_eq_enterAll {ops : List Operation} {k : Catalog} (h : Ordered ops k)
    {i : Instruction} (hcalled : i.operation.IsCalled)
    (hprov : k.scope.provides i.operation = false) (hnew : i.operation.key ∉ k.keys) :
    k.define i.operation i.operation.form = k.enterAll [i] := by
  have hknown : k.scope.knows i.operation = false := by
    rw [Bool.eq_false_iff, ne_eq, h.knows_iff]
    simp [hprov, hnew]
  rw [enterAll, walkFault?_of_called hcalled]
  cases hname : i.operation.name.isEmpty with
  | true => simp [define_unnamed hknown hname]
  | false => simp [define_new hknown hname, hnew, enterAll]

theorem collect_of_uncalled {k : Catalog} {i : Instruction} (h : ¬ i.operation.IsCalled) :
    k.collect i = k.enterAll (i.postorder k.scope.provides) ∧ (k.collect i).catalog = k := by
  obtain ⟨⟨kind, name, qubitCount, clbitCount, params, body, standard, id⟩, _, _, _⟩ := i
  cases kind with
  | gate => exact absurd (.inl rfl) h
  | subroutine => exact absurd (.inr rfl) h
  | barrier => exact ⟨rfl, rfl⟩
  | measurement => exact ⟨rfl, rfl⟩
  | outside code => exact ⟨rfl, rfl⟩

theorem collect_of_called {k : Catalog} {i : Instruction} (h : i.operation.IsCalled) :
    k.collect i =
      if k.scope.knows i.operation then ⟨k, none⟩
      else match k.collectAll i.operation.inner with
        | ⟨inner, none⟩ => inner.define i.operation i.operation.form
        | failed => failed := by
  obtain ⟨⟨kind, name, qubitCount, clbitCount, params, body, standard, id⟩, _, _, _⟩ := i
  obtain rfl | rfl : kind = .gate ∨ kind = .subroutine := h <;>
    rcases body with _ | ⟨_, _, _, instructions⟩ <;> rfl

theorem collect_uncalled_cases {k : Catalog} {i : Instruction} (h : ¬ i.operation.IsCalled) :
    (k.collect i = ⟨k, none⟩ ∧ ∀ code, i.operation.kind ≠ .outside code) ∨
      (k.collect i = ⟨k, some (.inside .unknownKind i)⟩ ∧
        ∃ code, i.operation.kind = .outside code) := by
  obtain ⟨⟨kind, name, qubitCount, clbitCount, params, body, standard, id⟩, _, _, _⟩ := i
  cases kind with
  | gate => exact absurd (.inl rfl) h
  | subroutine => exact absurd (.inr rfl) h
  | barrier => exact .inl ⟨rfl, nofun⟩
  | measurement => exact .inl ⟨rfl, nofun⟩
  | outside code => exact .inr ⟨rfl, code, rfl⟩

/-- A walk through some instructions from a catalog, and what it has collected in the end. The body
of an operation is entered if the scope does not know the operation, which is defined after that;
the first failure ends the walk. -/
inductive Walk : Catalog → List Instruction → Collected → Prop
  | nil (k : Catalog) : Walk k [] ⟨k, none⟩
  | cons {k next : Catalog} {i : Instruction} {rest : List Instruction} {r : Collected}
      (first : Walk k [i] ⟨next, none⟩) (others : Walk next rest r) : Walk k (i :: rest) r
  | halt {k next : Catalog} {i : Instruction} {rest : List Instruction} {e : ExportFailure}
      (first : Walk k [i] ⟨next, some e⟩) : Walk k (i :: rest) ⟨next, some e⟩
  | known {k : Catalog} {i : Instruction} (called : i.operation.IsCalled)
      (known : k.scope.knows i.operation = true) : Walk k [i] ⟨k, none⟩
  | define {k next : Catalog} {i : Instruction} (called : i.operation.IsCalled)
      (unknown : k.scope.knows i.operation = false)
      (body : Walk k i.operation.inner ⟨next, none⟩) :
      Walk k [i] (next.define i.operation i.operation.form)
  | haltInside {k next : Catalog} {i : Instruction} {e : ExportFailure}
      (called : i.operation.IsCalled) (unknown : k.scope.knows i.operation = false)
      (body : Walk k i.operation.inner ⟨next, some e⟩) : Walk k [i] ⟨next, some e⟩
  | pass {k : Catalog} {i : Instruction} (uncalled : ¬ i.operation.IsCalled)
      (kind : ∀ code, i.operation.kind ≠ .outside code) : Walk k [i] ⟨k, none⟩
  | unknownKind {k : Catalog} {i : Instruction}
      (kind : ∃ code, i.operation.kind = .outside code) :
      Walk k [i] ⟨k, some (.inside .unknownKind i)⟩

theorem walk_collectAll_of {is : List Instruction}
    (hstep : ∀ i ∈ is, ∀ k : Catalog, k.Walk [i] (k.collect i)) (k : Catalog) :
    k.Walk is (k.collectAll is) := by
  induction is generalizing k with
  | nil => exact .nil k
  | cons i rest ih =>
    have hfirst := hstep i List.mem_cons_self k
    rw [collectAll]
    rcases hcollect : k.collect i with ⟨next, _ | e⟩ <;> rw [hcollect] at hfirst
    · exact .cons hfirst (ih (fun j hj => hstep j (List.mem_cons_of_mem i hj)) next)
    · exact .halt hfirst

theorem walk_collect (k : Catalog) (i : Instruction) : k.Walk [i] (k.collect i) := by
  induction i using Instruction.nested_induction generalizing k with
  | step i ih =>
    by_cases hcalled : i.operation.IsCalled
    · rw [collect_of_called hcalled]
      split
      · rename_i hknown
        exact .known hcalled hknown
      · rename_i hnew
        have hunknown := Bool.eq_false_iff.mpr hnew
        have hbody := walk_collectAll_of (fun j hj k => ih j hj k) k
        rcases hcollect : k.collectAll i.operation.inner with ⟨next, _ | e⟩ <;>
          rw [hcollect] at hbody
        · exact .define hcalled hunknown hbody
        · exact .haltInside hcalled hunknown hbody
    · obtain ⟨hcollect, hkind⟩ | ⟨hcollect, hkind⟩ := collect_uncalled_cases hcalled <;>
        rw [hcollect]
      · exact .pass hcalled hkind
      · exact .unknownKind hkind

theorem walk_collectAll (k : Catalog) (is : List Instruction) : k.Walk is (k.collectAll is) :=
  walk_collectAll_of (fun i _ k => walk_collect k i) k

theorem mem_of_mem_postorder {provided : Operation → Bool} {is : List Instruction}
    {i : Instruction} (h : i ∈ postorder provided is) : i.operation ∈ operationsOf is := by
  obtain ⟨j, hj, hi⟩ := mem_postorder.mp h
  suffices hm : i.operation ∈ j.operations by
    rw [j.operations_eq, List.mem_cons] at hm
    exact mem_operationsOf.mpr ⟨j, hj, hm⟩
  clear h hj
  induction j using Instruction.nested_induction with
  | step j ih =>
    rw [j.operations_eq]
    by_cases hc : j.operation.IsCalled
    · rw [postorder_of_called hc] at hi
      split at hi
      · simp at hi
      · rcases List.mem_append.mp hi with hi | hi
        · obtain ⟨m, hm, him⟩ := mem_postorder.mp hi
          have := ih m hm him
          rw [m.operations_eq, List.mem_cons] at this
          exact List.mem_cons_of_mem _ (mem_operationsOf.mpr ⟨m, hm, this⟩)
        · rw [List.mem_singleton.mp hi]
          exact List.mem_cons_self
    · rw [List.mem_singleton.mp (postorder_subset_of_uncalled hc hi)]
      exact List.mem_cons_self

theorem mem_keys_enterAll {k : Catalog} {is : List Instruction} {key : OperationKey}
    (h : key ∈ (k.enterAll is).catalog.keys) :
    key ∈ k.keys ∨ ∃ i ∈ is, i.operation.key = key := by
  refine enterAll_induction (P := fun next => key ∈ next.keys →
    key ∈ k.keys ∨ ∃ i ∈ is, i.operation.key = key) ?_ .inl h
  intro next i hi _ _ hn hkey
  rw [keys_enter, List.mem_append, List.mem_singleton] at hkey
  rcases hkey with hkey | rfl
  · exact hn hkey
  · exact .inr ⟨i, hi, rfl⟩

/-- The walk that collects does with an instruction what the plain walk does. -/
def Agrees (ops : List Operation) (i : Instruction) : Prop :=
  ∀ k, Ordered ops k → i.operation ∈ ops → operationsOf i.operation.inner ⊆ ops →
    k.collect i = k.enterAll (i.postorder k.scope.provides) ∧ Ordered ops (k.collect i).catalog

theorem collectAll_of_agrees {ops : List Operation} {is : List Instruction}
    (hagree : ∀ i ∈ is, Agrees ops i) {k : Catalog} (h : Ordered ops k)
    (hsub : operationsOf is ⊆ ops) :
    k.collectAll is = k.enterAll (postorder k.scope.provides is) ∧
      Ordered ops (k.collectAll is).catalog := by
  induction is generalizing k with
  | nil => exact ⟨rfl, h⟩
  | cons i rest ih =>
    have hi := List.mem_cons_self (a := i) (l := rest)
    obtain ⟨heq, hord⟩ := hagree i hi k h (hsub (operation_mem_operationsOf hi))
      fun _ ho => hsub (operationsOf_inner_subset_of_mem hi ho)
    have hprov := provides_enterAll k (i.postorder k.scope.provides)
    rw [collectAll, postorder_cons, enterAll_append, ← heq]
    rw [← heq] at hprov
    rcases hr : k.collect i with ⟨next, _ | e⟩
    · rw [hr] at hord hprov
      have := ih (fun j hj => hagree j (List.mem_cons_of_mem i hj)) hord
        fun _ ho => hsub (by simp [ho])
      rwa [hprov] at this
    · rw [hr] at hord
      exact ⟨rfl, hord⟩

theorem Ordered.enterAll_single {ops : List Operation} {k : Catalog} (h : Ordered ops k)
    {i : Instruction} (hop : i.operation ∈ ops) (hc : i.operation.IsCalled)
    (hprov : k.scope.provides i.operation = false)
    (hbody : ∀ j ∈ postorder k.scope.provides i.operation.inner,
      j.walkFault? = none ∧ j.operation.key ∈ k.keys) :
    Ordered ops (k.enterAll [i]).catalog := by
  rw [enterAll]
  cases hf : i.walkFault? with
  | some e => exact h
  | none =>
    have hname : i.operation.name.isEmpty = false := by
      rw [walkFault?_of_called hc] at hf
      simpa using hf
    dsimp only
    split
    · exact h
    · rename_i hnew
      exact h.enter hop hc hprov hname hnew hbody

theorem agrees {ops : List Operation} (hops : Identified ops) (i : Instruction) :
    Agrees ops i := by
  induction i using Instruction.nested_induction with
  | step i ih =>
    intro k h hop hsub
    by_cases hc : i.operation.IsCalled
    case neg =>
      obtain ⟨heq, hk⟩ := collect_of_uncalled (k := k) hc
      exact ⟨heq, hk.symm ▸ h⟩
    rw [collect_of_called hc, postorder_of_called hc]
    by_cases hknown : k.scope.knows i.operation = true
    · rw [if_pos hknown]
      refine ⟨?_, h⟩
      split
      · rfl
      · rename_i hprov
        have hkey := ((h.knows_iff _).mp hknown).resolve_left hprov
        symm
        apply enterAll_of_known
        intro j hj
        rcases List.mem_append.mp hj with hj | hj
        · exact h.body_known hops hop hkey j hj
        · rw [List.mem_singleton.mp hj, walkFault?_of_called hc, h.name_of_known hops hop hkey]
          exact ⟨rfl, hkey⟩
    · rw [if_neg hknown]
      rw [h.knows_iff, not_or] at hknown
      obtain ⟨hprov, hnew⟩ := hknown
      obtain ⟨heq, hord⟩ := collectAll_of_agrees ih h hsub
      have hinner := provides_enterAll k (postorder k.scope.provides i.operation.inner)
      rw [if_neg hprov, enterAll_append, ← heq]
      rw [← heq] at hinner
      rcases hr : k.collectAll i.operation.inner with ⟨inner, _ | e⟩
      · rw [hr] at hord hinner heq
        have hprov : inner.scope.provides i.operation = false := by simpa [hinner] using hprov
        have hbody := enterAll_known heq.symm
        -- the body has been entered by now, but not the key of the operation itself
        have hnew : i.operation.key ∉ inner.keys := by
          intro hkey
          have hcat : (k.enterAll (postorder k.scope.provides i.operation.inner)).catalog =
              inner := by rw [← heq]
          rw [← hcat] at hkey
          obtain hk | ⟨j, hj, hk⟩ := mem_keys_enterAll hkey
          · exact hnew hk
          · have hm := mem_of_mem_postorder hj
            exact hops.key_ne_of_mem_inner hop (hsub hm) hm hk
        dsimp only
        rw [define_eq_enterAll hord hc hprov hnew]
        exact ⟨rfl, hord.enterAll_single hop hc hprov (hinner ▸ hbody)⟩
      · rw [hr] at hord
        exact ⟨rfl, hord⟩

/-- In an ordered catalog the collecting walk enters what the plain walk lists. -/
theorem collectAll_eq_enterAll {ops : List Operation} (hops : Identified ops) {k : Catalog}
    (h : Ordered ops k) {is : List Instruction} (hsub : operationsOf is ⊆ ops) :
    k.collectAll is = k.enterAll (postorder k.scope.provides is) :=
  (collectAll_of_agrees (fun i _ => agrees hops i) h hsub).1

theorem Ordered.collectAll {ops : List Operation} {k : Catalog} (h : Ordered ops k)
    (hops : Identified ops) {is : List Instruction} (hsub : operationsOf is ⊆ ops) :
    Ordered ops (k.collectAll is).catalog :=
  (collectAll_of_agrees (fun i _ => agrees hops i) h hsub).2

theorem operationsBeforeFault_cons (i : Instruction) (rest : List Instruction) :
    operationsBeforeFault (i :: rest) =
      if i.walkFault? = none then i.operation :: operationsBeforeFault rest else [] := by
  cases h : i.walkFault? with
  | none => simp [operationsBeforeFault, h]
  | some e => simp [operationsBeforeFault, h]

theorem operationsBeforeFault_of_faultless {is : List Instruction}
    (h : is.findSome? Instruction.walkFault? = none) :
    operationsBeforeFault is = is.map (·.operation) := by
  rw [List.findSome?_eq_none_iff] at h
  induction is with
  | nil => rfl
  | cons i rest ih =>
    rw [operationsBeforeFault_cons, if_pos (h i List.mem_cons_self), List.map_cons,
      ih fun j hj => h j (List.mem_cons_of_mem i hj)]

theorem operationsBeforeFault_append {xs : List Instruction}
    (h : xs.findSome? Instruction.walkFault? = none) (ys : List Instruction) :
    operationsBeforeFault (xs ++ ys) = operationsBeforeFault xs ++ operationsBeforeFault ys := by
  rw [List.findSome?_eq_none_iff] at h
  induction xs with
  | nil => rfl
  | cons i rest ih =>
    rw [List.cons_append, operationsBeforeFault_cons, operationsBeforeFault_cons,
      if_pos (h i List.mem_cons_self), if_pos (h i List.mem_cons_self),
      ih fun j hj => h j (List.mem_cons_of_mem i hj), List.cons_append]

theorem firstByKey_append (seen : List OperationKey) (xs ys : List Operation) :
    firstByKey seen (xs ++ ys) =
      firstByKey seen xs ++ firstByKey (seen ++ (firstByKey seen xs).map (·.key)) ys := by
  induction xs generalizing seen with
  | nil => simp [firstByKey]
  | cons op rest ih =>
    rw [List.cons_append, firstByKey, firstByKey]
    split
    · exact ih seen
    · rw [ih, List.cons_append, List.map_cons, List.append_assoc, List.singleton_append]

/-- A walk adds the first occurrences of new keys, up to its first fault. -/
theorem definitions_enterAll (k : Catalog) (is : List Instruction) :
    (k.enterAll is).catalog.definitions.map (·.operation) =
      k.definitions.map (·.operation) ++ firstByKey k.keys (operationsBeforeFault is) := by
  induction is generalizing k with
  | nil => simp [enterAll, operationsBeforeFault, firstByKey]
  | cons i rest ih =>
    rw [enterAll, operationsBeforeFault_cons]
    cases i.walkFault? with
    | some e => simp [firstByKey]
    | none =>
      rw [if_pos rfl, firstByKey]
      dsimp only
      split
      · exact ih k
      · rw [ih, keys_enter]
        simp [enter]

theorem failure_enterAll (k : Catalog) (is : List Instruction) :
    (k.enterAll is).failure = is.findSome? Instruction.walkFault? := by
  fun_induction enterAll k is with
  | case1 => rfl
  | case2 k i rest e hf => simp [hf]
  | case3 k i rest hf hk ih => simp [hf, ih]
  | case4 k i rest hf hk ih => simp [hf, ih]

theorem keys_eq_map (k : Catalog) : k.keys = (k.definitions.map (·.operation)).map (·.key) := by
  simp [keys]

/-- The position of a definition is the slot of its operation. -/
theorem Ordered.slot?_eq {ops : List Operation} {k : Catalog} (h : Ordered ops k) {n : Nat}
    {d : Definition} (hd : k.definitions[n]? = some d) :
    k.scope.slot? d.operation = some n := by
  obtain ⟨hn, hdn⟩ := List.getElem?_eq_some_iff.mp hd
  have hkeys (m : Nat) (hm : m < k.definitions.length) :
      k.keys[m]? = some (k.definitions[m].operation.key) := by
    simp [keys, hm]
  rw [Scope.slot?, h.entries, List.findIdx?_eq_some_iff_getElem]
  refine ⟨by simpa using hn, by simp [hdn], ?_⟩
  intro m hm
  have hlt := Nat.lt_trans hm hn
  simp only [List.getElem_map, beq_iff_eq]
  intro he
  have hsame : k.keys[m]? = k.keys[n]? := by rw [hkeys m hlt, hkeys n hn, he, hdn]
  have := List.getElem?_inj (by simpa [keys] using hlt) h.distinct |>.mp hsame
  omega

/-- Collects the definitions of some lists of instructions, one list after another, and notes
the failure of each. -/
def collectEach (k : Catalog) : List (List Instruction) → Catalog × List (Option ExportFailure)
  | [] => (k, [])
  | is :: rest =>
    let collected := k.collectAll is
    let later := collected.catalog.collectEach rest
    (later.1, collected.failure :: later.2)

theorem collectEach_spec {ops : List Operation} (hops : Identified ops) {k : Catalog}
    (h : Ordered ops k) {lists : List (List Instruction)}
    (hsub : operationsOf lists.flatten ⊆ ops) :
    Ordered ops (k.collectEach lists).1 ∧
      (k.collectEach lists).2 =
        lists.map (fun is => (postorder k.scope.provides is).findSome? Instruction.walkFault?) ∧
      (k.collectEach lists).1.definitions.map (·.operation) =
        k.definitions.map (·.operation) ++ firstByKey k.keys
          (lists.flatMap fun is => operationsBeforeFault (postorder k.scope.provides is)) := by
  induction lists generalizing k with
  | nil => exact ⟨h, rfl, by simp [collectEach, firstByKey]⟩
  | cons is rest ih =>
    rw [List.flatten_cons, operationsOf_append, List.append_subset] at hsub
    have heq := collectAll_eq_enterAll hops h hsub.1
    have hdefs := definitions_enterAll k (postorder k.scope.provides is)
    obtain ⟨hord, hfail, hrest⟩ := ih (h.collectAll hops hsub.1) hsub.2
    rw [heq, provides_enterAll] at hfail hrest
    refine ⟨hord, ?_, ?_⟩
    · simp only [collectEach, List.map_cons, heq, failure_enterAll, hfail]
    · rw [keys_eq_map, hdefs, List.map_append, ← keys_eq_map, List.append_assoc,
        ← firstByKey_append] at hrest
      simpa only [collectEach, heq, List.flatMap_cons] using hrest

/-- Reserving names changes nothing but the reserved names. -/
theorem foldl_reserve (names : List String) (s : Scope) :
    ∃ reserved, names.foldl Scope.reserve s = { s with reserved := reserved } := by
  induction names generalizing s with
  | nil => exact ⟨s.reserved, rfl⟩
  | cons name rest ih =>
    obtain ⟨reserved, hrest⟩ := ih (s.reserve name)
    refine ⟨reserved, ?_⟩
    rw [List.foldl_cons, hrest, Scope.reserve]
    split <;> rfl

theorem entries_foldl_reserve (names : List String) (s : Scope) :
    (names.foldl Scope.reserve s).entries = s.entries := by
  obtain ⟨reserved, h⟩ := foldl_reserve names s
  rw [h]

theorem flatMap_operationsBeforeFault {lists : List (List Instruction)}
    (h : ∀ is ∈ lists.dropLast, is.findSome? Instruction.walkFault? = none) :
    lists.flatMap operationsBeforeFault = operationsBeforeFault lists.flatten := by
  induction lists with
  | nil => rfl
  | cons is rest ih =>
    cases rest with
    | nil => simp
    | cons js rest =>
      rw [List.dropLast_cons_of_ne_nil (by simp)] at h
      have hrest := ih fun ks hks => h ks (List.mem_cons_of_mem is hks)
      rw [List.flatMap_cons, hrest, List.flatten_cons (L := js :: rest),
        operationsBeforeFault_append (h is List.mem_cons_self)]

namespace Shared

def leaf : Operation := ⟨.gate, "leaf", 1, 0, [], none, none, 0⟩

def onto (op : Operation) : Instruction := ⟨op, [⟨.quantum, some "q", 0⟩], [], none⟩

/-- A gate that places the leaf twice. -/
def twice : Operation :=
  ⟨.gate, "twice", 1, 0, [], some ⟨"twice", [⟨.quantum, "q", 1⟩], [], [onto leaf, onto leaf]⟩,
    none, 1⟩

def strange : Operation := ⟨.outside 7, "strange", 1, 0, [], none, none, 2⟩

def late : Operation := ⟨.gate, "late", 1, 0, [], none, none, 3⟩

/-- The second list fails before its last instruction. -/
def lists : List (List Instruction) :=
  [[onto twice, onto leaf], [onto leaf, onto strange, onto late]]

theorem lists_identified : Identified (operationsOf lists.flatten) := by
  have hat : ∀ op ∈ operationsOf lists.flatten, [leaf, twice, strange, late][op.id]? = some op := by
    intro op hop
    have hop : op ∈ [twice, leaf, leaf, leaf, leaf, strange, late] := hop
    simp only [List.mem_cons, List.not_mem_nil, or_false] at hop
    rcases hop with rfl | rfl | rfl | rfl | rfl | rfl | rfl <;> rfl
  constructor
  · intro a ha b hb hid
    have hb := hat b hb
    rw [← hid, hat a ha] at hb
    exact Option.some.inj hb
  · decide

end Shared

/-- The walk that passes over registered operations comes to what the plain walk comes to.
Collecting some lists one after another, each fails at the first fault of its plain walk; the
definitions are the first occurrences of each key up to those faults, in order; the definition
at a position has that position as its slot and the form its operation calls for. If no list
fails these are the first occurrences in the concatenated plain walks, and if only the last one
may, in the part of these walks before the first fault. -/
theorem collectEach_eq_plain_walk (includes reserved : List String)
    (lists : List (List Instruction)) (h : Identified (operationsOf lists.flatten)) :
    let s := reserved.foldl Scope.reserve (.ofIncludes includes)
    let walks := lists.map (postorder s.provides)
    let run := (ofScope s).collectEach lists
    let defined := run.1.definitions.map (·.operation)
    run.2 = walks.map (·.findSome? Instruction.walkFault?) ∧
      defined = firstByKey [] (walks.flatMap operationsBeforeFault) ∧
      ((∀ failure ∈ run.2, failure = none) →
        defined = firstByKey [] (walks.flatten.map (·.operation))) ∧
      ((∀ failure ∈ run.2.dropLast, failure = none) →
        defined = firstByKey [] (operationsBeforeFault walks.flatten)) ∧
      ∀ n d, run.1.definitions[n]? = some d →
        run.1.scope.slot? d.operation = some n ∧ d.form = d.operation.form := by
  intro s walks run defined
  have hord : Ordered (operationsOf lists.flatten) (ofScope s) :=
    ordered_ofScope _ (entries_foldl_reserve reserved _)
  obtain ⟨hrun, hfail, hdefs⟩ := collectEach_spec h hord (List.Subset.refl _)
  have hfail : run.2 = walks.map (·.findSome? Instruction.walkFault?) :=
    hfail.trans (by simp [walks, Function.comp_def, ofScope])
  have hdefs : defined = firstByKey [] (walks.flatMap operationsBeforeFault) :=
    hdefs.trans (by simp [walks, List.flatMap_map, ofScope, keys])
  have hlast (hnone : ∀ failure ∈ run.2.dropLast, failure = none) :
      defined = firstByKey [] (operationsBeforeFault walks.flatten) := by
    rw [hdefs, flatMap_operationsBeforeFault]
    intro is his
    apply hnone
    rw [hfail, ← List.map_dropLast]
    exact List.mem_map.mpr ⟨is, his, rfl⟩
  refine ⟨hfail, hdefs, ?_, hlast, ?_⟩
  · intro hnone
    rw [hlast fun f hf => hnone f (List.dropLast_subset _ hf), operationsBeforeFault_of_faultless]
    rw [List.findSome?_eq_none_iff]
    intro i hi
    obtain ⟨walk, hwalk, hi⟩ := List.mem_flatten.mp hi
    have hw := hnone (walk.findSome? Instruction.walkFault?)
      (hfail ▸ List.mem_map.mpr ⟨walk, hwalk, rfl⟩)
    exact List.findSome?_eq_none_iff.mp hw i hi
  · intro n d hd
    exact ⟨hrun.slot?_eq hd, hrun.form d (List.mem_of_getElem? hd)⟩

theorem collectEach_shared :
    Identified (operationsOf Shared.lists.flatten) ∧
      (((ofScope (.ofIncludes [])).collectEach Shared.lists).2.map Option.isSome = [false, true]) ∧
      ((ofScope (.ofIncludes [])).collectEach Shared.lists).1.definitions.map (·.operation) =
        [Shared.leaf, Shared.twice] := by
  obtain ⟨hfail, hdefs, -⟩ := collectEach_eq_plain_walk [] [] Shared.lists Shared.lists_identified
  exact ⟨Shared.lists_identified, congrArg (List.map Option.isSome) hfail, hdefs⟩

end Catalog
end OpenQasm
