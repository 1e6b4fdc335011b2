import Mathlib.Data.List.Forall2
import OpenQasm.Export.Session
import OpenQasm.Proofs.Hoisting

/-! What a successful build consists of, position by position. -/
namespace OpenQasm

theorem bind_eq_ok {ε α β : Type} {x : Except ε α} {f : α → Except ε β} {b : β} :
    (x >>= f) = .ok b ↔ ∃ a, x = .ok a ∧ f a = .ok b := by
  cases x with
  | error e => simp [bind, Except.bind]
  | ok a => simp [bind, Except.bind]

theorem mapM_eq_ok {ε α β : Type} {f : α → Except ε β} {xs : List α} {ys : List β} :
    xs.mapM f = .ok ys ↔ List.Forall₂ (fun x y => f x = .ok y) xs ys := by
  induction xs generalizing ys with
  | nil => simp [pure, Except.pure, eq_comm]
  | cons x rest ih =>
    rw [List.mapM_cons, bind_eq_ok, List.forall₂_cons_left_iff]
    constructor
    · rintro ⟨y, hy, h⟩
      obtain ⟨zs, hzs, h⟩ := bind_eq_ok.mp h
      exact ⟨y, zs, hy, ih.mp hzs, (Except.ok.inj h).symm⟩
    · rintro ⟨y, zs, hy, hzs, rfl⟩
      exact ⟨y, hy, bind_eq_ok.mpr ⟨zs, ih.mpr hzs, rfl⟩⟩

theorem located_eq_ok {α : Type} {i : Instruction} {x : Except Fault α} {a : α} :
    located i x = .ok a ↔ x = .ok a := by
  cases x <;> simp [located]

theorem unlocated_eq_ok {α : Type} {x : Except Fault α} {a : α} :
    unlocated x = .ok a ↔ x = .ok a := by
  cases x <;> simp [unlocated]

theorem operands_eq_ok {bits : List Bit} {naming : Naming} {os : List Operand} :
    operands bits naming = .ok os ↔
      List.Forall₂ (fun b o => b.operand naming = .ok o) bits os :=
  mapM_eq_ok

theorem Scope.resolve_eq_ok {s : Scope} {op : Operation} {name : String} :
    s.resolve op = .ok name ↔ s.name? op = some name := by
  unfold resolve
  cases s.name? op <;> simp

theorem Scope.name_eq_of_provides {s : Scope} {op : Operation} {name : String}
    (hprov : s.provides op = true) (hname : s.name? op = some name) : op.name = name := by
  simpa [name?, hprov] using hname

namespace Condition

theorem targetExpression_eq_ok {target : ConditionTarget} {c : Circuit} {naming : Naming}
    {left : Expression} (h : targetExpression target c naming = .ok left) :
    (∃ r declared, target = .register r ∧ c.register? r.name = some declared ∧
        declared.kind = .classical ∧ left = .identifier r.name) ∨
      ∃ b o, target = .bit b ∧ b.kind = .classical ∧ b.operand naming = .ok o ∧
        left = .operand o := by
  unfold targetExpression at h
  cases target with
  | register r =>
    dsimp only at h
    split at h
    · cases h
    cases hr : c.register? r.name with
    | none => simp [hr] at h
    | some declared =>
      rw [hr] at h
      dsimp only at h
      split at h
      · rename_i hkind
        exact .inl ⟨r, declared, rfl, hr, hkind, (Except.ok.inj h).symm⟩
      · cases h
  | bit b =>
    dsimp only at h
    split at h
    · rename_i hkind
      obtain ⟨o, ho, h⟩ := bind_eq_ok.mp h
      exact .inr ⟨b, o, rfl, hkind, ho, (Except.ok.inj h).symm⟩
    · cases h

/-- A test compares a classical register that the circuit declares, or a classical bit. -/
theorem equality_eq_ok {cond : Condition} {c : Circuit} {naming : Naming} {test : Equality}
    (h : cond.equality c naming = .ok test) :
    cond.comparison = .equal ∧
      ((∃ r declared, cond.target = .register r ∧ c.register? r.name = some declared ∧
          declared.kind = .classical ∧ test = ⟨.identifier r.name, .integer cond.value⟩) ∨
        ∃ b o, cond.target = .bit b ∧ b.kind = .classical ∧ b.operand naming = .ok o ∧
          test = ⟨.operand o, .integer cond.value⟩) := by
  unfold equality at h
  split at h
  · rename_i hequal
    obtain ⟨left, hleft, h⟩ := bind_eq_ok.mp h
    obtain rfl := Except.ok.inj h
    refine ⟨hequal, ?_⟩
    obtain ⟨r, declared, htarget, hfind, hkind, rfl⟩ | ⟨b, o, htarget, hkind, ho, rfl⟩ :=
      targetExpression_eq_ok hleft
    · exact .inl ⟨r, declared, htarget, hfind, hkind, rfl⟩
    · exact .inr ⟨b, o, htarget, hkind, ho, rfl⟩
  · cases h

end Condition

/-- The statement of an operation placed on some bits. -/
inductive Lowered (s : Scope) (fold : Bool) (naming : Naming) (op : Operation) :
    List Bit → List Bit → Statement → Prop
  | gate {qubits clbits : List Bit} {name : String} {os : List Operand}
      (kind : op.kind = .gate) (resolved : s.name? op = some name)
      (placed : List.Forall₂ (fun b o => b.operand naming = .ok o) qubits os) :
      Lowered s fold naming op qubits clbits
        (.gateCall ⟨name, op.params.map (Parameter.expression fold), os⟩)
  | subroutine {qubits clbits : List Bit} {name : String} {os : List Operand}
      (kind : op.kind = .subroutine) (resolved : s.name? op = some name)
      (placed : List.Forall₂ (fun b o => b.operand naming = .ok o) qubits os) :
      Lowered s fold naming op qubits clbits
        (.subroutineCall ⟨name, op.params.map (Parameter.expression fold), os⟩)
  | barrier {qubits clbits : List Bit} {os : List Operand} (kind : op.kind = .barrier)
      (placed : List.Forall₂ (fun b o => b.operand naming = .ok o) qubits os) :
      Lowered s fold naming op qubits clbits (.barrier os)
  | measurement {q b : Bit} {target o : Operand} (kind : op.kind = .measurement)
      (target_eq : b.operand naming = .ok target) (qubit_eq : q.operand naming = .ok o) :
      Lowered s fold naming op [q] [b] (.measure target [o])

namespace Instruction
variable {i : Instruction} {s : Scope} {fold : Bool} {naming : Naming}

theorem call_eq_ok {call : Call} (h : i.call s fold naming = .ok call) :
    ∃ name os, s.name? i.operation = some name ∧
      List.Forall₂ (fun b o => b.operand naming = .ok o) i.qubits os ∧
      call = ⟨name, i.operation.params.map (Parameter.expression fold), os⟩ := by
  obtain ⟨name, hname, h⟩ := bind_eq_ok.mp h
  obtain ⟨os, hos, h⟩ := bind_eq_ok.mp h
  exact ⟨name, os, Scope.resolve_eq_ok.mp (unlocated_eq_ok.mp hname),
    operands_eq_ok.mp (located_eq_ok.mp hos), (Except.ok.inj h).symm⟩

theorem measurement_eq_ok {st : Statement} (h : i.measurement naming = .ok st) :
    ∃ q b target o, i.qubits = [q] ∧ i.clbits = [b] ∧ b.operand naming = .ok target ∧
      q.operand naming = .ok o ∧ st = .measure target [o] := by
  unfold measurement at h
  split at h
  · rename_i q b hq hb
    obtain ⟨target, ht, h⟩ := bind_eq_ok.mp h
    obtain ⟨o, ho, h⟩ := bind_eq_ok.mp h
    exact ⟨q, b, target, o, hq, hb, located_eq_ok.mp ht, located_eq_ok.mp ho,
      (Except.ok.inj h).symm⟩
  · simp at h

theorem lowered_of_unconditioned {st : Statement} (h : i.unconditioned s fold naming = .ok st) :
    Lowered s fold naming i.operation i.qubits i.clbits st := by
  unfold unconditioned at h
  cases hk : i.operation.kind with
  | gate =>
    rw [hk] at h
    obtain ⟨call, hc, h⟩ := bind_eq_ok.mp h
    obtain ⟨name, os, hname, hos, rfl⟩ := call_eq_ok hc
    obtain rfl := Except.ok.inj h
    exact .gate hk hname hos
  | subroutine =>
    rw [hk] at h
    obtain ⟨call, hc, h⟩ := bind_eq_ok.mp h
    obtain ⟨name, os, hname, hos, rfl⟩ := call_eq_ok hc
    obtain rfl := Except.ok.inj h
    exact .subroutine hk hname hos
  | barrier =>
    rw [hk] at h
    obtain ⟨os, hos, h⟩ := bind_eq_ok.mp h
    obtain rfl := Except.ok.inj h
    exact .barrier hk (operands_eq_ok.mp (located_eq_ok.mp hos))
  | measurement =>
    rw [hk] at h
    obtain ⟨q, b, target, o, hq, hb, ht, ho, rfl⟩ := measurement_eq_ok h
    rw [hq, hb]
    exact .measurement hk ht ho
  | outside code => simp [hk] at h

/-- A condition becomes a branch around the statement. -/
theorem lower_eq_ok {c : Circuit} {st : Statement} (h : i.lower c s fold naming = .ok st) :
    (i.condition = none ∧ Lowered s fold naming i.operation i.qubits i.clbits st) ∨
      ∃ cond test body, i.condition = some cond ∧ cond.equality c naming = .ok test ∧
        Lowered s fold naming i.operation i.qubits i.clbits body ∧ st = .branch test [body] := by
  unfold lower at h
  cases hc : i.condition with
  | none =>
    rw [hc] at h
    exact .inl ⟨rfl, lowered_of_unconditioned h⟩
  | some cond =>
    rw [hc] at h
    dsimp only at h
    split at h
    · simp at h
    · obtain ⟨test, ht, h⟩ := bind_eq_ok.mp h
      obtain ⟨body, hb, h⟩ := bind_eq_ok.mp h
      have hlow := lowered_of_unconditioned hb
      exact .inr ⟨cond, test, body, rfl, located_eq_ok.mp ht, hlow, (Except.ok.inj h).symm⟩

end Instruction

theorem Circuit.lowered_eq_ok {c : Circuit} {s : Scope} {fold : Bool} {naming : Naming}
    {sts : List Statement} :
    c.lowered s fold naming = .ok sts ↔
      List.Forall₂ (fun i st => i.lower c s fold naming = .ok st) c.instructions sts :=
  mapM_eq_ok

/-- The global statement of a definition. -/
theorem Definition.lower_eq_ok {d : Definition} {s : Scope} {fold : Bool} {g : ProgramItem}
    (h : d.lower s fold = .ok g) :
    (∃ body sts, d.form = .gate body ∧ body.lowered s fold .flat = .ok sts ∧
        g = .gate ⟨d.name, body.symbols, body.qubitFormals⟩ sts) ∨
      (∃ body sts, d.form = .subroutine body ∧ body.lowered s fold .flat = .ok sts ∧
        g = .subroutine ⟨d.name, body.symbols, body.qubitFormals.map (⟨·, none⟩)⟩ sts) ∨
      (d.form = .bodiless ∧ g = .bodilessGate d.madeUpSignature) := by
  unfold lower at h
  cases hf : d.form with
  | gate body =>
    rw [hf] at h
    obtain ⟨_, -, h⟩ := bind_eq_ok.mp h
    obtain ⟨sts, hs, h⟩ := bind_eq_ok.mp h
    exact .inl ⟨body, sts, rfl, hs, (Except.ok.inj h).symm⟩
  | subroutine body =>
    rw [hf] at h
    obtain ⟨_, -, h⟩ := bind_eq_ok.mp h
    obtain ⟨sts, hs, h⟩ := bind_eq_ok.mp h
    exact .inr (.inl ⟨body, sts, rfl, hs, (Except.ok.inj h).symm⟩)
  | bodiless =>
    rw [hf] at h
    exact .inr (.inr ⟨rfl, (Except.ok.inj h).symm⟩)

namespace Catalog.Ordered
variable {ops : List Operation} {k : Catalog}

/-- An operation is called by the name of the definition of its key. -/
theorem name?_eq (h : k.Ordered ops) {op : Operation} (hprov : k.scope.provides op = false)
    {d : Definition} (hd : d ∈ k.definitions) (hkey : d.operation.key = op.key) :
    k.scope.name? op = some d.name := by
  obtain ⟨before, after, hs⟩ := List.append_of_mem hd
  have hdistinct := h.distinct
  rw [keys, hs, List.map_append, List.map_cons, List.nodup_append] at hdistinct
  have hfirst : ∀ e ∈ before, (e.operation.key == op.key) = false := by
    intro e he
    rw [beq_eq_false_iff_ne]
    rw [← hkey]
    exact hdistinct.2.2 _ (List.mem_map_of_mem he) _ List.mem_cons_self
  have hfind : k.definitions.find? (fun e => e.operation.key == op.key) = some d := by
    have hbefore : before.find? (fun e => e.operation.key == op.key) = none := by
      rw [List.find?_eq_none]
      intro e he
      simp [hfirst e he]
    rw [hs, List.find?_append, hbefore]
    simp [hkey]
  rw [Scope.name?, hprov, h.entries, List.find?_map]
  change Option.map _ (Option.map _
    (k.definitions.find? fun e => e.operation.key == op.key)) = some d.name
  rw [hfind]
  rfl

theorem exists_getElem? {key : OperationKey} {ds : List Definition}
    (hkey : key ∈ ds.map (·.operation.key)) :
    ∃ (m : Nat) (d : Definition), ds[m]? = some d ∧ d.operation.key = key := by
  obtain ⟨d, hd, hk⟩ := List.mem_map.mp hkey
  obtain ⟨m, hm⟩ := List.mem_iff_getElem?.mp hd
  exact ⟨m, d, hm, hk⟩

/-- What the body of a definition calls is defined before it. -/
theorem callee_earlier (h : k.Ordered ops) {n : Nat} {d : Definition}
    (hd : k.definitions[n]? = some d) {i : Instruction}
    (hi : i ∈ postorder k.scope.provides d.operation.inner) :
    ∃ (m : Nat) (e : Definition),
      m < n ∧ k.definitions[m]? = some e ∧ e.operation.key = i.operation.key := by
  obtain ⟨hn, hdn⟩ := List.getElem?_eq_some_iff.mp hd
  have hs : k.definitions = k.definitions.take n ++ d :: k.definitions.drop (n + 1) := by
    rw [← hdn, List.getElem_cons_drop, List.take_append_drop]
  obtain ⟨-, hkey⟩ := h.bodies _ _ _ hs i hi
  obtain ⟨m, e, hm, he⟩ := exists_getElem? hkey
  rw [List.getElem?_take] at hm
  split at hm
  · rename_i hlt
    exact ⟨m, e, hlt, hm, he⟩
  · simp at hm

end Catalog.Ordered

/-- The declarations between the definitions and the statements of a circuit. -/
def Circuit.declarations (c : Circuit) : List ProgramItem :=
  c.symbols.map .input ++ c.cregs.map (fun r => .register .bit r.name r.size)
    ++ c.qregs.map (fun r => .register .qubit r.name r.size)

/-- The scope of a circuit before anything is collected. -/
def Circuit.globalScope (c : Circuit) (options : Options) : Scope :=
  (Session.globalNames c).foldl Scope.reserve (.ofIncludes options.includes)

/-- A build that succeeded: the catalog it filled, and what it made of each definition and of
each instruction. -/
structure Exported (c : Circuit) (options : Options) (k : Catalog) (items : List ProgramItem)
    (statements : List Statement) : Prop where
  collected : (Catalog.ofScope (c.globalScope options)).collectAll c.instructions = ⟨k, none⟩
  definitions : List.Forall₂ (fun d g => d.lower k.scope options.fold = .ok g) k.definitions items
  instructions : List.Forall₂ (fun i st => i.lower c k.scope options.fold .indexed = .ok st)
    c.instructions statements

theorem Session.exported_of_build {c : Circuit} {options : Options} {s : Session} {p : Program}
    (h : (Session.start c options).build = (s, .ok p)) :
    ∃ items statements, Exported c options s.catalog items statements ∧
      p.statements = items ++ c.declarations ++ statements.map .statement := by
  unfold build at h
  split at h
  · simp at h
  · split at h
    · simp at h
    · rename_i k hk
      obtain ⟨hsession, hprogram⟩ := Prod.mk.inj h
      subst hsession
      obtain ⟨items, hi, hrest⟩ := bind_eq_ok.mp hprogram
      obtain ⟨statements, hs, hp⟩ := bind_eq_ok.mp hrest
      refine ⟨items, statements, ⟨hk, mapM_eq_ok.mp hi, Circuit.lowered_eq_ok.mp hs⟩, ?_⟩
      obtain rfl := Except.ok.inj hp
      simp [Circuit.declarations, start]

theorem hasStandardGates_foldl_reserve (names : List String) (s : Scope) :
    (names.foldl Scope.reserve s).hasStandardGates = s.hasStandardGates := by
  obtain ⟨reserved, h⟩ := Catalog.foldl_reserve names s
  rw [h]

/-- Before the walk nothing is registered. -/
theorem Circuit.ordered_globalScope (c : Circuit) (options : Options) :
    (Catalog.ofScope (c.globalScope options)).Ordered (operationsOf c.instructions) :=
  Catalog.ordered_ofScope _ (Catalog.entries_foldl_reserve _ _)

namespace Circuit
variable {c : Circuit} {options : Options} {k : Catalog}
  (h : (Catalog.ofScope (c.globalScope options)).collectAll c.instructions = ⟨k, none⟩)
  (hc : Identified (operationsOf c.instructions))
include h hc

/-- The catalog holds what the plain walk through the circuit lists. -/
theorem enterAll_of_collectAll :
    (Catalog.ofScope (c.globalScope options)).enterAll
      (postorder (c.globalScope options).provides c.instructions) = ⟨k, none⟩ := by
  rw [← h]
  exact (Catalog.collectAll_eq_enterAll hc (c.ordered_globalScope options)
    (List.Subset.refl _)).symm

theorem ordered_of_collectAll : k.Ordered (operationsOf c.instructions) := by
  have hord := (c.ordered_globalScope options).collectAll hc (List.Subset.refl _)
  rwa [h] at hord

theorem provides_of_collectAll : k.scope.provides = (c.globalScope options).provides := by
  have := Catalog.provides_enterAll (Catalog.ofScope (c.globalScope options))
    (postorder (c.globalScope options).provides c.instructions)
  rwa [enterAll_of_collectAll h hc] at this

theorem known_of_collectAll :
    ∀ i ∈ postorder (c.globalScope options).provides c.instructions,
      i.walkFault? = none ∧ i.operation.key ∈ k.keys :=
  Catalog.enterAll_known (enterAll_of_collectAll h hc)

end Circuit

namespace Exported
variable {c : Circuit} {options : Options} {k : Catalog} {items : List ProgramItem}
  {statements : List Statement} (h : Exported c options k items statements)
  (hc : Identified (operationsOf c.instructions))
include h hc

theorem enterAll_eq :
    (Catalog.ofScope (c.globalScope options)).enterAll
      (postorder (c.globalScope options).provides c.instructions) = ⟨k, none⟩ :=
  Circuit.enterAll_of_collectAll h.collected hc

theorem ordered : k.Ordered (operationsOf c.instructions) :=
  Circuit.ordered_of_collectAll h.collected hc

theorem provides_eq : k.scope.provides = (c.globalScope options).provides :=
  Circuit.provides_of_collectAll h.collected hc

theorem known :
    ∀ i ∈ postorder k.scope.provides c.instructions,
      i.walkFault? = none ∧ i.operation.key ∈ k.keys := by
  rw [h.provides_eq hc]
  exact Circuit.known_of_collectAll h.collected hc

end Exported
end OpenQasm
