import OpenQasm.Proofs.Rebuilding
import OpenQasm.Proofs.ScopeRuns

/-! Failures that blame the export and not the circuit, which no build meets. -/
namespace OpenQasm

/-- If the step fails, its error is of the given sort. -/
def FailsOnly {ε α : Type} (P : ε → Prop) (x : Except ε α) : Prop := ∀ e, x = .error e → P e

namespace FailsOnly
variable {ε α β : Type} {P : ε → Prop}

theorem ok (a : α) : FailsOnly P (.ok a : Except ε α) := nofun

theorem error {e : ε} (h : P e) : FailsOnly P (.error e : Except ε α) := by
  rintro _ ⟨⟩
  exact h

theorem bind {x : Except ε α} {f : α → Except ε β} (hx : FailsOnly P x)
    (hf : ∀ a, FailsOnly P (f a)) : FailsOnly P (x >>= f) := by
  cases x with
  | error e => exact error (hx e rfl)
  | ok a => exact hf a

theorem mapM {f : α → Except ε β} {xs : List α} (h : ∀ x ∈ xs, FailsOnly P (f x)) :
    FailsOnly P (xs.mapM f) := by
  induction xs with
  | nil => exact ok []
  | cons x rest ih =>
    rw [List.mapM_cons]
    apply bind (h x List.mem_cons_self)
    intro y
    apply bind (ih fun z hz => h z (List.mem_cons_of_mem x hz))
    exact fun ys => ok (y :: ys)

theorem forM {f : α → Except ε PUnit} {xs : List α} (h : ∀ x ∈ xs, FailsOnly P (f x)) :
    FailsOnly P (xs.forM f) := by
  induction xs with
  | nil => exact ok _
  | cons x rest ih =>
    apply bind (h x List.mem_cons_self)
    exact fun _ => ih fun z hz => h z (List.mem_cons_of_mem x hz)

end FailsOnly

/-- A fault of the export itself: it asks for the name of an operation that it has not defined,
or meets an instruction for which it has no statement. -/
def Fault.IsInternal : Fault → Prop
  | .undefinedOperation _ => True
  | .unknownKind => True
  | _ => False

def ExportFailure.IsInternal (e : ExportFailure) : Prop := e.fault.IsInternal

theorem Fault.ne_of_not_internal {fault : Fault} (h : ¬ fault.IsInternal) :
    (∀ name, fault ≠ .undefinedOperation name) ∧ fault ≠ .unknownKind := by
  constructor
  · rintro name rfl
    exact h trivial
  · rintro rfl
    exact h trivial

/-- Every error of the step is to be blamed on the circuit. -/
def Blameless {α : Type} (x : Except Fault α) : Prop := FailsOnly (¬ Fault.IsInternal ·) x

namespace Blameless
variable {α : Type} {x : Except Fault α}

theorem located (h : Blameless x) (i : Instruction) :
    FailsOnly (¬ ExportFailure.IsInternal ·) (located i x) := by
  cases x with
  | ok a => exact .ok a
  | error fault => exact .error (h fault rfl)

theorem unlocated (h : Blameless x) : FailsOnly (¬ ExportFailure.IsInternal ·) (unlocated x) := by
  cases x with
  | ok a => exact .ok a
  | error fault => exact .error (h fault rfl)

end Blameless

theorem Bit.blameless_operand (b : Bit) (naming : Naming) : Blameless (b.operand naming) := by
  unfold operand
  cases b.register with
  | some register => cases naming <;> exact .ok _
  | none =>
    dsimp only
    split
    · exact .error id
    · cases naming with
      | indexed => exact .ok _
      | flat => exact .error id

theorem blameless_operands (bits : List Bit) (naming : Naming) :
    Blameless (operands bits naming) :=
  .mapM fun b _ => b.blameless_operand naming

theorem blameless_checkRegisters (c : Circuit) : Blameless (checkRegisters c) := by
  apply FailsOnly.forM
  intro r _
  split
  · exact .error id
  · split
    · exact .error id
    · exact .ok ()

theorem Condition.blameless_equality (cond : Condition) (c : Circuit) (naming : Naming) :
    Blameless (cond.equality c naming) := by
  have htarget : Blameless (targetExpression cond.target c naming) := by
    unfold targetExpression
    cases cond.target with
    | register r =>
      dsimp only
      split
      · exact .error id
      · cases c.register? r.name with
        | none => exact .error id
        | some declared =>
          dsimp only
          split
          · exact .ok _
          · exact .error id
    | bit b =>
      dsimp only
      split
      · exact .bind (b.blameless_operand naming) fun _ => .ok _
      · exact .error id
  unfold equality
  split
  · exact .bind htarget fun _ => .ok _
  · exact .error id

/-- The instruction has a kind, and an operation that it calls has a name. -/
def Instruction.Settled (i : Instruction) (s : Scope) : Prop :=
  (∀ code, i.operation.kind ≠ .outside code) ∧
    (i.operation.IsCalled → ∃ name, s.resolve i.operation = .ok name)

namespace Instruction
variable {i : Instruction} {s : Scope}

theorem Settled.mono (h : i.Settled s) {t : Scope}
    (hkeeps : ∀ op, s.knows op = true → t.knows op = true) : i.Settled t := by
  refine ⟨h.1, fun hcalled => ?_⟩
  rw [← Scope.knows_iff_resolve]
  exact hkeeps _ ((s.knows_iff_resolve _).mpr (h.2 hcalled))

theorem settled_of_knows (hcalled : i.operation.IsCalled) (h : s.knows i.operation = true) :
    i.Settled s := by
  constructor
  · intro code hcode
    rcases hcalled with hk | hk <;> rw [hcode] at hk <;> cases hk
  · exact fun _ => (s.knows_iff_resolve _).mp h

theorem Settled.call (h : i.Settled s) (hcalled : i.operation.IsCalled) (fold : Bool)
    (naming : Naming) : FailsOnly (¬ ExportFailure.IsInternal ·) (i.call s fold naming) := by
  obtain ⟨name, hname⟩ := h.2 hcalled
  have hresolve : Blameless (s.resolve i.operation) := hname ▸ .ok name
  apply FailsOnly.bind hresolve.unlocated
  intro name
  apply FailsOnly.bind ((blameless_operands i.qubits naming).located i)
  exact fun _ => .ok _

theorem measurement_failsOnly (i : Instruction) (naming : Naming) :
    FailsOnly (¬ ExportFailure.IsInternal ·) (i.measurement naming) := by
  unfold measurement
  split
  · rename_i q b _ _
    apply FailsOnly.bind ((b.blameless_operand naming).located i)
    intro target
    apply FailsOnly.bind ((q.blameless_operand naming).located i)
    exact fun _ => .ok _
  · exact .error id

theorem Settled.unconditioned (h : i.Settled s) (fold : Bool) (naming : Naming) :
    FailsOnly (¬ ExportFailure.IsInternal ·) (i.unconditioned s fold naming) := by
  unfold Instruction.unconditioned
  cases hkind : i.operation.kind with
  | gate => exact .bind (h.call (.inl hkind) fold naming) fun _ => .ok _
  | subroutine => exact .bind (h.call (.inr hkind) fold naming) fun _ => .ok _
  | barrier => exact .bind ((blameless_operands i.qubits naming).located i) fun _ => .ok _
  | measurement => exact i.measurement_failsOnly naming
  | outside code => exact absurd hkind (h.1 code)

theorem Settled.lower (h : i.Settled s) (c : Circuit) (fold : Bool) (naming : Naming) :
    FailsOnly (¬ ExportFailure.IsInternal ·) (i.lower c s fold naming) := by
  -- the instruction without its condition calls the same operation
  have hbare : i.unguarded.Settled s := h
  unfold Instruction.lower
  split
  · exact h.unconditioned fold naming
  · rename_i cond _
    split
    · exact .error id
    · apply FailsOnly.bind ((cond.blameless_equality c naming).located i)
      intro test
      exact .bind (hbare.unconditioned fold naming) fun _ => .ok _

end Instruction

theorem Circuit.lowered_failsOnly {c : Circuit} {s : Scope}
    (h : ∀ i ∈ c.instructions, i.Settled s) (fold : Bool) (naming : Naming) :
    FailsOnly (¬ ExportFailure.IsInternal ·) (c.lowered s fold naming) :=
  .mapM fun i hi => (h i hi).lower c fold naming

/-- The definition has the kind of its operation and, but for a declaration without one, its
body; and every instruction of the body has a statement in the scope. -/
structure Definition.Closed (d : Definition) (s : Scope) : Prop where
  kind : ∀ code, d.form.kind ≠ .outside code
  gate : ∀ b, d.form = .gate b → d.operation.kind = .gate ∧ d.operation.body = some b
  subroutine : ∀ b, d.form = .subroutine b →
    d.operation.kind = .subroutine ∧ d.operation.body = some b
  bodiless : d.form = .bodiless → d.operation.body = none
  settled : ∀ i ∈ d.operation.inner, i.Settled s

namespace Definition
variable {d : Definition} {s : Scope}

theorem Closed.mono (h : d.Closed s) {t : Scope}
    (hkeeps : ∀ op, s.knows op = true → t.knows op = true) : d.Closed t :=
  { h with settled := fun i hi => (h.settled i hi).mono hkeeps }

theorem closed_of_called {op : Operation} (hcalled : op.IsCalled) {s : Scope}
    (h : ∀ i ∈ op.inner, i.Settled s) (name : String) : Closed ⟨op, op.form, name⟩ s where
  kind code := by
    cases op.form <;> nofun
  gate b hform := by
    have hbody : op.body = some b := Operation.body_of_form hform (.inl rfl)
    refine ⟨?_, hbody⟩
    by_contra hkind
    simp [Operation.form, hbody, hkind] at hform
  subroutine b hform := by
    have hbody : op.body = some b := Operation.body_of_form hform (.inr rfl)
    refine ⟨hcalled.resolve_left ?_, hbody⟩
    intro hkind
    simp [Operation.form, hbody, hkind] at hform
  bodiless := Operation.body_none_of_form
  settled := h

theorem Closed.lower (h : d.Closed s) (fold : Bool) :
    FailsOnly (¬ ExportFailure.IsInternal ·) (d.lower s fold) := by
  have hbody {b : Circuit} (hb : d.operation.body = some b) :
      FailsOnly (¬ ExportFailure.IsInternal ·) (b.lowered s fold .flat) := by
    apply Circuit.lowered_failsOnly
    rw [← Operation.inner_of_body hb]
    exact h.settled
  unfold Definition.lower
  split
  · rename_i b hform
    apply FailsOnly.bind (blameless_checkRegisters b).unlocated
    exact fun _ => .bind (hbody (h.gate b hform).2) fun _ => .ok _
  · rename_i b hform
    apply FailsOnly.bind (blameless_checkRegisters b).unlocated
    exact fun _ => .bind (hbody (h.subroutine b hform).2) fun _ => .ok _
  · exact .ok _

end Definition

namespace Scope
variable {s : Scope}

theorem knows_iff (s : Scope) (op : Operation) :
    s.knows op = true ↔ s.provides op = true ∨ op.key ∈ s.registeredKeys := by
  simp [knows, slot?, List.findIdx?_isSome, registeredKeys]

theorem knows_after {op : Operation} (h : s.knows op = true) (call : ScopeCall) :
    (s.after call).knows op = true := by
  rw [knows_iff] at h ⊢
  rcases h with h | h
  · exact .inl ((s.provides_afterAll [call] op).trans h)
  · apply Or.inr
    exact ((s.entries_prefix_after call).map _).subset h

/-- A registered operation is known afterwards, with all that was known before. -/
theorem knows_of_register {next : Scope} {op : Operation} {name : String}
    (h : s.register op = .ok (next, name)) :
    next.knows op = true ∧ ∀ other, s.knows other = true → next.knows other = true := by
  have hafter := after_register_of_ok h
  constructor
  · cases hknown : s.knows op with
    | true => exact hafter ▸ knows_after hknown _
    | false =>
      cases hname : op.name.isEmpty with
      | true => cases (register_unnamed hknown hname).symm.trans h
      | false =>
        rw [after_register_new hknown hname] at hafter
        rw [← hafter, knows_iff]
        simp [registeredKeys, enrol]
  · exact fun other hother => hafter ▸ knows_after hother _

theorem fault_of_register {op : Operation} {fault : Fault} (h : s.register op = .error fault) :
    fault = .unnamedOperation op.kind := by
  cases hknown : s.knows op with
  | true =>
    obtain ⟨name, hname⟩ := (s.knows_iff_resolve op).mp hknown
    cases (register_known hname).symm.trans h
  | false =>
    cases hname : op.name.isEmpty with
    | true => exact Except.error.inj (h.symm.trans (register_unnamed hknown hname))
    | false => cases (register_new hknown hname).symm.trans h

end Scope

namespace Catalog

/-- The definitions are closed under what their bodies call. -/
def Closed (k : Catalog) : Prop := ∀ d ∈ k.definitions, d.Closed k.scope

/-- What collecting the instructions comes to, from the catalog `k`. -/
structure Walked (k : Catalog) (is : List Instruction) (r : Collected) : Prop where
  closed : r.catalog.Closed
  keeps : ∀ op, k.scope.knows op = true → r.catalog.scope.knows op = true
  settled : r.failure = none → ∀ i ∈ is, i.Settled r.catalog.scope
  fault : ∀ e ∈ r.failure, ∀ name, e.fault ≠ .undefinedOperation name

theorem Walked.stay {k : Catalog} (h : k.Closed) {is : List Instruction}
    (hsettled : ∀ i ∈ is, i.Settled k.scope) : k.Walked is ⟨k, none⟩ where
  closed := h
  keeps _ := id
  settled _ := hsettled
  fault := nofun

/-- A walk that has failed settles nothing. -/
theorem Walked.fail {k next : Catalog} {is js : List Instruction} {e : ExportFailure}
    (h : k.Walked is ⟨next, some e⟩) : k.Walked js ⟨next, some e⟩ where
  closed := h.closed
  keeps := h.keeps
  settled := nofun
  fault := h.fault

theorem Walked.append {k next : Catalog} {is js : List Instruction} {r : Collected}
    (h : k.Walked is ⟨next, none⟩) (hnext : next.Walked js r) : k.Walked (is ++ js) r where
  closed := hnext.closed
  keeps op hop := hnext.keeps op (h.keeps op hop)
  settled hr i hi := by
    rcases List.mem_append.mp hi with hi | hi
    · exact (h.settled rfl i hi).mono hnext.keeps
    · exact hnext.settled hr i hi
  fault := hnext.fault

/-- An operation is defined after its body has been walked through. -/
theorem Walked.define {k next : Catalog} {i : Instruction} (hcalled : i.operation.IsCalled)
    (h : k.Walked i.operation.inner ⟨next, none⟩) :
    k.Walked [i] (next.define i.operation i.operation.form) := by
  rw [Catalog.define_eq]
  cases hreg : next.scope.register i.operation with
  | error fault =>
    refine ⟨h.closed, h.keeps, nofun, ?_⟩
    rintro _ ⟨⟩ name
    rw [Scope.fault_of_register hreg]
    nofun
  | ok registered =>
    obtain ⟨scope, name⟩ := registered
    obtain ⟨hknown, hkeeps⟩ := Scope.knows_of_register hreg
    constructor
    · intro d hd
      rcases List.mem_append.mp hd with hd | hd
      · exact (h.closed d hd).mono hkeeps
      · obtain rfl := List.mem_singleton.mp hd
        apply Definition.closed_of_called hcalled
        exact fun j hj => (h.settled rfl j hj).mono hkeeps
    · exact fun op hop => hkeeps op (h.keeps op hop)
    · intro _ j hj
      obtain rfl := List.mem_singleton.mp hj
      exact Instruction.settled_of_knows hcalled hknown
    · exact nofun

/-- No case asks whether the body of a known operation was ever walked through: its instructions
matter only if that operation has a definition, and then they were settled with it. -/
theorem Walk.walked {k : Catalog} {is : List Instruction} {r : Collected} (h : k.Walk is r)
    (hk : k.Closed) : k.Walked is r := by
  induction h with
  | nil k => exact .stay hk nofun
  | cons _ _ ihfirst ihothers =>
    have hfirst := ihfirst hk
    exact hfirst.append (ihothers hfirst.closed)
  | halt _ ih => exact (ih hk).fail
  | known hcalled hknown =>
    apply Walked.stay hk
    intro j hj
    obtain rfl := List.mem_singleton.mp hj
    exact Instruction.settled_of_knows hcalled hknown
  | define hcalled _ _ ih => exact (ih hk).define hcalled
  | haltInside _ _ _ ih => exact (ih hk).fail
  | pass huncalled hkind =>
    apply Walked.stay hk
    intro j hj
    obtain rfl := List.mem_singleton.mp hj
    exact ⟨hkind, fun hc => absurd hc huncalled⟩
  | unknownKind _ =>
    refine ⟨hk, fun _ hop => hop, nofun, ?_⟩
    rintro _ ⟨⟩ name
    nofun

end Catalog

namespace Session

theorem closed_reserveGlobals {k : Catalog} (h : k.Closed) (c : Circuit) :
    (reserveGlobals k c).Closed := by
  obtain ⟨reserved, hreserved⟩ := Catalog.foldl_reserve (globalNames c) k.scope
  intro d hd
  apply (h d hd).mono
  intro op hop
  unfold reserveGlobals
  rw [hreserved]
  exact hop

/-- The walk of the session's next build. -/
def walk (s : Session) : Collected :=
  (reserveGlobals s.catalog s.circuit).collectAll s.circuit.instructions

theorem walked_walk {s : Session} (h : s.catalog.Closed) :
    (reserveGlobals s.catalog s.circuit).Walked s.circuit.instructions s.walk :=
  (Catalog.walk_collectAll _ _).walked (closed_reserveGlobals h s.circuit)

/-- A build checks the registers, walks and lowers. -/
theorem build_eq (s : Session) :
    s.build =
      match checkRegisters s.circuit, s.walk.failure with
      | .error fault, _ => (s, .error (.general fault))
      | .ok (), some e => ({ s with catalog := s.walk.catalog }, .error e)
      | .ok (), none => ({ s with catalog := s.walk.catalog },
          program s.circuit s.options s.walk.catalog) := by
  unfold build
  cases checkRegisters s.circuit with
  | error fault => rfl
  | ok =>
    have hwalk : (reserveGlobals s.catalog s.circuit).collectAll s.circuit.instructions =
      s.walk := rfl
    rw [hwalk]
    rcases s.walk with ⟨catalog, _ | e⟩ <;> rfl

/-- A build ends with the fault of a register, with that of the walk, or with what lowering
makes of the catalog. -/
theorem build_cases (s : Session) :
    (∃ fault, checkRegisters s.circuit = .error fault ∧
      s.build = (s, .error (.general fault))) ∨
    (∃ e, s.walk.failure = some e ∧
      s.build = ({ s with catalog := s.walk.catalog }, .error e)) ∨
    (s.walk.failure = none ∧ s.build = ({ s with catalog := s.walk.catalog },
      program s.circuit s.options s.walk.catalog)) := by
  rw [build_eq]
  cases checkRegisters s.circuit with
  | error fault => exact .inl ⟨fault, rfl, rfl⟩
  | ok =>
    cases s.walk.failure with
    | some e => exact .inr (.inl ⟨e, rfl, rfl⟩)
    | none => exact .inr (.inr ⟨rfl, rfl⟩)

theorem closed_build {s : Session} (h : s.catalog.Closed) : s.build.1.catalog.Closed := by
  obtain ⟨_, -, hs⟩ | ⟨_, -, hs⟩ | ⟨-, hs⟩ := s.build_cases <;> rw [hs]
  · exact h
  · exact (walked_walk h).closed
  · exact (walked_walk h).closed

/-- The session after builds of some circuits, one after another: a session may see its circuit
grow between builds. -/
def afterBuilds (s : Session) (circuits : List Circuit) : Session :=
  circuits.foldl (fun s c => Session.build { s with circuit := c } |>.1) s

theorem closed_afterBuilds {s : Session} (h : s.catalog.Closed) (circuits : List Circuit) :
    (s.afterBuilds circuits).catalog.Closed := by
  unfold afterBuilds
  induction circuits generalizing s with
  | nil => exact h
  | cons c rest ih =>
    apply ih
    apply closed_build
    exact h

theorem program_failsOnly {c : Circuit} {k : Catalog} (hk : k.Closed)
    (hc : ∀ i ∈ c.instructions, i.Settled k.scope) (options : Options) :
    FailsOnly (¬ ExportFailure.IsInternal ·) (program c options k) := by
  unfold program
  apply FailsOnly.bind (.mapM fun d hd => (hk d hd).lower options.fold)
  intro definitions
  apply FailsOnly.bind (Circuit.lowered_failsOnly hc options.fold .indexed)
  exact fun _ => .ok _

/-- Whatever the operations of a circuit are, and whatever builds went before in the session, of
the circuit as it was then and with whatever result, the walk of a build leaves a catalog whose
definitions have the kind and the body of their operations and bodies with a name for every
callee. If the walk succeeds, the circuit's own callees have names too. The build then never
fails for want of a definition, and it reports an unknown kind only if the walk did. -/
theorem internal_failures_unreachable (earlier : List Circuit) (c : Circuit) (options : Options) :
    let before : Session := { (start c options).afterBuilds earlier with circuit := c }
    (∀ d ∈ before.walk.catalog.definitions, d.Closed before.walk.catalog.scope) ∧
      (before.walk.failure = none →
        ∀ i ∈ c.instructions, i.Settled before.walk.catalog.scope) ∧
      ∀ e, before.build.2 = .error e →
        (∀ name, e.fault ≠ .undefinedOperation name) ∧
          (e.fault = .unknownKind → before.walk.failure = some e) := by
  intro before
  have hstart : (start c options).catalog.Closed := nofun
  have hclosed : before.catalog.Closed := closed_afterBuilds hstart earlier
  have hwalk := walked_walk hclosed
  refine ⟨hwalk.closed, hwalk.settled, ?_⟩
  intro e he
  obtain ⟨fault, hregs, hs⟩ | ⟨_, hfail, hs⟩ | ⟨hfail, hs⟩ := before.build_cases <;> rw [hs] at he
  · obtain rfl := Except.error.inj he
    obtain ⟨hname, hkind⟩ :=
      Fault.ne_of_not_internal (blameless_checkRegisters before.circuit fault hregs)
    exact ⟨hname, fun h => absurd h hkind⟩
  · obtain rfl := Except.error.inj he
    exact ⟨hwalk.fault _ hfail, fun _ => hfail⟩
  · obtain ⟨hname, hkind⟩ := Fault.ne_of_not_internal
      (program_failsOnly hwalk.closed (hwalk.settled hfail) before.options e he)
    exact ⟨hname, fun h => absurd h hkind⟩

namespace Shadowed

def mark : Operation := ⟨.gate, "mark", 1, 0, [], none, none, 4⟩

def bare : Operation := ⟨.gate, "rx", 1, 0, [], none, some .rx, 5⟩

/-- Tagged and named like the one above, so that its body is never walked through. -/
def bodied : Operation :=
  ⟨.gate, "rx", 1, 0, [],
    some ⟨"rx", [⟨.quantum, "q", 1⟩], [], [Catalog.Shared.onto mark]⟩, some .rx, 6⟩

def circuit : Circuit :=
  ⟨"main", [⟨.quantum, "q", 1⟩], [],
    [Catalog.Shared.onto bare, Catalog.Shared.onto bodied]⟩

/-- After two builds of which one failed: nothing is known of `mark`, and nothing asks for it. -/
theorem builds_without_mark :
    let before : Session :=
      { (start circuit ⟨[], true⟩).afterBuilds [halting, circuit] with circuit }
    before.walk.failure = none ∧
      before.walk.catalog.definitions.map (·.name) = ["leaf", "twice", "rx"] ∧
      (∀ i ∈ circuit.instructions, i.Settled before.walk.catalog.scope) ∧
      before.walk.catalog.scope.resolve mark = .error (.undefinedOperation "mark") ∧
      before.build.2.toOption.isSome = true := by
  obtain ⟨-, hsettled, -⟩ := internal_failures_unreachable [halting, circuit] circuit ⟨[], true⟩
  exact ⟨rfl, rfl, hsettled rfl, rfl, rfl⟩

end Shadowed
end Session
end OpenQasm
