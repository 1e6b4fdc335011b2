import OpenQasm.Proofs.InternalFailures
import OpenQasm.Proofs.Scoping

/-! The instruction that a failed export blames, and the text that the report cites. -/
namespace OpenQasm

/-- The instruction has a condition, and it is not for the condition that it cannot be exported. -/
def Instruction.GuardPasses (i : Instruction) (c : Circuit) : Prop :=
  ∃ cond, i.condition = some cond ∧ i.operation.kind ≠ .barrier ∧ cond.comparison = .equal ∧
    cond.target.Testable c

theorem Instruction.text_of_condition {i : Instruction} {cond : Condition}
    (h : i.condition = some cond) :
    i.text = i.unguarded.text ++ (" if (" ++ cond.text ++ ")") := by
  simp [text, unguarded, h, String.append_assoc]

theorem Instruction.text_unguarded_ne {i : Instruction} {cond : Condition}
    (h : i.condition = some cond) : i.unguarded.text ≠ i.text := by
  intro heq
  have hlength := congrArg String.length heq
  rw [text_of_condition h, String.length_append, String.length_append, String.length_append]
    at hlength
  have hshort : " if (".length = 5 := rfl
  omega

namespace ExportFailure
variable {e : ExportFailure}

theorem instruction_of_site {i : Instruction} (h : e.site = some i) :
    e.report.instruction = i.text := by
  simp [report, h]

theorem exists_site (h : e.report.instruction ≠ "") : ∃ i, e.site = some i := by
  cases hsite : e.site with
  | some i => exact ⟨i, rfl⟩
  | none => simp [report, hsite] at h

end ExportFailure

/-- The failure blames no instruction but this. -/
def ExportFailure.OnlyAt (i : Instruction) (e : ExportFailure) : Prop := ∀ j ∈ e.site, j = i

theorem ExportFailure.onlyAt_inside (fault : Fault) (i : Instruction) :
    (inside fault i).OnlyAt i := by
  rintro _ ⟨⟩
  rfl

theorem located_onlyAt {α : Type} (i : Instruction) (x : Except Fault α) :
    FailsOnly (·.OnlyAt i) (located i x) := by
  cases x with
  | ok a => exact .ok a
  | error fault => exact .error (ExportFailure.onlyAt_inside fault i)

theorem unlocated_onlyAt {α : Type} (i : Instruction) (x : Except Fault α) :
    FailsOnly (·.OnlyAt i) (unlocated x) := by
  cases x with
  | ok a => exact .ok a
  | error fault => exact .error nofun

namespace Instruction
variable (i : Instruction) (s : Scope) (fold : Bool) (naming : Naming)

theorem call_onlyAt : FailsOnly (·.OnlyAt i) (i.call s fold naming) := by
  apply FailsOnly.bind (unlocated_onlyAt i _)
  intro name
  exact .bind (located_onlyAt i _) fun _ => .ok _

theorem measurement_onlyAt : FailsOnly (·.OnlyAt i) (i.measurement naming) := by
  unfold measurement
  split
  · apply FailsOnly.bind (located_onlyAt i _)
    intro target
    exact .bind (located_onlyAt i _) fun _ => .ok _
  · exact .error (ExportFailure.onlyAt_inside _ i)

theorem unconditioned_onlyAt : FailsOnly (·.OnlyAt i) (i.unconditioned s fold naming) := by
  unfold unconditioned
  cases i.operation.kind with
  | gate | subroutine => exact .bind (i.call_onlyAt s fold naming) fun _ => .ok _
  | barrier => exact .bind (located_onlyAt i _) fun _ => .ok _
  | measurement => exact i.measurement_onlyAt naming
  | outside code => exact .error (ExportFailure.onlyAt_inside _ i)

variable {i s fold naming}

/-- Once the test of its condition is there, the instruction is lowered without the condition. -/
theorem lower_of_test {c : Circuit} {cond : Condition} {test : Equality}
    (hcond : i.condition = some cond) (hkind : i.operation.kind ≠ .barrier)
    (htest : cond.equality c naming = .ok test) :
    i.lower c s fold naming =
      (i.unguarded.unconditioned s fold naming >>= fun body => .ok (.branch test [body])) := by
  simp only [lower, hcond, if_neg hkind, htest]
  rfl

/-- Lowering an instruction blames it, without its condition if that passed. -/
theorem site_of_lower {c : Circuit} {e : ExportFailure} (h : i.lower c s fold naming = .error e)
    {j : Instruction} (hj : e.site = some j) :
    (¬ i.GuardPasses c ∧ j = i) ∨ (i.GuardPasses c ∧ j = i.unguarded) := by
  cases hcond : i.condition with
  | none =>
    rw [lower, hcond] at h
    refine .inl ⟨?_, i.unconditioned_onlyAt s fold naming e h j hj⟩
    rintro ⟨cond, hsome, -⟩
    cases hcond.symm.trans hsome
  | some cond =>
    have hpasses : i.GuardPasses c ↔
        i.operation.kind ≠ .barrier ∧ ∃ test, cond.equality c naming = .ok test := by
      simp [GuardPasses, hcond, Condition.exists_equality]
    by_cases hguard : i.GuardPasses c
    · obtain ⟨hkind, test, htest⟩ := hpasses.mp hguard
      rw [lower_of_test hcond hkind htest] at h
      have honly := FailsOnly.bind (i.unguarded.unconditioned_onlyAt s fold naming) fun body =>
        .ok (Statement.branch test [body])
      exact .inr ⟨hguard, honly e h j hj⟩
    · -- the failure comes before the instruction is lowered without its condition
      refine .inl ⟨hguard, ?_⟩
      rw [lower, hcond] at h
      dsimp only at h
      split at h
      · exact ExportFailure.onlyAt_inside _ i j (Except.error.inj h ▸ hj)
      · rename_i hkind
        cases htest : cond.equality c naming with
        | ok test => exact absurd (hpasses.mpr ⟨hkind, test, htest⟩) hguard
        | error fault =>
          rw [htest] at h
          exact ExportFailure.onlyAt_inside fault i j (Except.error.inj h ▸ hj)

/-- The report of the failure cites the instruction, without its condition if that passed. -/
theorem cited_of_lower {c : Circuit} {e : ExportFailure} (h : i.lower c s fold naming = .error e)
    {j : Instruction} (hj : e.site = some j) :
    (e.report.instruction = i.text ↔ ¬ i.GuardPasses c) ∧
      (e.report.instruction ≠ i.text → e.report.instruction = i.unguarded.text) := by
  rw [ExportFailure.instruction_of_site hj]
  obtain ⟨hguard, rfl⟩ | ⟨hguard, rfl⟩ := site_of_lower h hj
  · simp [hguard]
  · obtain ⟨cond, hcond, -⟩ := id hguard
    simp [hguard, text_unguarded_ne hcond]

end Instruction

/-- Unless the failure concerns no instruction, it is that of an instruction of the circuit. -/
def Circuit.Raises (c : Circuit) (s : Scope) (fold : Bool) (e : ExportFailure) : Prop :=
  e.site ≠ none → ∃ i ∈ c.instructions, ∃ naming, i.lower c s fold naming = .error e

theorem Circuit.lowered_raises (c : Circuit) (s : Scope) (fold : Bool) (naming : Naming) :
    FailsOnly (c.Raises s fold) (c.lowered s fold naming) :=
  .mapM fun i hi _ he _ => ⟨i, hi, naming, he⟩

theorem Definition.lower_raises {d : Definition} (hform : d.form = d.operation.form) (s : Scope)
    (fold : Bool) :
    FailsOnly (fun e => ∃ b, d.operation.body = some b ∧ b.Raises s fold e) (d.lower s fold) := by
  have hchecked {b : Circuit} (hb : d.operation.body = some b) :
      FailsOnly (fun e => ∃ b, d.operation.body = some b ∧ b.Raises s fold e)
        (unlocated (checkRegisters b)) := by
    intro e he
    refine ⟨b, hb, fun hsite => ?_⟩
    cases hcheck : checkRegisters b with
    | ok u => simp [hcheck, unlocated] at he
    | error fault =>
      rw [hcheck] at he
      exact absurd (Except.error.inj he ▸ rfl) hsite
  have hlowered {b : Circuit} (hb : d.operation.body = some b) :
      FailsOnly (fun e => ∃ b, d.operation.body = some b ∧ b.Raises s fold e)
        (b.lowered s fold .flat) :=
    fun e he => ⟨b, hb, b.lowered_raises s fold .flat e he⟩
  unfold lower
  split
  · rename_i b hf
    have hb := Operation.body_of_form (hform.symm.trans hf) (.inl rfl)
    exact .bind (hchecked hb) fun _ => .bind (hlowered hb) fun _ => .ok _
  · rename_i b hf
    have hb := Operation.body_of_form (hform.symm.trans hf) (.inr rfl)
    exact .bind (hchecked hb) fun _ => .bind (hlowered hb) fun _ => .ok _
  · exact .ok _

theorem Session.program_raises {c : Circuit} {options : Options} {k : Catalog}
    (hform : ∀ d ∈ k.definitions, d.form = d.operation.form) :
    FailsOnly (fun e => ∃ d ∈ c :: k.bodies, d.Raises k.scope options.fold e)
      (program c options k) := by
  have hdefinitions : FailsOnly (fun e => ∃ d ∈ c :: k.bodies, d.Raises k.scope options.fold e)
      (k.definitions.mapM fun d => d.lower k.scope options.fold) := by
    apply FailsOnly.mapM
    intro d hd e he
    obtain ⟨b, hb, hraises⟩ := Definition.lower_raises (hform d hd) k.scope options.fold e he
    exact ⟨b, List.mem_cons_of_mem c (List.mem_filterMap.mpr ⟨d, hd, hb⟩), hraises⟩
  unfold program
  apply FailsOnly.bind hdefinitions
  intro definitions
  refine .bind (fun e he => ?_) fun _ => .ok _
  exact ⟨c, List.mem_cons_self, c.lowered_raises k.scope options.fold .indexed e he⟩

namespace Catalog

theorem site_of_define {k : Catalog} {op : Operation} {form : DefinitionForm} {e : ExportFailure}
    (h : (k.define op form).failure = some e) : e.site = none := by
  rw [define_eq] at h
  cases hreg : k.scope.register op with
  | ok registered => simp [hreg] at h
  | error fault =>
    rw [hreg] at h
    exact Option.some.inj h ▸ rfl

/-- A walk that blames an instruction came upon it, and does not know its kind. -/
theorem Walk.site {k : Catalog} {is : List Instruction} {r : Collected} (h : k.Walk is r)
    {e : ExportFailure} (he : r.failure = some e) {i : Instruction} (hi : e.site = some i) :
    i ∈ postorder k.scope.provides is ∧ e = .inside .unknownKind i ∧
      ∃ code, i.operation.kind = .outside code := by
  induction h with
  | nil | known | pass => cases he
  | cons hfirst _ _ ih =>
    rw [hfirst.provides_eq] at ih
    obtain ⟨hin, hrest⟩ := ih he
    exact ⟨List.mem_append_right _ hin, hrest⟩
  | halt _ ih =>
    obtain ⟨hin, hrest⟩ := ih he
    exact ⟨List.mem_append_left _ (by simpa using hin), hrest⟩
  | define _ _ _ _ => cases hi.symm.trans (site_of_define he)
  | haltInside hcalled hunknown _ ih =>
    obtain ⟨hin, hrest⟩ := ih he
    rw [postorder_of_unknown hcalled hunknown]
    exact ⟨List.mem_append_left _ hin, hrest⟩
  | @unknownKind k j hkind =>
    obtain rfl := Option.some.inj he
    obtain rfl := Option.some.inj hi
    have huncalled : ¬ j.operation.IsCalled := by
      obtain ⟨code, hcode⟩ := hkind
      simp [Operation.IsCalled, hcode]
    have hself : j ∈ j.postorder k.scope.provides :=
      (mem_postorder_self_of_uncalled huncalled).mpr hkind
    exact ⟨mem_postorder.mpr ⟨j, List.mem_cons_self, hself⟩, rfl, hkind⟩

end Catalog

theorem Definition.Closed.isCalled {d : Definition} {s : Scope} (h : d.Closed s)
    (hbody : d.operation.body ≠ none) : d.operation.IsCalled := by
  cases hform : d.form with
  | gate b => exact .inl (h.gate b hform).1
  | subroutine b => exact .inr (h.subroutine b hform).1
  | bodiless => exact absurd (h.bodiless hform) hbody

namespace Session

theorem walk_start (c : Circuit) (options : Options) :
    (Catalog.ofScope (c.globalScope options)).Walk c.instructions (start c options).walk :=
  Catalog.walk_collectAll _ _

/-- What the walk of a circuit defines, it has come upon there or in a body that the circuit
reaches; so the circuit reaches the body of the definition. -/
theorem reaches_of_mem_bodies {c : Circuit} {options : Options} {b : Circuit}
    (hb : b ∈ (start c options).walk.catalog.bodies) :
    Relation.ReflTransGen (Circuit.Enters options) c b := by
  obtain ⟨d, hd, hbody⟩ := List.mem_filterMap.mp hb
  have hclosed : (start c options).catalog.Closed := nofun
  have hcalled := ((walked_walk hclosed).closed d hd).isCalled (by simp [hbody])
  obtain ⟨⟨i, hi, hop⟩, -⟩ := (walk_start c options).definition_form hd
  rw [← hop] at hcalled hbody
  obtain ⟨caller, hreach, hin, ⟨code, hkind⟩ | ⟨-, hown⟩⟩ :=
    exists_circuit_of_mem_postorder (fun _ => c.provides_globalScope) hi
  · simp [Operation.IsCalled, hkind] at hcalled
  · exact hreach.tail ⟨i, hin, hcalled, hown, hbody⟩

end Session

/-- The instruction that a failed build blames stands in the circuit or in a body that the circuit
reaches. The walk does not know its kind, or lowering it fails as the build does. The report cites
it as it stands if its kind is unknown or its condition cannot be exported; a condition that can be
exported is left out. -/
theorem blamed_instruction {c : Circuit} {options : Options} {s : Session} {e : ExportFailure}
    (h : (Session.start c options).build = (s, .error e)) (htext : e.report.instruction ≠ "") :
    ∃ d i, Relation.ReflTransGen (Circuit.Enters options) c d ∧ i ∈ d.instructions ∧
      ((e = .inside .unknownKind i ∧ ∃ code, i.operation.kind = .outside code) ∨
        ∃ naming, i.lower d s.catalog.scope options.fold naming = .error e) ∧
      (e.report.instruction = i.text ↔ e.fault = .unknownKind ∨ ¬ i.GuardPasses d) ∧
      (e.report.instruction ≠ i.text → e.report.instruction = i.unguarded.text) := by
  obtain ⟨j, hsite⟩ := ExportFailure.exists_site htext
  have hstart : (Session.start c options).catalog.Closed := nofun
  have hwalked := Session.walked_walk hstart
  obtain ⟨fault, -, hs⟩ | ⟨_, hfail, hs⟩ | ⟨hfail, hs⟩ := (Session.start c options).build_cases <;>
    rw [hs] at h
  · -- a register of the circuit is at fault, and no instruction is blamed
    obtain ⟨-, he⟩ := Prod.mk.inj h
    obtain rfl := Except.error.inj he
    cases hsite
  · obtain ⟨-, he⟩ := Prod.mk.inj h
    obtain rfl := Except.error.inj he
    obtain ⟨hin, rfl, hkind⟩ := (Session.walk_start c options).site hfail hsite
    obtain ⟨d, hreach, hin, -⟩ :=
      exists_circuit_of_mem_postorder (fun _ => c.provides_globalScope) hin
    have hcited := ExportFailure.instruction_of_site hsite
    exact ⟨d, j, hreach, hin, .inl ⟨rfl, hkind⟩, iff_of_true hcited (.inl rfl),
      fun hne => absurd hcited hne⟩
  · obtain ⟨rfl, he⟩ := Prod.mk.inj h
    have hform (d : Definition) (hd : d ∈ (Session.start c options).walk.catalog.definitions) :=
      ((Session.walk_start c options).definition_form hd).2
    -- after the walk every kind is known
    have hkind : e.fault ≠ .unknownKind := (Fault.ne_of_not_internal
      (Session.program_failsOnly hwalked.closed (hwalked.settled hfail) options e he)).2
    obtain ⟨d, hd, hraises⟩ := Session.program_raises hform e he
    obtain ⟨i, hi, naming, hlower⟩ := hraises (by simp [hsite])
    have hreach : Relation.ReflTransGen (Circuit.Enters options) c d := by
      rcases List.mem_cons.mp hd with rfl | hd
      · exact .refl
      · exact Session.reaches_of_mem_bodies hd
    obtain ⟨hown, hclipped⟩ := Instruction.cited_of_lower hlower hsite
    exact ⟨d, i, hreach, hi, .inr ⟨naming, hlower⟩, by simp [hown, hkind], hclipped⟩

namespace Clipped

/-- In a body there are no physical qubits. -/
def physical : Instruction :=
  ⟨⟨.gate, "x", 1, 0, [], none, some .x, 0⟩, [⟨.quantum, none, 0⟩], [],
    some ⟨.bit ⟨.classical, some "c", 0⟩, .equal, 1⟩⟩

def body : Circuit := ⟨"g", [⟨.quantum, "q", 1⟩], [], [physical]⟩

def bodyCall : Instruction := ⟨⟨.gate, "g", 1, 0, [], some body, none, 1⟩, [Nested.q 0], [], none⟩

def caller : Circuit := ⟨"main", [⟨.quantum, "q", 1⟩], [], [bodyCall]⟩

theorem eq_of_reaches {d : Circuit}
    (h : Relation.ReflTransGen (Circuit.Enters .standard) caller d) : d = caller ∨ d = body := by
  induction h with
  | refl => exact .inl rfl
  | tail _ hstep ih =>
    obtain ⟨i, hi, -, -, hbody⟩ := hstep
    rcases ih with rfl | rfl <;> obtain rfl := List.mem_singleton.mp hi
    · exact .inr (Option.some.inj hbody).symm
    · cases hbody

/-- The physical qubit is reported as that of an instruction without a condition. -/
theorem body_instruction_blamed :
    ∃ s e, (Session.start caller .standard).build = (s, .error e) ∧
      e.report.instruction = "x $0" ∧ physical.text = "x $0 if (c[0] == 1)" ∧
      (∃ naming, physical.lower body s.catalog.scope true naming = .error e) ∧
      physical.GuardPasses body := by
  obtain ⟨s, e, h⟩ : ∃ s e, (Session.start caller .standard).build = (s, .error e) :=
    ⟨_, _, rfl⟩
  have hreport : (Session.start caller .standard).build.2.mapError (·.report.instruction) =
      .error "x $0" := rfl
  rw [h] at hreport
  have hcited : e.report.instruction = "x $0" := Except.error.inj hreport
  have htext : physical.text = "x $0 if (c[0] == 1)" := rfl
  obtain ⟨d, i, hreach, hi, hraised, hiff, hclipped⟩ :=
    blamed_instruction h (by rw [hcited]; decide)
  rw [hcited] at hiff hclipped
  rcases eq_of_reaches hreach with rfl | rfl <;> obtain rfl := List.mem_singleton.mp hi
  · have hcall : bodyCall.text = "g q[0]" := rfl
    have hcall' : bodyCall.unguarded.text = "g q[0]" := rfl
    rw [hcall, hcall'] at hclipped
    exact absurd (hclipped (by decide)) (by decide)
  · refine ⟨s, e, h, hcited, htext, ?_, ?_⟩
    · obtain ⟨-, code, hkind⟩ | hlower := hraised
      · cases hkind
      · exact hlower
    · rw [htext] at hiff
      by_contra hguard
      exact absurd (hiff.mpr (.inr hguard)) (by decide)

def pairRead : Operation := ⟨.measurement, "measure", 2, 2, [], none, none, 0⟩

/-- Only one qubit can be measured at a time. -/
def guardedRead : Instruction :=
  ⟨pairRead, [Nested.q 0, Nested.q 1], [⟨.classical, some "c", 0⟩, ⟨.classical, some "c", 1⟩],
    some ⟨.register ⟨.classical, "c", 2⟩, .equal, 1⟩⟩

def circuit : Circuit := ⟨"main", [⟨.quantum, "q", 2⟩], [⟨.classical, "c", 2⟩], [guardedRead]⟩

theorem circuit_fromFactories : circuit.FromFactories := by
  have hread : Operation.measurement 0 2 = .ok pairRead := rfl
  have hhistory : History [pairRead] := History.nil.cons (by decide) (.measurement hread)
  exact ⟨_, hhistory,
    (Circuit.Built.ofSizes "main" 2 2).append (i := guardedRead) (by simp [guardedRead]) rfl⟩

/-- No instruction of the circuit, and of the bodies it reaches, has the text that is cited. -/
theorem cited_text_not_in_circuit :
    circuit.FromFactories ∧ guardedRead.text = "measure q[0], q[1], c[0], c[1] if (c == 1)" ∧
      ∃ s e, (Session.start circuit .standard).build = (s, .error e) ∧
        e.report.instruction = "measure q[0], q[1], c[0], c[1]" ∧
        ∀ d, Relation.ReflTransGen (Circuit.Enters .standard) circuit d →
          ∀ i ∈ d.instructions, i.text ≠ e.report.instruction := by
  obtain ⟨s, e, h⟩ : ∃ s e, (Session.start circuit .standard).build = (s, .error e) :=
    ⟨_, _, rfl⟩
  have hreport : (Session.start circuit .standard).build.2.mapError (·.report.instruction) =
      .error "measure q[0], q[1], c[0], c[1]" := rfl
  rw [h] at hreport
  have hcited : e.report.instruction = "measure q[0], q[1], c[0], c[1]" :=
    Except.error.inj hreport
  have htext : guardedRead.text = "measure q[0], q[1], c[0], c[1] if (c == 1)" := rfl
  refine ⟨circuit_fromFactories, htext, s, e, h, hcited, ?_⟩
  intro d hreach i hi
  obtain rfl : d = circuit := by
    -- a measurement calls nothing
    rcases Relation.ReflTransGen.cases_head hreach with rfl | ⟨b, ⟨j, hj, hcalled, -⟩, -⟩
    · rfl
    · obtain rfl := List.mem_singleton.mp hj
      rcases hcalled with hkind | hkind <;> cases hkind
  obtain rfl := List.mem_singleton.mp hi
  rw [htext, hcited]
  decide

end Clipped
end OpenQasm
