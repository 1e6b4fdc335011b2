import OpenQasm.Proofs.Appending
import OpenQasm.Proofs.Scoping

/-! What the conditions of an exported circuit test, and when the tested bit is there. -/
namespace OpenQasm

/-- The target is one of the circuit's own classical registers, or a bit of one. -/
def ConditionTarget.DeclaredIn (c : Circuit) : ConditionTarget → Prop
  | .register r => ∃ declared ∈ c.cregs, declared.kind = .classical ∧ declared.name = r.name
  | .bit b => ∃ declared ∈ c.cregs, declared.kind = .classical ∧ declared.contains b = true

namespace Circuit.Regular
variable {c : Circuit} (h : c.Regular)
include h

theorem declaredIn_register {r : Register} (htest : (ConditionTarget.register r).Testable c) :
    (ConditionTarget.register r).DeclaredIn c := by
  obtain ⟨-, declared, hfind, hkind⟩ := htest
  have hname : declared.name = r.name := by simpa using List.find?_some hfind
  have hin := List.mem_filter.mp (h.mem_cregs (List.mem_of_find?_eq_some hfind) hkind)
  exact ⟨declared, hin.1, hkind, hname⟩

theorem declaredIn_bit_iff {b : Bit} (htest : (ConditionTarget.bit b).Testable c) :
    (ConditionTarget.bit b).DeclaredIn c ↔ c.Holds .classical b := by
  obtain ⟨hkind, hregister⟩ := htest
  constructor
  · rintro ⟨declared, hin, hclassical, hcontains⟩
    refine ⟨hkind, ?_⟩
    intro name hname
    simp only [Register.contains, hname, Bool.and_eq_true, beq_iff_eq, Option.some.injEq,
      decide_eq_true_eq] at hcontains
    exact ⟨declared, List.mem_append_right _ hin, hclassical, hcontains.1.2.symm, hcontains.2⟩
  · intro hholds
    rcases hholds.liesIn fun r => h.mem_cregs with hphysical | ⟨r, hr, hcontains⟩
    · simp [Option.isNone_iff_eq_none.mp hphysical] at hregister
    · obtain ⟨hr, hclassical⟩ := List.mem_filter.mp hr
      exact ⟨r, hr, of_decide_eq_true hclassical, hcontains⟩

/-- A target that can be tested is declared, unless it is a bit that would not do as operand. -/
theorem declaredIn_iff {target : ConditionTarget} (htest : target.Testable c)
    (operation : String) :
    target.DeclaredIn c ↔
      ∀ b, target = .bit b → c.checkOperand operation .classical b = .ok () := by
  cases target with
  | register r => exact iff_of_true (h.declaredIn_register htest) nofun
  | bit b => simp [h.declaredIn_bit_iff htest, h.checkOperand_eq_ok]

end Circuit.Regular

theorem Instruction.testable_of_lower {i : Instruction} {c : Circuit} {s : Scope} {fold : Bool}
    {naming : Naming} {st : Statement} (h : i.lower c s fold naming = .ok st) {cond : Condition}
    (hcond : i.condition = some cond) : cond.target.Testable c := by
  obtain ⟨hnone, -⟩ | ⟨other, test, _, hother, htest, -, -⟩ := lower_eq_ok h
  · cases hnone.symm.trans hcond
  · obtain rfl := Option.some.inj (hother.symm.trans hcond)
    exact (Condition.exists_equality.mp ⟨test, htest⟩).2

/-- Where the condition tests a bit, lowering asks nothing of the circuit. -/
theorem Instruction.lower_eq_of_bit {i : Instruction} {cond : Condition} {b : Bit}
    (hcond : i.condition = some cond) (hb : cond.target = .bit b) (c d : Circuit) (s : Scope)
    (fold : Bool) (naming : Naming) : i.lower c s fold naming = i.lower d s fold naming := by
  have htest : cond.equality c naming = cond.equality d naming := by
    simp only [Condition.equality, Condition.targetExpression, hb]
  simp only [lower, hcond, htest]

/-- Every instruction of the circuit and of the bodies has a statement. -/
theorem Exported.exists_statement {c : Circuit} {options : Options} {k : Catalog}
    {items : List ProgramItem} {statements : List Statement}
    (h : Exported c options k items statements) {d : Circuit} (hd : d ∈ c :: k.bodies)
    {i : Instruction} (hi : i ∈ d.instructions) :
    ∃ naming st, i.lower d k.scope options.fold naming = .ok st := by
  rcases List.mem_cons.mp hd with rfl | hd
  · obtain ⟨st, -, hst⟩ := exists_right_of_forall₂ h.instructions hi
    exact ⟨_, st, hst⟩
  · obtain ⟨e, he, hbody⟩ := List.mem_filterMap.mp hd
    obtain ⟨-, sts, hsts⟩ := h.lowered_definition he hbody
    obtain ⟨st, -, hst⟩ := exists_right_of_forall₂ (Circuit.lowered_eq_ok.mp hsts) hi
    exact ⟨_, st, hst⟩

/-- Circuits and bodies of a build that succeeded were built step by step. -/
theorem Circuit.Grown.regular_of_mem {c : Circuit} (hc : c.Grown) {options : Options} {k : Catalog}
    {items : List ProgramItem} {statements : List Statement}
    (h : Exported c options k items statements) {d : Circuit} (hd : d ∈ c :: k.bodies) :
    d.Regular := by
  rcases List.mem_cons.mp hd with rfl | hd
  · exact hc.built.regular
  · obtain ⟨e, he, hbody⟩ := List.mem_filterMap.mp hd
    exact (hc.bodies e.operation (h.definition_form he).1 d hbody).regular

/-- What a condition of an exported circuit tests, in the circuit itself or in a body of the
catalog. The target of an equality is a classical register that the circuit around the instruction
declares, or a classical bit that names a register. The bit is declared exactly if it would have
passed as an operand of the instruction; the lowering does not ask for that, and has the same
result whatever the circuit declares. -/
theorem condition_target_declared_iff {c : Circuit} (hc : c.Grown) {options : Options} {s : Session}
    {p : Program} (h : (Session.start c options).build = (s, .ok p)) {d : Circuit}
    (hd : d ∈ c :: s.catalog.bodies) {i : Instruction} (hi : i ∈ d.instructions)
    {cond : Condition} (hcond : i.condition = some cond) :
    cond.target.Testable d ∧
      (cond.target.DeclaredIn d ↔
        ∀ b, cond.target = .bit b → d.checkOperand i.operation.name .classical b = .ok ()) ∧
      ∀ b, cond.target = .bit b → ∀ (e : Circuit) (scope : Scope) (fold : Bool) (naming : Naming),
        i.lower d scope fold naming = i.lower e scope fold naming := by
  obtain ⟨items, statements, hexp, -⟩ := Session.exported_of_build h
  obtain ⟨naming, st, hst⟩ := hexp.exists_statement hd hi
  have htest := Instruction.testable_of_lower hst hcond
  refine ⟨htest, (hc.regular_of_mem hexp hd).declaredIn_iff htest _, ?_⟩
  intro b hb e scope fold naming
  exact Instruction.lower_eq_of_bit hcond hb d e scope fold naming

namespace Dangling

def flip : Operation := ⟨.gate, "x", 1, 0, [], none, some .x, 0⟩

def testing (target : ConditionTarget) : Instruction :=
  ⟨flip, [Nested.q 0], [], some ⟨target, .equal, 1⟩⟩

def bit (register : String) : ConditionTarget := .bit ⟨.classical, some register, 0⟩

def register : ConditionTarget := .register ⟨.classical, "c", 1⟩

/-- It tests a bit of its caller. -/
def body : Circuit := ⟨"g", [⟨.quantum, "q", 1⟩], [], [testing (bit "c")]⟩

def bodyGate : Operation := ⟨.gate, "g", 1, 0, [], some body, none, 1⟩

/-- It tests a register and a bit of it. -/
def circuit : Circuit :=
  ⟨"main", [⟨.quantum, "q", 1⟩], [⟨.classical, "c", 1⟩],
    [testing register, testing (bit "c"), ⟨bodyGate, [Nested.q 0], [], none⟩]⟩

theorem history : History [bodyGate, flip] := by
  have hflip : Operation.ofStandard 0 .x [] = .ok flip := rfl
  have hbody : body.Built (· ∈ [flip]) :=
    (Circuit.Built.ofSizes "g" 1 0).append (i := testing (bit "c")) (by simp [testing]) rfl
  have hgate : body.asGate 1 none = .ok bodyGate := rfl
  exact (History.nil.cons (by decide) (.standard hflip)).cons (by decide) (.gate hbody hgate)

theorem circuit_fromFactories : circuit.FromFactories :=
  ⟨_, history, (((Circuit.Built.ofSizes "main" 1 1).append (i := testing register)
    (by simp [testing]) rfl).append (i := testing (bit "c")) (by simp [testing]) rfl).append
    (i := ⟨bodyGate, [Nested.q 0], [], none⟩) (by simp) rfl⟩

/-- The register and its bit are declared; in the body the same bit is not. -/
theorem targets_declared_in_circuit :
    ∃ s p, (Session.start circuit .standard).build = (s, .ok p) ∧ body ∈ s.catalog.bodies ∧
      register.DeclaredIn circuit ∧ (bit "c").DeclaredIn circuit ∧ ¬ (bit "c").DeclaredIn body := by
  obtain ⟨s, p, h⟩ : ∃ s p, (Session.start circuit .standard).build = (s, .ok p) := ⟨_, _, rfl⟩
  have hbodies : (Session.start circuit .standard).build.1.catalog.bodies = [body] := rfl
  rw [h] at hbodies
  have hbody : body ∈ s.catalog.bodies := hbodies ▸ List.mem_cons_self
  have hcircuit : circuit ∈ circuit :: s.catalog.bodies := List.mem_cons_self
  have happly (target : ConditionTarget) {d : Circuit} (hd : d ∈ circuit :: s.catalog.bodies)
      (hin : testing target ∈ d.instructions) :=
    (condition_target_declared_iff circuit_fromFactories.assembled.grown h hd hin rfl).2.1
  refine ⟨s, p, h, hbody, ?_, ?_, ?_⟩
  · exact (happly register hcircuit (by simp [circuit])).mpr nofun
  · refine (happly (bit "c") hcircuit (by simp [circuit])).mpr ?_
    rintro _ ⟨⟩
    rfl
  · intro hdeclared
    have hchecked := (happly (bit "c") (List.mem_cons_of_mem _ hbody) (by simp [body])).mp
      hdeclared _ rfl
    exact absurd hchecked nofun

/-- It tests a bit that is not there. -/
def stray : Circuit :=
  ⟨"main", [⟨.quantum, "q", 1⟩], [⟨.classical, "c", 1⟩], [testing (bit "missing")]⟩

/-- The program tests an element of a register that it does not declare. -/
theorem target_not_declared :
    stray.FromFactories ∧ ∃ s p, (Session.start stray .standard).build = (s, .ok p) ∧
      .statement (.branch ⟨.operand ⟨"missing", some 0⟩, .integer 1⟩
        [.gateCall ⟨"x", [], [⟨"q", some 0⟩]⟩]) ∈ p.statements ∧
      (∀ storage size, .register storage "missing" size ∉ p.statements) ∧
      ¬ ∀ d ∈ stray :: s.catalog.bodies, ∀ i ∈ d.instructions, ∀ cond ∈ i.condition,
        cond.target.DeclaredIn d := by
  obtain ⟨s, p, h⟩ : ∃ s p, (Session.start stray .standard).build = (s, .ok p) := ⟨_, _, rfl⟩
  have hprogram : (Session.start stray .standard).build.2.map (·.statements) =
      .ok [.register .bit "c" 1, .register .qubit "q" 1,
        .statement (.branch ⟨.operand ⟨"missing", some 0⟩, .integer 1⟩
          [.gateCall ⟨"x", [], [⟨"q", some 0⟩]⟩])] := rfl
  rw [h] at hprogram
  have hstatements := Except.ok.inj hprogram
  refine ⟨?_, s, p, h, ?_, ?_, ?_⟩
  · exact ⟨_, history, (Circuit.Built.ofSizes "main" 1 1).append (i := testing (bit "missing"))
      (by simp [testing]) rfl⟩
  · simp [hstatements]
  · intro storage size
    simp [hstatements]
  · intro hall
    obtain ⟨declared, hin, -, hcontains⟩ := hall stray List.mem_cons_self
      (testing (bit "missing")) List.mem_cons_self _ rfl
    obtain rfl := List.mem_singleton.mp hin
    exact absurd hcontains (by decide)

end Dangling
end OpenQasm
