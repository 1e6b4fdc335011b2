import OpenQasm.Proofs.ScopeRuns

/-! Registering an operation under the first free name, and what the scope says of the others. -/
namespace OpenQasm

/-- The name followed by copies of the suffix. -/
def suffixed (name suffix : String) : Nat → String
  | 0 => name
  | copies + 1 => suffixed name suffix copies ++ suffix

theorem suffixed_append (name suffix : String) (copies : Nat) :
    suffixed (name ++ suffix) suffix copies = suffixed name suffix (copies + 1) := by
  induction copies with
  | zero => rfl
  | succ copies ih =>
    rw [suffixed, ih]
    rfl

namespace Scope

/-- The suffix for the operation that is registered next. -/
def nextSuffix (s : Scope) : String := "_" ++ toString s.size

/-- The search passes over bound names only. -/
theorem exists_firstFree_eq_suffixed (s : Scope) (suffix : String) (tries : Nat) (name : String) :
    ∃ copies ≤ tries, s.firstFree suffix tries name = suffixed name suffix copies ∧
      ∀ fewer < copies, s.binds (suffixed name suffix fewer) = true := by
  induction tries generalizing name with
  | zero => exact ⟨0, Nat.le_refl 0, rfl, nofun⟩
  | succ tries ih =>
    rw [firstFree]
    split
    · rename_i hbound
      obtain ⟨copies, hle, heq, hbefore⟩ := ih (name ++ suffix)
      refine ⟨copies + 1, by omega, by rw [heq, suffixed_append], ?_⟩
      intro fewer hlt
      cases fewer with
      | zero => exact hbound
      | succ fewer =>
        rw [← suffixed_append]
        exact hbefore fewer (by omega)
    · exact ⟨0, Nat.zero_le _, rfl, nofun⟩

/-- A fresh name has as few copies of the suffix as make it free, and no more than there are
bound names. -/
theorem exists_freshName_eq_suffixed (s : Scope) (name : String) :
    ∃ copies ≤ s.boundNames.length, s.freshName name = suffixed name s.nextSuffix copies ∧
      s.binds (suffixed name s.nextSuffix copies) = false ∧
      ∀ fewer < copies, s.binds (suffixed name s.nextSuffix fewer) = true := by
  obtain ⟨copies, hle, heq, hbefore⟩ :=
    s.exists_firstFree_eq_suffixed s.nextSuffix s.boundNames.length name
  have hfresh : s.freshName name = suffixed name s.nextSuffix copies := heq
  exact ⟨copies, hle, hfresh, hfresh ▸ s.binds_freshName name, hbefore⟩

section
variable (s : Scope) (op : Operation)

theorem size_enrol : (s.enrol op).size = s.size + 1 := by
  simp [size, enrol]

theorem binds_enrol_eq (name : String) :
    (s.enrol op).binds name = (s.binds name || name == s.freshName op.name) := by
  have hbound : (s.enrol op).boundNames = s.boundNames ++ [s.freshName op.name] := by
    rw [boundNames_eq, boundNames_eq, enrol, List.map_append, List.append_assoc]
    rfl
  rw [binds, binds, hbound, List.contains_append, List.contains_cons, List.contains_nil,
    Bool.or_false]

variable {s op}

theorem slot?_of_unknown (h : s.knows op = false) : s.slot? op = none := by
  simp only [knows, Bool.or_eq_false_iff] at h
  exact Option.isSome_eq_false_iff.mp h.2 |> Option.isNone_iff_eq_none.mp

theorem slot?_enrol_self (h : s.knows op = false) : (s.enrol op).slot? op = some s.size := by
  have hold : s.entries.findIdx? (·.key == op.key) = none := slot?_of_unknown h
  simp [slot?, enrol, List.findIdx?_append, hold, size]

theorem slot?_enrol_of_ne {other : Operation} (h : other.key ≠ op.key) :
    (s.enrol op).slot? other = s.slot? other := by
  simp [slot?, enrol, List.findIdx?_append, h.symm]

theorem name?_enrol_self (h : s.knows op = false) :
    (s.enrol op).name? op = some (s.freshName op.name) := by
  have hprov : (s.enrol op).provides op = false := by
    simp only [knows, Bool.or_eq_false_iff] at h
    exact h.1
  have hold : s.entries.find? (·.key == op.key) = none := by
    have hslot := slot?_of_unknown h
    rw [slot?, List.findIdx?_eq_none_iff] at hslot
    rw [List.find?_eq_none]
    exact fun e he hkey => by simp [hslot e he] at hkey
  rw [name?, hprov]
  simp [enrol, List.find?_append, hold]

theorem name?_enrol_of_ne {other : Operation} (h : other.key ≠ op.key) :
    (s.enrol op).name? other = s.name? other := by
  have hprov : (s.enrol op).provides other = s.provides other := rfl
  rw [name?, name?, hprov]
  simp [enrol, List.find?_append, h.symm]

end

/-- The scope `t` is `s` with the operation in the next slot, under the first free name that its
own name and copies of the suffix make. -/
structure Registered (s : Scope) (op : Operation) (name : String) (t : Scope) : Prop where
  least : ∃ copies ≤ s.boundNames.length, name = suffixed op.name s.nextSuffix copies ∧
    s.binds (suffixed op.name s.nextSuffix copies) = false ∧
    ∀ fewer < copies, s.binds (suffixed op.name s.nextSuffix fewer) = true
  knows : t.knows op = true
  resolve : t.resolve op = .ok name
  slot : t.slot? op = some s.size
  size : t.size = s.size + 1
  binds : ∀ other, t.binds other = (s.binds other || other == name)
  others : ∀ other, other.key ≠ op.key → t.knows other = s.knows other ∧
    t.resolve other = s.resolve other ∧ t.slot? other = s.slot? other

theorem registered_enrol {s : Scope} {op : Operation} (h : s.knows op = false) :
    s.Registered op (s.freshName op.name) (s.enrol op) where
  least := s.exists_freshName_eq_suffixed op.name
  knows := by
    rw [Scope.knows, slot?_enrol_self h, Option.isSome_some, Bool.or_true]
  resolve := resolve_eq_ok.mpr (name?_enrol_self h)
  slot := slot?_enrol_self h
  size := s.size_enrol op
  binds := s.binds_enrol_eq op
  others := by
    intro other hne
    have hslot := slot?_enrol_of_ne (s := s) hne
    refine ⟨?_, ?_, hslot⟩
    · rw [Scope.knows, hslot]
      rfl
    · rw [Scope.resolve, name?_enrol_of_ne hne, Scope.resolve]

/-- Registering an operation, in any scope. A known operation keeps its name and the scope stays
as it is; so does the scope if the operation is new and has no name, which is an error in the
input. Any other operation is registered under the first free name, and nothing changes but what
the scope says of its key and of that name. -/
theorem registration_outcomes (s : Scope) (op : Operation) :
    (s.knows op = true → ∃ name, s.resolve op = .ok name ∧ s.register op = .ok (s, name)) ∧
      (s.knows op = false → op.name = "" → s.register op = .error (.unnamedOperation op.kind) ∧
        (Fault.unnamedOperation op.kind).kind = .malformed ∧ s.after (.register op) = s) ∧
      (s.knows op = false → op.name ≠ "" → ∃ name t, s.register op = .ok (t, name) ∧
        s.after (.register op) = t ∧ s.Registered op name t) := by
  refine ⟨?_, ?_, ?_⟩
  · intro hknown
    obtain ⟨name, hname⟩ := (s.knows_iff_resolve op).mp hknown
    exact ⟨name, hname, register_known hname⟩
  · intro hnew hname
    have hempty : op.name.isEmpty = true := by simp [hname]
    exact ⟨register_unnamed hnew hempty, rfl, after_register_unnamed hnew hempty⟩
  · intro hnew hname
    have hnamed : op.name.isEmpty = false := by simpa using hname
    exact ⟨_, _, register_new hnew hnamed, after_register_new hnew hnamed, registered_enrol hnew⟩

/-- A scope with one operation, in which the gate `h` is included and `h_1` is reserved. -/
def Sample.crowded : Scope :=
  (ofIncludes [standardInclude]).afterAll
    [.reserve "h_1", .register (custom 0 "a"), .register (custom 5 "")]

/-- Slot 1 needs the suffix twice. The operation in slot 0 is not affected, a second registration
changes nothing, and an operation without a name is refused as before. -/
theorem registration_with_two_suffixes :
    let op := Sample.custom 1 "h"
    ∃ t, Sample.crowded.register op = .ok (t, "h_1_1") ∧ Sample.crowded.Registered op "h_1_1" t ∧
      t.resolve (Sample.custom 0 "a") = .ok "a" ∧ t.register op = .ok (t, "h_1_1") ∧
      t.register (Sample.custom 5 "") = .error (.unnamedOperation .gate) := by
  intro op
  obtain ⟨name, t, hreg, -, hregistered⟩ :=
    (registration_outcomes Sample.crowded op).2.2 (by decide) (by decide)
  have hname : (Sample.crowded.register (Sample.custom 1 "h")).map Prod.snd = .ok "h_1_1" := rfl
  rw [hreg] at hname
  obtain rfl : name = "h_1_1" := Except.ok.inj hname
  have hother : t.resolve (Sample.custom 0 "a") = .ok "a" :=
    (hregistered.others (Sample.custom 0 "a") (by decide)).2.1
  obtain ⟨again, hagain, hsame⟩ := (registration_outcomes t op).1 hregistered.knows
  obtain rfl := Except.ok.inj (hagain.symm.trans hregistered.resolve)
  have hunknown : t.knows (Sample.custom 5 "") = false :=
    (hregistered.others (Sample.custom 5 "") (by decide)).1
  have hrefused := ((registration_outcomes t (Sample.custom 5 "")).2.1 hunknown rfl).1
  exact ⟨t, hreg, hregistered, hother, hsame, hrefused⟩

end Scope
end OpenQasm
