/-! Changes in place, which end with the state as it then stands, also when they fail. -/
namespace OpenQasm

/-- A change of a state in place. What is changed before an error stays changed. -/
abbrev InPlace (ε σ α : Type) := EStateM ε σ α

namespace InPlace
variable {ε σ α β : Type}

/-- The state in which a change ends. -/
def after (m : InPlace ε σ α) (s : σ) : σ :=
  match m.run s with
  | .ok _ t => t
  | .error _ t => t

/-- The error with which a change ends, if it fails. -/
def error? (m : InPlace ε σ α) (s : σ) : Option ε :=
  match m.run s with
  | .ok _ _ => none
  | .error e _ => some e

theorem run_get_bind (f : σ → InPlace ε σ α) (s : σ) : (get >>= f).run s = (f s).run s := rfl

theorem after_get_bind (f : σ → InPlace ε σ α) (s : σ) :
    after (get >>= f) s = (f s).after s := rfl

/-- A change that only looks at the state. -/
def ReadOnly (m : InPlace ε σ α) : Prop := ∀ s, m.after s = s

/-- A change that leaves the state as it was when it fails. -/
def Atomic (m : InPlace ε σ α) : Prop := ∀ s e, m.error? s = some e → m.after s = s

theorem readOnly_get : ReadOnly (get : InPlace ε σ σ) := fun _ => rfl

theorem readOnly_throw (e : ε) : ReadOnly (throw e : InPlace ε σ α) := fun _ => rfl

theorem readOnly_ofExcept (x : Except ε α) : ReadOnly (ofExcept x : InPlace ε σ α) := by
  intro s
  cases x <;> rfl

theorem ReadOnly.atomic {m : InPlace ε σ α} (h : m.ReadOnly) : m.Atomic := fun s _ _ => h s

theorem Atomic.eq_of_run {m : InPlace ε σ α} (h : m.Atomic) {s t : σ} {e : ε}
    (hrun : m.run s = .error e t) : t = s := by
  have herror : m.error? s = some e := by simp only [error?, hrun]
  simpa only [after, hrun] using h s e herror

/-- What cannot fail is atomic. -/
theorem atomic_set (t : σ) : Atomic (set t : InPlace ε σ Unit) := fun _ _ h => nomatch h

/-- Checks may come before an atomic change. -/
theorem ReadOnly.bind_atomic {m : InPlace ε σ α} {f : α → InPlace ε σ β} (hm : m.ReadOnly)
    (hf : ∀ a, (f a).Atomic) : Atomic (m >>= f) := by
  intro s e herror
  have hsame := hm s
  have hrun : (m >>= f).run s = match m.run s with
      | .ok a t => (f a).run t
      | .error e t => .error e t := rfl
  unfold after at hsame ⊢
  unfold error? at herror
  rw [hrun] at herror ⊢
  cases hfirst : m.run s with
  | ok a t =>
    simp only [hfirst] at hsame herror ⊢
    subst hsame
    exact hf a t e herror
  | error e' t =>
    simp only [hfirst] at hsame ⊢
    exact hsame

theorem Atomic.ite {p : Prop} [Decidable p] {m n : InPlace ε σ α} (hm : m.Atomic)
    (hn : n.Atomic) : Atomic (if p then m else n) := by
  split
  · exact hm
  · exact hn

end InPlace
end OpenQasm
