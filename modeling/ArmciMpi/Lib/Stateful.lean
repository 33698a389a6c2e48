import Mathlib.Data.List.Basic

/-!
# Programs on a state that may abort

`StateT σ (Except String)` as a language of programs: the rules compute a run from
the runs of its parts and take the run of a sequence apart again.
-/

namespace Lib

abbrev Stateful (σ : Type) := StateT σ (Except String)

namespace Stateful

variable {σ α β : Type} {s t : σ} {x : α} {p : Stateful σ α} {q : α → Stateful σ β}

theorem pure_run (x : α) (s : σ) : (pure x : Stateful σ α) s = .ok (x, s) := rfl

theorem lift_ok {r : Except String α} (hr : r = .ok x) (s : σ) :
    (liftM r : Stateful σ α) s = .ok (x, s) := by
  subst hr
  rfl

theorem bind_ok (hp : p s = .ok (x, t)) : (p >>= q) s = q x t := by
  show (p s).bind _ = _
  rw [hp]
  rfl

theorem bind_error {e : String} (hp : p s = .error e) : (p >>= q) s = .error e := by
  show (p s).bind _ = _
  rw [hp]
  rfl

theorem bind_eq_ok {r : β × σ} (h : (p >>= q) s = .ok r) :
    ∃ x t, p s = .ok (x, t) ∧ q x t = .ok r := by
  cases hp : p s with
  | error e =>
    rw [bind_error hp] at h
    cases h
  | ok v =>
    obtain ⟨x, t⟩ := v
    exact ⟨x, t, rfl, by rw [bind_ok hp] at h; exact h⟩

end Stateful

end Lib
