import Mathlib.Data.List.Flatten
import Fssn.Lib.Transition

/-!
# Fssn.Lib.Simulation — runs of one system as runs of another

`Simulation T U rel seen seen'`: whatever step `T` takes, `U` answers it with some steps of its own
that lead back into `rel` and show the same.  So every run of `T` is a run of `U` to the eye.
-/

namespace Fssn.Lib

section Rel

variable {α β : Type*} {R : α → β → Prop} {x : Option α} {y : Option β}

/-- Steps that are taken in both systems or in none. -/
theorem rel_some_left {a : α} (h : Option.Rel R x y) (hx : x = some a) : ∃ b, y = some b ∧ R a b := by
  cases h with
  | some h => exact ⟨_, rfl, Option.some.inj hx ▸ h⟩
  | none => exact absurd hx (by simp)

theorem rel_some_right {b : β} (h : Option.Rel R x y) (hy : y = some b) : ∃ a, x = some a ∧ R a b := by
  cases h with
  | some h => exact ⟨_, rfl, Option.some.inj hy ▸ h⟩
  | none => exact absurd hy (by simp)

end Rel

namespace System

variable {σ τ α β γ : Type*} {T : System σ α} {U : System τ β} {rel : σ → τ → Prop}
  {seen : α → List γ} {seen' : β → List γ}

/-- The steps of `T` are answered in `U`; `seen` and `seen'` are what can be seen of an action. -/
structure Simulation (T : System σ α) (U : System τ β) (rel : σ → τ → Prop) (seen : α → List γ)
    (seen' : β → List γ) : Prop where
  init : rel T.init U.init
  step : ∀ s a t u, rel s u → T.step s a = some t →
    ∃ bs v, U.exec u bs = some v ∧ bs.flatMap seen' = seen a ∧ rel t v

namespace Simulation

/-- One run is answered by one that shows the same. -/
theorem exec (h : Simulation T U rel seen seen') {as : List α} {s : σ}
    (hs : T.exec T.init as = some s) :
    ∃ bs u, U.exec U.init bs = some u ∧ bs.flatMap seen' = as.flatMap seen ∧ rel s u := by
  refine exec_induction (P := fun as s => ∃ bs u, U.exec U.init bs = some u ∧
    bs.flatMap seen' = as.flatMap seen ∧ rel s u) ⟨[], U.init, rfl, rfl, h.init⟩ ?_ hs
  rintro as s a t - ⟨bs, u, hu, hseen, hrel⟩ hat
  obtain ⟨cs, v, hv, hone, hrel'⟩ := h.step s a t u hrel hat
  refine ⟨bs ++ cs, v, ?_, ?_, hrel'⟩
  · rw [exec_append, hu]
    exact hv
  · rw [List.flatMap_append, List.flatMap_append, hseen, hone, List.flatMap_cons,
      List.flatMap_nil, List.append_nil]

end Simulation

end System

end Fssn.Lib
