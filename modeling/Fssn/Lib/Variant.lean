import Fssn.Lib.Countdown

/-!
# Fssn.Lib.Variant — schedules that come to rest

`Variant T own I measure`: from the states `I`, which they keep, the actions `own` lower `measure`.
So no schedule of them is longer than the measure it starts with, and every one can be carried on
until none of them is enabled (`Quiet`).
-/

namespace Fssn.Lib.System

variable {σ α : Type*}

/-- From the states `I` the actions `own` lower `measure`. -/
structure Variant (T : System σ α) (own : α → Prop) (I : σ → Prop) (measure : σ → ℕ) : Prop where
  keeps : ∀ s a t, I s → own a → T.step s a = some t → I t
  down : ∀ s a t, I s → own a → T.step s a = some t → measure t < measure s

namespace Variant

variable {T : System σ α} {own : α → Prop} {I : σ → Prop} {measure : σ → ℕ} {s t : σ} {as : List α}

theorem exec_keeps (h : T.Variant own I measure) (hs : I s) (has : ∀ a ∈ as, own a)
    (ht : T.exec s as = some t) : I t :=
  exec_preserves_of h.keeps hs has ht

/-- A schedule is no longer than the measure it starts with. -/
theorem exec_length (h : T.Variant own I measure) (hs : I s) (has : ∀ a ∈ as, own a)
    (ht : T.exec s as = some t) : as.length + measure t ≤ measure s := by
  induction as generalizing s with
  | nil =>
    obtain rfl := Option.some.inj ht
    exact (Nat.zero_add _).le
  | cons a as ih =>
    obtain ⟨r, hr, ht⟩ := Option.bind_eq_some_iff.mp ht
    have hrest := ih (h.keeps s a r hs (has a List.mem_cons_self) hr)
      (fun b hb => has b (List.mem_cons_of_mem a hb)) ht
    have hone := h.down s a r hs (has a List.mem_cons_self) hr
    rw [List.length_cons]
    omega

/-- **Rest rule**: there is a way to where none of the actions is enabled. -/
theorem comes_to_rest (h : T.Variant own I measure) (hs : I s) :
    ∃ as t, (∀ a ∈ as, own a) ∧ T.exec s as = some t ∧ T.Quiet own t := by
  induction hn : measure s using Nat.strong_induction_on generalizing s with
  | _ n ih =>
    by_cases hq : T.Quiet own s
    · exact ⟨[], s, by simp, rfl, hq⟩
    · obtain ⟨a, ha, hat⟩ : ∃ a, own a ∧ T.step s a ≠ none := by
        by_contra hno
        exact hq fun a ha => by_contra fun hne => hno ⟨a, ha, hne⟩
      obtain ⟨r, hr⟩ := Option.ne_none_iff_exists'.mp hat
      have hone := h.down s a r hs ha hr
      obtain ⟨as, t, has, ht, hq⟩ := ih (measure r) (by omega) (h.keeps s a r hs ha hr) rfl
      refine ⟨a :: as, t, List.forall_mem_cons.mpr ⟨ha, has⟩, ?_, hq⟩
      rw [exec_cons, hr]
      exact ht

end Variant

end Fssn.Lib.System
