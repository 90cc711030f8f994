import Mathlib.Logic.Function.Iterate
import Mathlib.Tactic.Common

/-!
# Fssn.Lib.Settle — what a deterministic machine comes to

A machine is a step function `f`, and `f^[n] s` its state after `n` steps; one that waits for ever
stays in its state.  `Leads f Q s`: after some number of steps `Q` holds.  `Settles f P s`: from some
step on `P` holds, which says what a run comes to whether it waits at its end or goes on for ever.
-/

namespace Fssn.Lib

variable {σ β : Type*} {f : σ → σ} {P Q : σ → Prop} {s : σ}

/-- After some number of steps `Q` holds. -/
def Leads (f : σ → σ) (Q : σ → Prop) (s : σ) : Prop := ∃ n, Q (f^[n] s)

/-- From some step on `P` holds. -/
def Settles (f : σ → σ) (P : σ → Prop) (s : σ) : Prop := ∃ n, ∀ m, n ≤ m → P (f^[m] s)

theorem Leads.here (h : Q s) : Leads f Q s := ⟨0, h⟩

theorem Leads.of_step (h : Leads f Q (f s)) : Leads f Q s := by
  obtain ⟨n, hn⟩ := h
  exact ⟨n + 1, by rwa [Function.iterate_succ_apply]⟩

theorem Leads.trans (h : Leads f P s) (hPQ : ∀ t, P t → Leads f Q t) : Leads f Q s := by
  obtain ⟨n, hn⟩ := h
  obtain ⟨m, hm⟩ := hPQ _ hn
  exact ⟨m + n, by rwa [Function.iterate_add_apply]⟩

theorem Leads.settles (h : Leads f P s) (hPQ : ∀ t, P t → Settles f Q t) : Settles f Q s := by
  obtain ⟨n, hn⟩ := h
  obtain ⟨m, hm⟩ := hPQ _ hn
  refine ⟨m + n, fun k hk => ?_⟩
  obtain ⟨j, rfl⟩ := Nat.exists_eq_add_of_le' (Nat.le_of_add_left_le hk)
  rw [Function.iterate_add_apply]
  exact hm j (Nat.le_of_add_le_add_right hk)

theorem Settles.of_step (h : Settles f P (f s)) : Settles f P s := by
  obtain ⟨n, hn⟩ := h
  refine ⟨n + 1, fun m hm => ?_⟩
  obtain ⟨k, rfl⟩ := Nat.exists_eq_add_of_le' hm
  rw [← Nat.add_assoc, Function.iterate_succ_apply]
  exact hn _ (Nat.le_add_left n k)

/-- What holds now and is kept by every step is what the machine comes to. -/
theorem Settles.of_invariant {I : σ → Prop} (hI : ∀ t, I t → I (f t)) (hP : ∀ t, I t → P t)
    (h : I s) : Settles f P s := by
  have hall : ∀ n, I (f^[n] s) := by
    intro n
    induction n with
    | zero => exact h
    | succ n ih =>
      rw [Function.iterate_succ_apply']
      exact hI _ ih
  exact ⟨0, fun m _ => hP _ (hall m)⟩

/-- A machine that waits has come to what holds. -/
theorem Settles.of_fixed (hs : f s = s) (h : P s) : Settles f P s := by
  refine .of_invariant (I := fun t => t = s) ?_ ?_ rfl
  · rintro _ rfl
    exact hs
  · rintro _ rfl
    exact h

theorem Settles.mono (h : Settles f P s) (hPQ : ∀ t, P t → Q t) : Settles f Q s :=
  h.imp fun _ hn m hm => hPQ _ (hn m hm)

/-- A machine comes to one value only. -/
theorem Settles.unique {g : σ → β} {x y : β} (hx : Settles f (fun t => g t = x) s)
    (hy : Settles f (fun t => g t = y) s) : x = y := by
  obtain ⟨n, hn⟩ := hx
  obtain ⟨m, hm⟩ := hy
  exact (hn _ (Nat.le_max_left n m)).symm.trans (hm _ (Nat.le_max_right n m))

end Fssn.Lib
