import Mathlib.Algebra.BigOperators.Fin
import Mathlib.Algebra.Order.BigOperators.Group.Finset
import Fssn.Lib.Threads
import Fssn.Lib.Transition

/-!
# Fssn.Lib.Countdown — systems that count down to a rest

The actions `own` of a system count down when each of them takes one off a number `pending` and one
of them is enabled while the number is positive.  Then it does not matter which are taken: every run
of them ends after `pending` steps (`exec_length`, `quiet_iff`), and can be carried on to its end
(`completes`).  `total` is such a number put together from the members of a family.
-/

namespace Fssn.Lib

/-! ### Totals -/

section Total

variable {ι β : Type*} [Fintype ι] (load : β → ℕ)

/-- The loads of a family together. -/
def total (f : ι → β) : ℕ := ∑ i, load (f i)

/-- Two families that differ in one member. -/
theorem total_of_ne {f g : ι → β} {i : ι} (h : ∀ j, j ≠ i → g j = f j) :
    total load g + load (f i) = total load f + load (g i) := by
  classical
  have hrest : ∑ j ∈ Finset.univ.erase i, load (g j) = ∑ j ∈ Finset.univ.erase i, load (f j) :=
    Finset.sum_congr rfl fun j hj => by rw [h j (Finset.ne_of_mem_erase hj)]
  unfold total
  rw [← Finset.add_sum_erase _ _ (Finset.mem_univ i),
    ← Finset.add_sum_erase _ (fun j => load (f j)) (Finset.mem_univ i), hrest]
  omega

theorem total_update [DecidableEq ι] (f : ι → β) (i : ι) (v : β) :
    total load (Function.update f i v) + load (f i) = total load f + load v := by
  have h := total_of_ne load (f := f) (g := Function.update f i v)
    fun j hj => Function.update_of_ne hj v f
  rwa [Function.update_self] at h

theorem exists_of_total_pos {f : ι → β} (h : 0 < total load f) : ∃ i, 0 < load (f i) := by
  by_contra hall
  refine h.ne' (Finset.sum_eq_zero fun i _ => ?_)
  exact Nat.eq_zero_of_not_pos fun hi => hall ⟨i, hi⟩

theorem load_eq_zero {f : ι → β} (h : total load f = 0) (i : ι) : load (f i) = 0 :=
  Finset.sum_eq_zero_iff.mp h i (Finset.mem_univ i)

end Total

section Sums

variable {α : Type*} {l : List α} {a b : α} {k : ℕ}

/-- What is summed over a list of threads, one of which takes a step. -/
theorem sum_map_set {f : α → ℕ} (hk : l[k]? = some a) :
    ((l.set k b).map f).sum + f a = (l.map f).sum + f b := by
  obtain ⟨p, q, rfl, hset⟩ := exists_replace hk
  rw [hset]
  simp only [List.map_append, List.map_cons, List.sum_append, List.sum_cons]
  omega

/-- What is summed over different entries changes at one of them. -/
theorem sum_map_of_ne {f g : α → ℕ} (hl : l.Nodup) (ha : a ∈ l) (h : ∀ x, x ≠ a → g x = f x) :
    (l.map g).sum + f a = (l.map f).sum + g a := by
  obtain ⟨p, q, rfl⟩ := List.append_of_mem ha
  obtain ⟨-, hq, hdisj⟩ := List.nodup_append.mp hl
  have hp' : p.map g = p.map f := List.map_congr_left fun x hx =>
    h x (hdisj x hx a List.mem_cons_self)
  have hq' : q.map g = q.map f := List.map_congr_left fun x hx =>
    h x fun heq => (List.nodup_cons.mp hq).1 (heq ▸ hx)
  simp only [List.map_append, List.map_cons, List.sum_append, List.sum_cons, hp', hq']
  omega

end Sums

/-! ### The rule -/

namespace System

variable {σ α : Type*}

/-- From the states `I` the actions `own` count `pending` down. -/
structure Countdown (T : System σ α) (own : α → Prop) (I : σ → Prop) (pending : σ → ℕ) : Prop where
  keeps : ∀ s a t, I s → T.step s a = some t → I t
  down : ∀ s a t, I s → own a → T.step s a = some t → pending t + 1 = pending s
  progress : ∀ s, I s → 0 < pending s → ∃ a t, own a ∧ T.step s a = some t

/-- None of the actions is enabled. -/
def Quiet (T : System σ α) (own : α → Prop) (s : σ) : Prop := ∀ a, own a → T.step s a = none

namespace Countdown

variable {T : System σ α} {own : α → Prop} {I : σ → Prop} {pending : σ → ℕ} {s t : σ} {as : List α}

theorem exec_keeps (h : T.Countdown own I pending) (hs : I s) (ht : T.exec s as = some t) : I t :=
  exec_preserves h.keeps hs ht

/-- A run of `n` steps takes `n` off what is pending. -/
theorem exec_length (h : T.Countdown own I pending) (hs : I s) (has : ∀ a ∈ as, own a)
    (ht : T.exec s as = some t) : as.length + pending t = pending s := by
  induction as generalizing s with
  | nil =>
    obtain rfl := Option.some.inj ht
    exact Nat.zero_add _
  | cons a as ih =>
    obtain ⟨r, hr, ht⟩ := Option.bind_eq_some_iff.mp ht
    have hrest := ih (h.keeps s a r hs hr) (fun b hb => has b (List.mem_cons_of_mem a hb)) ht
    have hone := h.down s a r hs (has a List.mem_cons_self) hr
    rw [List.length_cons]
    omega

/-- The system rests exactly when nothing is pending. -/
theorem quiet_iff (h : T.Countdown own I pending) (hs : I s) : T.Quiet own s ↔ pending s = 0 := by
  constructor
  · intro hq
    by_contra hne
    obtain ⟨a, t, ha, hat⟩ := h.progress s hs (Nat.pos_of_ne_zero hne)
    exact absurd (hq a ha) (by simp [hat])
  · intro hz a ha
    cases hat : T.step s a with
    | none => rfl
    | some t =>
      have := h.down s a t hs ha hat
      omega

/-- There is a way to the rest. -/
theorem completes (h : T.Countdown own I pending) (hs : I s) :
    ∃ as t, (∀ a ∈ as, own a) ∧ T.exec s as = some t ∧ pending t = 0 := by
  induction hn : pending s generalizing s with
  | zero => exact ⟨[], s, by simp, rfl, hn⟩
  | succ n ih =>
    obtain ⟨a, r, ha, hr⟩ := h.progress s hs (by omega)
    have hone := h.down s a r hs ha hr
    obtain ⟨as, t, has, ht, hz⟩ := ih (h.keeps s a r hs hr) (by omega)
    refine ⟨a :: as, t, List.forall_mem_cons.mpr ⟨ha, has⟩, ?_, hz⟩
    rw [exec_cons, hr]
    exact ht

end Countdown

end System

end Fssn.Lib
