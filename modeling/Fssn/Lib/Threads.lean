import Mathlib.Data.List.Perm.Basic
import Mathlib.Tactic.Common

/-!
# Fssn.Lib.Threads — a list of threads, one of which takes a step

A process keeps its threads in a list; a step of thread `k` replaces the `k`-th entry.  The lemmas
say what such a replacement does to what is mapped, asked or counted over all threads.
-/

namespace Fssn.Lib

variable {α β : Type*} {l : List α} {a b : α} {k : ℕ}

theorem exists_replace (hk : l[k]? = some a) :
    ∃ p q, l = p ++ a :: q ∧ ∀ b, l.set k b = p ++ b :: q := by
  obtain ⟨hlt, rfl⟩ := List.getElem?_eq_some_iff.mp hk
  refine ⟨l.take k, l.drop (k + 1), ?_, fun b => ?_⟩
  · rw [List.getElem_cons_drop, List.take_append_drop]
  · rw [List.set_eq_take_append_cons_drop, if_pos hlt]

theorem map_set_eq {f : α → β} (hk : l[k]? = some a) (hf : f b = f a) :
    (l.set k b).map f = l.map f := by
  obtain ⟨p, q, rfl, hset⟩ := exists_replace hk
  rw [hset, List.map_append, List.map_append, List.map_cons, List.map_cons, hf]

/-- Threads that differ in `f` are told apart by it. -/
theorem index_eq_of_nodup {f : α → β} (hl : (l.map f).Nodup) {j : ℕ} (hj : l[j]? = some a)
    (hk : l[k]? = some b) (h : f a = f b) : j = k := by
  have hmap : ∀ {i : ℕ} {x : α}, l[i]? = some x → (l.map f)[i]? = some (f x) := by
    intro i x hi
    rw [List.getElem?_map, hi, Option.map_some]
  have hlt := (List.getElem?_eq_some_iff.mp (hmap hj)).1
  exact (List.getElem?_inj hlt hl).mp ((hmap hj).trans (h ▸ (hmap hk).symm))

theorem mem_set_self (hk : l[k]? = some a) : b ∈ l.set k b := by
  obtain ⟨p, q, -, hset⟩ := exists_replace hk
  rw [hset]
  exact List.mem_append_right _ List.mem_cons_self

/-- What is asked of each thread by itself is kept when the new one has it. -/
theorem forall_mem_set {P : α → Prop} (hall : ∀ x ∈ l, P x) (hnew : P b) (k : ℕ) :
    ∀ x ∈ l.set k b, P x := by
  intro x hx
  rcases List.mem_or_eq_of_mem_set hx with hx | rfl
  · exact hall x hx
  · exact hnew

theorem countP_set_eq {p : α → Bool} (hk : l[k]? = some a) (hp : p b = p a) :
    (l.set k b).countP p = l.countP p := by
  obtain ⟨u, v, rfl, hset⟩ := exists_replace hk
  rw [hset, List.countP_append, List.countP_append, List.countP_cons, List.countP_cons, hp]

theorem countP_set_succ {p : α → Bool} (hk : l[k]? = some a) (hold : p a = false)
    (hnew : p b = true) : (l.set k b).countP p = l.countP p + 1 := by
  obtain ⟨u, v, rfl, hset⟩ := exists_replace hk
  rw [hset, List.countP_append, List.countP_append, List.countP_cons_of_pos hnew,
    List.countP_cons_of_neg (by simp [hold]), Nat.add_assoc]

theorem getElem?_set_of_ne {j : ℕ} (h : j ≠ k) (b : α) : (l.set k b)[j]? = l[j]? :=
  List.getElem?_set_ne (Ne.symm h)

theorem getElem?_set_of_some (hk : l[k]? = some a) (b : α) : (l.set k b)[k]? = some b :=
  List.getElem?_set_self (List.getElem?_eq_some_iff.mp hk).1

/-- A thread keeps its number when another one is started. -/
theorem getElem?_append_of_some (hk : l[k]? = some a) (r : List α) : (l ++ r)[k]? = some a := by
  rw [List.getElem?_append_left (List.getElem?_eq_some_iff.mp hk).1]
  exact hk

end Fssn.Lib
