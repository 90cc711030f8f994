import Mathlib.Data.Fintype.EquivFin
import Mathlib.Data.List.Perm.Basic
import Mathlib.Logic.Function.Basic

/-!
# Fssn.Lib.Heap — cells that are allocated, written and freed

`malloc` may return any address that is not in use; reading a cell that is not allocated or was never
written, and writing or freeing one that is not allocated, has no result.

`Held H ps`: the allocated cells are those at the addresses `ps`, whose holders are pairwise
different.  Each operation has one rule: with it the operation has a result, and who holds what
afterwards.
-/

namespace Fssn.Lib

/-- What the allocated cells hold, `some none` before the first write. -/
abbrev Heap (α : Type*) := ℕ → Option (Option α)

namespace Heap

variable {α : Type*} {H K : Heap α} {p q : ℕ} {x : α} {ps qs : List ℕ}

def empty : Heap α := fun _ => none

/-- `malloc` when the allocator chooses the address `p`. -/
def malloc (H : Heap α) (p : ℕ) : Option (Heap α) :=
  if (H p).isNone then some (Function.update H p (some none)) else none

def load (H : Heap α) (p : ℕ) : Option α := (H p).join

def store (H : Heap α) (p : ℕ) (x : α) : Option (Heap α) :=
  (H p).map fun _ => Function.update H p (some (some x))

def free (H : Heap α) (p : ℕ) : Option (Heap α) := (H p).map fun _ => Function.update H p none

theorem load_update_self (H : Heap α) (p : ℕ) (x : α) :
    load (Function.update H p (some (some x))) p = some x := by
  rw [load, Function.update_self]
  rfl

theorem load_update_of_ne (h : q ≠ p) (c : Option (Option α)) :
    load (Function.update H p c) q = H.load q := by
  rw [load, Function.update_of_ne h]
  rfl

/-! ### Who holds what -/

/-- Each address of `ps` is allocated, once, and nothing else is. -/
structure Held (H : Heap α) (ps : List ℕ) : Prop where
  nodup : ps.Nodup
  mem_iff : ∀ p, p ∈ ps ↔ (H p).isSome = true

theorem Held.empty : Held (empty : Heap α) [] :=
  ⟨List.nodup_nil, fun _ => ⟨fun h => absurd h List.not_mem_nil, fun h => absurd h (by simp [Heap.empty])⟩⟩

theorem Held.perm (h : Held H ps) (hperm : ps.Perm qs) : Held H qs :=
  ⟨hperm.nodup_iff.mp h.nodup, fun p => hperm.mem_iff.symm.trans (h.mem_iff p)⟩

/-- The new cell is nobody's. -/
theorem Held.malloc (h : Held H ps) (hp : H.malloc p = some K) :
    p ∉ ps ∧ Held K (p :: ps) ∧ ∀ q ∈ ps, K.load q = H.load q := by
  unfold Heap.malloc at hp
  split_ifs at hp with hnone
  obtain rfl := Option.some.inj hp
  have hnew : p ∉ ps := by
    intro hmem
    rw [h.mem_iff, Option.isSome_iff_ne_none] at hmem
    exact hmem (Option.isNone_iff_eq_none.mp hnone)
  refine ⟨hnew, ⟨List.nodup_cons.mpr ⟨hnew, h.nodup⟩, fun q => ?_⟩, fun q hq => ?_⟩
  · by_cases hq : q = p
    · subst hq
      simp
    · rw [Function.update_of_ne hq, List.mem_cons, or_iff_right hq]
      exact h.mem_iff q
  · have hne : q ≠ p := fun heq => hnew (heq ▸ hq)
    exact load_update_of_ne hne _

/-- There is always a cell left to allocate. -/
theorem Held.exists_malloc (h : Held H ps) : ∃ p K, H.malloc p = some K := by
  obtain ⟨p, hp⟩ := Infinite.exists_notMem_finset ps.toFinset
  refine ⟨p, _, if_pos ?_⟩
  rw [List.mem_toFinset, h.mem_iff] at hp
  simpa using hp

theorem Held.store (h : Held H ps) (hp : p ∈ ps) (x : α) :
    ∃ K, H.store p x = some K ∧ Held K ps ∧ K.load p = some x ∧ ∀ q, q ≠ p → K.load q = H.load q := by
  obtain ⟨c, hc⟩ := Option.isSome_iff_exists.mp ((h.mem_iff p).mp hp)
  refine ⟨Function.update H p (some (some x)), ?_, ⟨h.nodup, fun q => ?_⟩, load_update_self H p x,
    fun q hq => load_update_of_ne hq _⟩
  · rw [Heap.store, hc]
    rfl
  · by_cases hq : q = p
    · subst hq
      simp [hp]
    · rw [Function.update_of_ne hq]
      exact h.mem_iff q

/-- A cell is freed by the one who holds it. -/
theorem Held.free (h : Held H (p :: ps)) :
    ∃ K, H.free p = some K ∧ Held K ps ∧ ∀ q, q ≠ p → K.load q = H.load q := by
  obtain ⟨hnew, hnodup⟩ := List.nodup_cons.mp h.nodup
  obtain ⟨c, hc⟩ := Option.isSome_iff_exists.mp ((h.mem_iff p).mp List.mem_cons_self)
  refine ⟨Function.update H p none, ?_, ⟨hnodup, fun q => ?_⟩, fun q hq => load_update_of_ne hq _⟩
  · rw [Heap.free, hc]
    rfl
  · by_cases hq : q = p
    · subst hq
      simp [hnew]
    · rw [Function.update_of_ne hq, ← h.mem_iff q, List.mem_cons, or_iff_right hq]

end Heap

end Fssn.Lib
