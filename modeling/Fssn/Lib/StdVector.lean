import Mathlib.Data.List.Nodup
import Mathlib.Data.List.TakeDrop
import Mathlib.Order.Basic
import Mathlib.Tactic.Common

/-!
# Fssn.Lib.StdVector — a vector with unchecked indexing, and index loops over it

`StdVector α` is a `std::vector`: the `slots` of its storage and the number `size` of them that are
elements.  `operator[]` does not check its index, so `at?` reads any slot.  `erase i` shifts the tail
one slot to the front and leaves a copy of the last element in the slot behind the new end.

The loops `for (int i = 0, end = v.size(); i < end; ++i)` read their bound once.  `findLoop` looks for
a hit, `visitLoop` reads every element, `eraseLoop` erases the hits while it walks, under its stale
bound.  Every loop records its accesses, an index with the size of the vector at that moment.

* `findLoop_spec`, `visitLoop_spec`: they see exactly the elements.
* `eraseLoop_spec`: with at most one hit, the loop erases that hit and nothing else, although after
  the erase it skips one element and reads one slot behind the end.
* `findLoop_inRange`, `visitLoop_inRange`: the other two loops access elements only, and
  `eraseLoop_inRange_iff`: `eraseLoop` does so exactly if the hit is the last element.
-/

namespace Fssn.Lib

variable {α σ : Type*}

/-- A `std::vector`: the elements are the first `size` slots of its storage. -/
structure StdVector (α : Type*) where
  slots : List α
  size : ℕ
  size_le : size ≤ slots.length

namespace StdVector

def empty : StdVector α := ⟨[], 0, Nat.le_refl 0⟩

/-- The elements, without what is left in the storage behind them. -/
def elems (v : StdVector α) : List α := v.slots.take v.size

/-- `v[i]`: the content of slot `i`, `none` outside the storage. -/
def at? (v : StdVector α) (i : ℕ) : Option α := v.slots[i]?

theorem size_pushBack_le (v : StdVector α) (a : α) :
    v.size + 1 ≤ (v.elems ++ a :: v.slots.drop (v.size + 1)).length := by
  rw [List.length_append, List.length_cons, elems, List.length_take_of_le v.size_le]
  omega

def pushBack (v : StdVector α) (a : α) : StdVector α where
  slots := v.elems ++ a :: v.slots.drop (v.size + 1)
  size := v.size + 1
  size_le := size_pushBack_le v a

theorem size_erase_le (v : StdVector α) {i : ℕ} (h : i < v.size) :
    v.size - 1 ≤
      (v.slots.take i ++ (v.elems.drop (i + 1) ++ v.slots.drop (v.size - 1))).length := by
  have := v.size_le
  simp only [elems, List.length_append, List.length_take, List.length_drop]
  omega

/-- `v.erase(v.begin() + i)`; undefined (`none`) when there is no element `i`. -/
def erase (v : StdVector α) (i : ℕ) : Option (StdVector α) :=
  if h : i < v.size then
    some {
      slots := v.slots.take i ++ (v.elems.drop (i + 1) ++ v.slots.drop (v.size - 1))
      size := v.size - 1
      size_le := size_erase_le v h }
  else none

@[simp] theorem elems_empty : (empty : StdVector α).elems = [] := rfl

@[simp] theorem length_elems (v : StdVector α) : v.elems.length = v.size :=
  List.length_take_of_le v.size_le

@[simp] theorem elems_pushBack (v : StdVector α) (a : α) :
    (v.pushBack a).elems = v.elems ++ [a] := by
  show (v.elems ++ a :: v.slots.drop (v.size + 1)).take (v.size + 1) = _
  have h : v.size + 1 = v.elems.length + 1 := by rw [length_elems]
  rw [h, List.take_length_add_append]
  rfl

theorem at?_of_lt {v : StdVector α} {i : ℕ} (h : i < v.size) : v.at? i = v.elems[i]? := by
  rw [at?, elems, List.getElem?_take_of_lt h]

theorem exists_at? {v : StdVector α} {i : ℕ} (h : i < v.size) :
    ∃ a, v.at? i = some a ∧ v.elems[i]? = some a := by
  have hi : i < v.elems.length := by rwa [length_elems]
  exact ⟨v.elems[i], by rw [at?_of_lt h, List.getElem?_eq_getElem hi],
    List.getElem?_eq_getElem hi⟩

section Erase

variable {v w : StdVector α} {i j : ℕ}

theorem erase_size (h : v.erase i = some w) : i < v.size ∧ w.size = v.size - 1 := by
  unfold erase at h
  split_ifs at h with hi
  exact ⟨hi, (Option.some.inj h) ▸ rfl⟩

theorem exists_erase (h : i < v.size) : ∃ w, v.erase i = some w := by
  rw [erase, dif_pos h]
  exact ⟨_, rfl⟩

/-- What stands in the slots after an erase: the last slot keeps its content. -/
theorem erase_at? (h : v.erase i = some w) (hj : j < v.size) :
    w.at? j = if j < i then v.at? j else if j + 1 < v.size then v.at? (j + 1) else v.at? j := by
  have hv := v.size_le
  unfold erase at h
  split_ifs at h with hi
  obtain rfl := Option.some.inj h
  have hlen : (v.slots.take i).length = i := List.length_take_of_le (by omega)
  have hmid : (v.elems.drop (i + 1)).length = v.size - (i + 1) := by
    rw [List.length_drop, length_elems]
  show (v.slots.take i ++ (v.elems.drop (i + 1) ++ v.slots.drop (v.size - 1)))[j]? = _
  split_ifs with h1 h2
  · rw [List.getElem?_append_left (by omega), List.getElem?_take_of_lt h1]
    rfl
  · rw [List.getElem?_append_right (by omega), hlen, List.getElem?_append_left (by omega),
      List.getElem?_drop, at?_of_lt h2]
    congr 1
    omega
  · rw [List.getElem?_append_right (by omega), hlen, List.getElem?_append_right (by omega), hmid,
      List.getElem?_drop]
    show _ = v.slots[j]?
    congr 1
    omega

/-- A read behind the erase, up to the old end, finds an old element other than the erased one. -/
theorem exists_read_erase (h : v.erase i = some w) (hij : i < j) (hj : j < v.size) :
    ∃ a k, w.at? j = some a ∧ k ≠ i ∧ v.elems[k]? = some a := by
  rw [erase_at? h hj, if_neg (by omega)]
  split_ifs with hlast
  · obtain ⟨a, ha, hel⟩ := exists_at? hlast
    exact ⟨a, j + 1, ha, by omega, hel⟩
  · obtain ⟨a, ha, hel⟩ := exists_at? hj
    exact ⟨a, j, ha, by omega, hel⟩

theorem elems_erase (h : v.erase i = some w) : w.elems = v.elems.eraseIdx i := by
  obtain ⟨hi, hsize⟩ := erase_size h
  refine List.ext_getElem? fun j => ?_
  by_cases hj : j < w.size
  · rw [← at?_of_lt hj, erase_at? h (by omega), List.getElem?_eraseIdx]
    split_ifs with h1 h2
    · exact at?_of_lt (by omega)
    · exact at?_of_lt h2
    · omega
  · have hlen : (v.elems.eraseIdx i).length = v.size - 1 := by
      rw [List.length_eraseIdx_of_lt (by rw [length_elems]; exact hi), length_elems]
    rw [List.getElem?_eq_none (by rw [length_elems]; omega), List.getElem?_eq_none (by omega)]

end Erase

end StdVector

/-! ### Index loops -/

/-- `for (int i = lo, end = lo + k; i < end; ++i) body`; `none` when an iteration is undefined. -/
def forIdx (body : ℕ → σ → Option σ) : ℕ → ℕ → σ → Option σ
  | _, 0, s => some s
  | lo, k + 1, s => (body lo s).bind fun t => forIdx body (lo + 1) k t

/-- **Index loop rule**: an invariant `I i` indexed by the loop variable. -/
theorem forIdx_rule {body : ℕ → σ → Option σ} (I : ℕ → σ → Prop) (k : ℕ) :
    ∀ lo s, (∀ i s, lo ≤ i → i < lo + k → I i s → ∃ t, body i s = some t ∧ I (i + 1) t) →
      I lo s → ∃ t, forIdx body lo k s = some t ∧ I (lo + k) t := by
  induction k with
  | zero => exact fun lo s _ hs => ⟨s, rfl, hs⟩
  | succ k ih =>
    intro lo s hbody hs
    obtain ⟨t, ht, hIt⟩ := hbody lo s (Nat.le_refl lo) (by omega) hs
    obtain ⟨r, hr, hIr⟩ := ih (lo + 1) t (fun i s h1 h2 => hbody i s (by omega) (by omega)) hIt
    refine ⟨r, ?_, by rwa [show lo + (k + 1) = lo + 1 + k by omega]⟩
    rw [forIdx, ht]
    exact hr

/-- The state of a loop that looks at elements: the vector, a found flag, the accesses so far. -/
structure Scan (α : Type*) where
  vec : StdVector α
  found : Bool
  accesses : List (ℕ × ℕ)

namespace StdVector

/-- `if (hit(v[i])) found = true;` -/
def findBody (hit : α → Bool) (i : ℕ) (s : Scan α) : Option (Scan α) :=
  (s.vec.at? i).map fun a =>
    { s with
      found := if hit a then true else s.found
      accesses := s.accesses ++ [(i, s.vec.size)] }

/-- `if (hit(v[i])) { found = true; v.erase(v.begin() + i); }` -/
def eraseBody (hit : α → Bool) (i : ℕ) (s : Scan α) : Option (Scan α) :=
  (s.vec.at? i).bind fun a =>
    let acc := s.accesses ++ [(i, s.vec.size)]
    if hit a then (s.vec.erase i).map fun w => ⟨w, true, acc⟩
    else some { s with accesses := acc }

/-- `visit(v[i]);`, the visited elements collected in order. -/
def visitBody (v : StdVector α) (i : ℕ) (s : List α × List (ℕ × ℕ)) :
    Option (List α × List (ℕ × ℕ)) :=
  (v.at? i).map fun a => (s.1 ++ [a], s.2 ++ [(i, v.size)])

def findLoop (hit : α → Bool) (v : StdVector α) : Option (Scan α) :=
  forIdx (findBody hit) 0 v.size ⟨v, false, []⟩

def eraseLoop (hit : α → Bool) (v : StdVector α) : Option (Scan α) :=
  forIdx (eraseBody hit) 0 v.size ⟨v, false, []⟩

def visitLoop (v : StdVector α) : Option (List α × List (ℕ × ℕ)) :=
  forIdx (visitBody v) 0 v.size ([], [])

variable {v : StdVector α} {hit : α → Bool}

theorem take_succ_elems {i : ℕ} {a : α} (h : v.elems[i]? = some a) :
    v.elems.take (i + 1) = v.elems.take i ++ [a] := by
  rw [List.take_add_one, h]
  rfl

section Bodies

variable {i : ℕ} {s : Scan α} {a : α}

theorem findBody_of (ha : s.vec.at? i = some a) : findBody hit i s =
    some ⟨s.vec, s.found || hit a, s.accesses ++ [(i, s.vec.size)]⟩ := by
  rw [findBody, ha, Option.map_some]
  cases hit a <;> simp

theorem eraseBody_hit {w : StdVector α} (ha : s.vec.at? i = some a) (hhit : hit a = true)
    (hw : s.vec.erase i = some w) :
    eraseBody hit i s = some ⟨w, true, s.accesses ++ [(i, s.vec.size)]⟩ := by
  simp [eraseBody, ha, hhit, hw]

theorem eraseBody_miss (ha : s.vec.at? i = some a) (hhit : hit a = false) :
    eraseBody hit i s = some ⟨s.vec, s.found, s.accesses ++ [(i, s.vec.size)]⟩ := by
  simp [eraseBody, ha, hhit]

end Bodies

theorem findLoop_spec (v : StdVector α) (hit : α → Bool) :
    ∃ s, v.findLoop hit = some s ∧ s.vec = v ∧ s.found = v.elems.any hit := by
  let I : ℕ → Scan α → Prop := fun i s => s.vec = v ∧ s.found = (v.elems.take i).any hit
  have hstep : ∀ i s, 0 ≤ i → i < 0 + v.size → I i s →
      ∃ t, findBody hit i s = some t ∧ I (i + 1) t := by
    rintro i s - hi ⟨hvec, hfound⟩
    obtain ⟨a, ha, hel⟩ := exists_at? (v := v) (i := i) (by omega)
    refine ⟨_, findBody_of (by rw [hvec]; exact ha), hvec, ?_⟩
    rw [take_succ_elems hel, List.any_append, ← hfound]
    simp
  obtain ⟨s, hs, hvec, hfound⟩ := forIdx_rule I v.size 0 ⟨v, false, []⟩ hstep ⟨rfl, by simp⟩
  refine ⟨s, hs, hvec, ?_⟩
  rw [hfound, Nat.zero_add, List.take_of_length_le (by simp)]

theorem visitLoop_spec (v : StdVector α) : ∃ acc, v.visitLoop = some (v.elems, acc) := by
  let I : ℕ → List α × List (ℕ × ℕ) → Prop := fun i s => s.1 = v.elems.take i
  have hstep : ∀ i s, 0 ≤ i → i < 0 + v.size → I i s →
      ∃ t, visitBody v i s = some t ∧ I (i + 1) t := by
    intro i s _ hi hs
    obtain ⟨a, ha, hel⟩ := exists_at? (v := v) (i := i) (by omega)
    refine ⟨_, by rw [visitBody, ha]; rfl, ?_⟩
    show s.1 ++ [a] = v.elems.take (i + 1)
    rw [take_succ_elems hel, show s.1 = _ from hs]
  obtain ⟨⟨as, acc⟩, hs, has⟩ := forIdx_rule I v.size 0 ([], []) hstep (by simp [I])
  refine ⟨acc, ?_⟩
  rw [visitLoop, hs, show as = _ from has, Nat.zero_add, List.take_of_length_le (by simp)]

/-! ### Erasing under a stale bound -/

/-- No two positions of `l` hold hits. -/
def AtMostOne (hit : α → Bool) (l : List α) : Prop :=
  ∀ (i j : ℕ) (a b : α), l[i]? = some a → l[j]? = some b → hit a = true → hit b = true → i = j

theorem filter_eq_self_of_any_eq_false {l : List α} (h : l.any hit = false) :
    l.filter (!hit ·) = l := by
  refine List.filter_eq_self.mpr fun b hb => ?_
  rw [Bool.not_eq_true', Bool.eq_false_iff]
  exact List.any_eq_false.mp h b hb

theorem AtMostOne.not_hit {l : List α} {j k : ℕ} {a b : α} (h : AtMostOne hit l)
    (hk : l[k]? = some a) (ha : hit a = true) (hj : l[j]? = some b) (hjk : j ≠ k) :
    hit b = false := by
  by_contra hh
  exact hjk (h j k b a hj hk (by simpa using hh) ha)

theorem AtMostOne.eraseIdx_eq_filter {l : List α} {k : ℕ} {a : α} (h : AtMostOne hit l)
    (hk : l[k]? = some a) (ha : hit a = true) : l.eraseIdx k = l.filter (!hit ·) := by
  obtain ⟨hlt, rfl⟩ := List.getElem?_eq_some_iff.mp hk
  have hother : ∀ (j : ℕ) b, l[j]? = some b → j ≠ k → (!hit b) = true := fun j b hb hj => by
    rw [h.not_hit hk ha hb hj]
    rfl
  have htake : (l.take k).filter (!hit ·) = l.take k := List.filter_eq_self.mpr fun b hb => by
    obtain ⟨j, hj⟩ := List.mem_iff_getElem?.mp hb
    rw [List.getElem?_take] at hj
    split_ifs at hj with hjk
    exact hother j b hj (by omega)
  have hdrop : (l.drop (k + 1)).filter (!hit ·) = l.drop (k + 1) :=
    List.filter_eq_self.mpr fun b hb => by
      obtain ⟨j, hj⟩ := List.mem_iff_getElem?.mp hb
      rw [List.getElem?_drop] at hj
      exact hother _ b hj (by omega)
  conv_rhs => rw [← List.take_append_drop k l, List.drop_eq_getElem_cons hlt]
  rw [List.eraseIdx_eq_take_drop_succ, List.filter_append, htake,
    List.filter_cons_of_neg (by simp [ha]), hdrop]

/-- None of the first `i` elements is a hit. -/
def NoHitBelow (hit : α → Bool) (l : List α) (i : ℕ) : Prop :=
  ∀ j a, j < i → l[j]? = some a → hit a = false

theorem noHitBelow_zero (l : List α) : NoHitBelow hit l 0 := fun _ _ hj _ => absurd hj (by omega)

theorem NoHitBelow.succ {l : List α} {i : ℕ} {b : α} (hno : NoHitBelow hit l i)
    (hb : l[i]? = some b) (hhit : hit b = false) : NoHitBelow hit l (i + 1) := by
  intro j c hj hc
  rcases Nat.lt_succ_iff_lt_or_eq.mp hj with hj | rfl
  · exact hno j c hj hc
  · rw [hb] at hc
    exact Option.some.inj hc ▸ hhit

/-- A round of the erasing loop while nothing is erased: a miss, or the hit and its erase. -/
theorem eraseBody_cases (hit : α → Bool) {s : Scan α} {i : ℕ} (hvec : s.vec = v)
    (hi : i < v.size) :
    ∃ b, v.elems[i]? = some b ∧
      ((hit b = false ∧ eraseBody hit i s = some ⟨s.vec, s.found, s.accesses ++ [(i, s.vec.size)]⟩) ∨
        (hit b = true ∧ ∃ w, v.erase i = some w ∧
          eraseBody hit i s = some ⟨w, true, s.accesses ++ [(i, s.vec.size)]⟩)) := by
  obtain ⟨b, hb, hel⟩ := exists_at? hi
  rw [← hvec] at hb
  refine ⟨b, hel, ?_⟩
  cases hhit : hit b with
  | false => exact Or.inl ⟨rfl, eraseBody_miss hb hhit⟩
  | true =>
    obtain ⟨w, hw⟩ := exists_erase hi
    exact Or.inr ⟨rfl, w, hw, eraseBody_hit hb hhit (by rw [hvec]; exact hw)⟩

/-- A round behind the erase of the hit `a`: below the stale bound no slot holds a second hit. -/
theorem eraseBody_behind (h : AtMostOne hit v.elems) {s : Scan α} {i k : ℕ} {a : α}
    (hk : v.elems[k]? = some a) (ha : hit a = true) (hera : v.erase k = some s.vec) (hki : k < i)
    (hi : i < v.size) :
    eraseBody hit i s = some ⟨s.vec, s.found, s.accesses ++ [(i, s.vec.size)]⟩ := by
  obtain ⟨b, j, hb, hjk, hj⟩ := exists_read_erase hera hki hi
  exact eraseBody_miss hb (h.not_hit hk ha hj hjk)

/-- **The erasing loop.**  With at most one hit it erases that hit and keeps the rest in order.  The
invariant splits on whether the hit was found: behind it, slot `i` holds the old element `i + 1`, and
in the last round the element that the erase left behind the end. -/
theorem eraseLoop_spec (h : AtMostOne hit v.elems) :
    ∃ s, v.eraseLoop hit = some s ∧ s.vec.elems = v.elems.filter (!hit ·) ∧
      s.found = v.elems.any hit := by
  let I : ℕ → Scan α → Prop := fun i s =>
    (s.vec = v ∧ s.found = false ∧ NoHitBelow hit v.elems i) ∨
      ∃ k a, k < i ∧ v.elems[k]? = some a ∧ hit a = true ∧ v.erase k = some s.vec ∧ s.found = true
  have hstep : ∀ i s, 0 ≤ i → i < 0 + v.size → I i s →
      ∃ t, eraseBody hit i s = some t ∧ I (i + 1) t := by
    rintro i s - hi (⟨hvec, hfound, hno⟩ | ⟨k, a, hki, hk, ha, hera, hfound⟩)
    · obtain ⟨b, hel, ⟨hhit, hbody⟩ | ⟨hhit, w, hw, hbody⟩⟩ := eraseBody_cases hit hvec
        (show i < v.size by omega)
      · exact ⟨_, hbody, Or.inl ⟨hvec, hfound, hno.succ hel hhit⟩⟩
      · exact ⟨_, hbody, Or.inr ⟨i, b, by omega, hel, hhit, hw, rfl⟩⟩
    · exact ⟨_, eraseBody_behind h hk ha hera hki (by omega),
        Or.inr ⟨k, a, by omega, hk, ha, hera, hfound⟩⟩
  obtain ⟨s, hs, hI⟩ := forIdx_rule I v.size 0 ⟨v, false, []⟩ hstep
    (Or.inl ⟨rfl, rfl, noHitBelow_zero _⟩)
  refine ⟨s, hs, ?_⟩
  rcases hI with ⟨hvec, hfound, hno⟩ | ⟨k, a, -, hk, ha, hera, hfound⟩
  · have hany : v.elems.any hit = false := by
      refine List.any_eq_false.mpr fun b hb => ?_
      obtain ⟨j, hj⟩ := List.mem_iff_getElem?.mp hb
      have hlt := (List.getElem?_eq_some_iff.mp hj).1
      rw [length_elems] at hlt
      rw [hno j b (by omega) hj]
      exact Bool.false_ne_true
    rw [hvec, hfound, hany, filter_eq_self_of_any_eq_false hany]
    exact ⟨rfl, rfl⟩
  · have hany : v.elems.any hit = true := List.any_eq_true.mpr ⟨a, List.mem_of_getElem? hk, ha⟩
    rw [elems_erase hera, h.eraseIdx_eq_filter hk ha, hfound, hany]
    exact ⟨rfl, rfl⟩

/-! ### Accesses in range -/

/-- Every access is at an element, by the size of the vector at that moment. -/
def InRange (accesses : List (ℕ × ℕ)) : Prop := ∀ x ∈ accesses, x.1 < x.2

theorem inRange_nil : InRange [] := fun _ hx => absurd hx List.not_mem_nil

theorem inRange_concat {acc : List (ℕ × ℕ)} {i n : ℕ} :
    InRange (acc ++ [(i, n)]) ↔ InRange acc ∧ i < n := by
  unfold InRange
  rw [List.forall_mem_append, List.forall_mem_singleton]

theorem inRange_append {acc bcc : List (ℕ × ℕ)} (ha : InRange acc) (hb : InRange bcc) :
    InRange (acc ++ bcc) :=
  List.forall_mem_append.mpr ⟨ha, hb⟩

theorem findLoop_inRange {s : Scan α} (hs : v.findLoop hit = some s) : InRange s.accesses := by
  let I : ℕ → Scan α → Prop := fun _ s => s.vec = v ∧ InRange s.accesses
  have hstep : ∀ i s, 0 ≤ i → i < 0 + v.size → I i s →
      ∃ t, findBody hit i s = some t ∧ I (i + 1) t := by
    rintro i s - hi ⟨hvec, hacc⟩
    obtain ⟨a, ha, -⟩ := exists_at? (v := v) (i := i) (by omega)
    refine ⟨_, findBody_of (by rw [hvec]; exact ha), hvec, inRange_concat.mpr ⟨hacc, ?_⟩⟩
    rw [hvec]
    omega
  obtain ⟨t, ht, -, hacc⟩ := forIdx_rule I v.size 0 ⟨v, false, []⟩ hstep ⟨rfl, inRange_nil⟩
  obtain rfl := Option.some.inj (hs.symm.trans ht)
  exact hacc

theorem visitLoop_inRange {r : List α × List (ℕ × ℕ)} (hr : v.visitLoop = some r) :
    InRange r.2 := by
  let I : ℕ → List α × List (ℕ × ℕ) → Prop := fun _ s => InRange s.2
  have hstep : ∀ i s, 0 ≤ i → i < 0 + v.size → I i s →
      ∃ t, visitBody v i s = some t ∧ I (i + 1) t := by
    intro i s _ hi hs
    obtain ⟨a, ha, -⟩ := exists_at? (v := v) (i := i) (by omega)
    have hlt : i < v.size := by omega
    exact ⟨_, by rw [visitBody, ha]; rfl, inRange_concat.mpr ⟨hs, hlt⟩⟩
  obtain ⟨t, ht, hacc⟩ := forIdx_rule I v.size 0 ([], []) hstep inRange_nil
  obtain rfl := Option.some.inj (hr.symm.trans ht)
  exact hacc

/-- **The stale bound.**  Behind an erase the loop still runs to the old size, so its last access is
past the end unless the erase was in its last round. -/
theorem eraseLoop_inRange_iff (h : AtMostOne hit v.elems) {s : Scan α}
    (hs : v.eraseLoop hit = some s) : InRange s.accesses ↔
      ∀ (k : ℕ) (a : α), v.elems[k]? = some a → hit a = true → k + 1 = v.size := by
  let I : ℕ → Scan α → Prop := fun i s =>
    (s.vec = v ∧ InRange s.accesses ∧ NoHitBelow hit v.elems i) ∨
    ∃ k a, k < i ∧ v.elems[k]? = some a ∧ hit a = true ∧ v.erase k = some s.vec ∧
      (k + 1 = i → InRange s.accesses) ∧ (k + 1 < i → (i - 1, v.size - 1) ∈ s.accesses)
  have hstep : ∀ i s, 0 ≤ i → i < 0 + v.size → I i s →
      ∃ t, eraseBody hit i s = some t ∧ I (i + 1) t := by
    rintro i s - hi (⟨hvec, hacc, hno⟩ | ⟨k, a, hki, hk, ha, hera, -, -⟩)
    · have hacc' : InRange (s.accesses ++ [(i, s.vec.size)]) := by
        rw [inRange_concat, hvec]
        exact ⟨hacc, by omega⟩
      obtain ⟨b, hel, ⟨hhit, hbody⟩ | ⟨hhit, w, hw, hbody⟩⟩ := eraseBody_cases hit hvec
        (show i < v.size by omega)
      · exact ⟨_, hbody, Or.inl ⟨hvec, hacc', hno.succ hel hhit⟩⟩
      · exact ⟨_, hbody,
          Or.inr ⟨i, b, by omega, hel, hhit, hw, fun _ => hacc', fun hlt => by omega⟩⟩
    · refine ⟨_, eraseBody_behind h hk ha hera hki (by omega),
        Or.inr ⟨k, a, by omega, hk, ha, hera, fun heq => by omega,
          fun _ => List.mem_append_right _ ?_⟩⟩
      rw [(erase_size hera).2]
      exact List.mem_singleton.mpr rfl
  obtain ⟨t, ht, hI⟩ := forIdx_rule I v.size 0 ⟨v, false, []⟩ hstep
    (Or.inl ⟨rfl, inRange_nil, noHitBelow_zero _⟩)
  obtain rfl := Option.some.inj (hs.symm.trans ht)
  rw [Nat.zero_add] at hI
  rcases hI with ⟨-, hacc, hno⟩ | ⟨k, a, hk, hel, ha, hera, hlast, hpast⟩
  · refine iff_of_true hacc fun k a hk ha => ?_
    have hlt := (List.getElem?_eq_some_iff.mp hk).1
    rw [length_elems] at hlt
    exact absurd ha (by simp [hno k a hlt hk])
  · constructor
    · intro hin j b hj hb
      obtain rfl := h j k b a hj hel hb ha
      by_contra hne
      have := hin _ (hpast (by omega))
      dsimp only at this
      omega
    · exact fun hall => hlast (hall k a hel ha)

end StdVector

end Fssn.Lib
