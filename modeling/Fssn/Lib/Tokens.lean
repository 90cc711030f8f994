import Mathlib.Data.List.TakeWhile
import Mathlib.Tactic.Common

/-!
# Fssn.Lib.Tokens — splitting a list into its maximal runs of non-delimiters

`tokens p l` are the non-empty fields of `l` between delimiters, a delimiter being an element with
`p`.  `strtok p l` is one call of the C function: skip delimiters, take the token, and continue
behind the delimiter that ended it.  `strtokAll` calls it until it finds no token;
`strtokAll_eq_tokens` says that these are the tokens.

`getline p l` is one call of `std::getline` on a stream that holds `l`, and `getlineAll` the loop that
calls it until it fails.  It also finds empty fields, but none behind a delimiter that ends the
stream; without the empty ones they are the tokens (`filter_getlineAll`).
-/

namespace Fssn.Lib

variable {α : Type*} {p : α → Bool} {l a b t : List α}

/-- The maximal non-empty runs of elements without `p`, in order. -/
def tokens (p : α → Bool) (l : List α) : List (List α) := (l.splitOnP p).filter (!·.isEmpty)

/-- One call of `strtok`: the next token and what the following call starts from. -/
def strtok (p : α → Bool) (l : List α) : Option (List α × List α) :=
  match l.dropWhile p with
  | [] => none
  | x :: t => some ((x :: t).takeWhile (!p ·), ((x :: t).dropWhile (!p ·)).tail)

/-- One call of `getline`: the elements before the first delimiter and what the stream holds behind
it.  The call fails if there is nothing to extract; a last field may end without a delimiter. -/
def getline (p : α → Bool) : List α → Option (List α × List α)
  | [] => none
  | x :: t => some ((x :: t).takeWhile (!p ·), ((x :: t).dropWhile (!p ·)).tail)

/-! ### Tokens -/

/-- `dropWhile` stops in front of an element without `p`. -/
theorem head?_dropWhile {x : α} (h : (l.dropWhile p).head? = some x) : p x = false := by
  have hhead := List.head?_dropWhile_not p l
  rw [h] at hhead
  simpa using hhead

theorem head_dropWhile {x : α} (h : l.dropWhile p = x :: t) : p x = false :=
  head?_dropWhile (by rw [h]; rfl)

@[simp] theorem tokens_nil : tokens p [] = [] := rfl

theorem tokens_append_cons {x : α} (hx : p x = true) (a b : List α) :
    tokens p (a ++ x :: b) = tokens p a ++ tokens p b := by
  rw [tokens, List.splitOnP_append_cons a b hx, List.filter_append]
  rfl

theorem tokens_cons {x : α} (hx : p x = true) (l : List α) : tokens p (x :: l) = tokens p l := by
  simpa using tokens_append_cons hx [] l

/-- A list without delimiters is one field. -/
theorem tokens_eq_filter (hl : ∀ x ∈ l, p x = false) : tokens p l = [l].filter (!·.isEmpty) := by
  rw [tokens, List.splitOnP_eq_singleton hl]

/-- A non-empty list without delimiters is one token. -/
theorem tokens_of_free (hne : l ≠ []) (hl : ∀ x ∈ l, p x = false) : tokens p l = [l] := by
  rw [tokens_eq_filter hl, List.filter_cons_of_pos (by simpa using hne)]
  rfl

theorem mem_splitOnP {l f : List α} (hf : f ∈ l.splitOnP p) : ∀ x ∈ f, x ∈ l ∧ p x = false := by
  induction l generalizing f with
  | nil =>
    rw [List.splitOnP_nil, List.mem_singleton] at hf
    simp [hf]
  | cons y l ih =>
    intro x hx
    rw [List.splitOnP_cons_eq_if_modifyHead] at hf
    split_ifs at hf with hy
    · rcases List.mem_cons.mp hf with rfl | hf
      · simp at hx
      · exact ⟨List.mem_cons_of_mem _ (ih hf x hx).1, (ih hf x hx).2⟩
    · obtain ⟨g, gs, hg⟩ := List.exists_cons_of_ne_nil (List.splitOnP_ne_nil p l)
      rw [hg, List.modifyHead_cons, List.mem_cons] at hf
      have ih' : ∀ f' ∈ g :: gs, ∀ x ∈ f', x ∈ l ∧ p x = false := fun f' hf' => ih (hg ▸ hf')
      rcases hf with rfl | hf
      · rcases List.mem_cons.mp hx with rfl | hx
        · exact ⟨List.mem_cons_self, by simpa using hy⟩
        · have := ih' g List.mem_cons_self x hx
          exact ⟨List.mem_cons_of_mem _ this.1, this.2⟩
      · have := ih' f (List.mem_cons_of_mem _ hf) x hx
        exact ⟨List.mem_cons_of_mem _ this.1, this.2⟩

/-- A token is not empty and holds no delimiter. -/
theorem mem_tokens (ht : t ∈ tokens p l) : t ≠ [] ∧ ∀ x ∈ t, x ∈ l ∧ p x = false := by
  obtain ⟨hs, hne⟩ := List.mem_filter.mp ht
  exact ⟨by simpa using hne, mem_splitOnP hs⟩

/-- The first token, when the list starts with one, and the tokens behind its delimiter. -/
theorem tokens_takeWhile (hne : l ≠ []) (hl : ∀ x, l.head? = some x → p x = false) :
    tokens p l = l.takeWhile (!p ·) :: tokens p (l.dropWhile (!p ·)).tail := by
  obtain ⟨y, l', rfl⟩ := List.exists_cons_of_ne_nil hne
  have hy : p y = false := hl y rfl
  have hfree : ∀ x ∈ (y :: l').takeWhile (!p ·), p x = false := fun x hx => by
    simpa using List.mem_takeWhile_imp hx
  have hne' : (y :: l').takeWhile (!p ·) ≠ [] := by
    rw [List.takeWhile_cons_of_pos (by simp [hy])]
    exact List.cons_ne_nil _ _
  conv_lhs => rw [← List.takeWhile_append_dropWhile (p := (!p ·)) (l := y :: l')]
  cases hd : (y :: l').dropWhile (!p ·) with
  | nil => rw [List.append_nil, tokens_of_free hne' hfree, List.tail_nil, tokens_nil]
  | cons d r =>
    have hpd : p d = true := by simpa using head_dropWhile hd
    rw [tokens_append_cons hpd, tokens_of_free hne' hfree, List.tail_cons]
    rfl

theorem tokens_dropWhile (p : α → Bool) (l : List α) : tokens p (l.dropWhile p) = tokens p l := by
  induction l with
  | nil => rfl
  | cons x l ih =>
    by_cases hx : p x = true
    · rw [List.dropWhile_cons_of_pos hx, ih, tokens_cons hx]
    · rw [List.dropWhile_cons_of_neg hx]

/-- What stands at the front of a list and holds no `x` stands in front of its first `x`. -/
theorem prefix_of_prefix_append_cons {x : α} (ht : x ∉ t) (h : t <+: a ++ x :: b) : t <+: a := by
  rcases List.prefix_or_prefix_of_prefix h (List.prefix_append a (x :: b)) with hta | ⟨s, rfl⟩
  · exact hta
  · cases s with
    | nil => exact ⟨[], by simp⟩
    | cons y s =>
      have hs : y :: s <+: x :: b := (List.prefix_append_right_inj a).mp h
      have hyx : y = x := (List.cons_prefix_cons.mp hs).1
      exact absurd (hyx ▸ List.mem_append_right a List.mem_cons_self) ht

/-! ### How many tokens there are -/

/-- There is no token exactly if all elements are delimiters. -/
theorem tokens_eq_nil_iff : tokens p l = [] ↔ ∀ x ∈ l, p x = true := by
  constructor
  · intro h x hx
    by_contra hpx
    rw [← tokens_dropWhile] at h
    have hne : l.dropWhile p ≠ [] := fun hnil =>
      hpx (List.dropWhile_eq_nil_iff.mp hnil x hx)
    rw [tokens_takeWhile hne fun y => head?_dropWhile] at h
    exact List.cons_ne_nil _ _ h
  · intro h
    rw [← tokens_dropWhile, List.dropWhile_eq_nil_iff.mpr h, tokens_nil]

theorem tokens_ne_nil_iff : tokens p l ≠ [] ↔ ∃ x ∈ l, p x = false := by
  rw [Ne, tokens_eq_nil_iff]
  push Not
  simp only [Bool.not_eq_true]

/-- There are two tokens or more exactly if some delimiter has an element before it and one behind
it that are no delimiters. -/
theorem one_lt_length_tokens_iff : 1 < (tokens p l).length ↔
    ∃ a d b, l = a ++ d :: b ∧ p d = true ∧ (∃ x ∈ a, p x = false) ∧ ∃ x ∈ b, p x = false := by
  constructor
  · intro h
    have hnil : tokens p l ≠ [] := fun hnil => by simp [hnil] at h
    obtain ⟨x, hx, hpx⟩ := tokens_ne_nil_iff.mp hnil
    have hne : l.dropWhile p ≠ [] := fun hd => by
      simp [List.dropWhile_eq_nil_iff.mp hd x hx] at hpx
    obtain ⟨y, r, hyr⟩ := List.exists_cons_of_ne_nil hne
    have hy : p y = false := head_dropWhile hyr
    -- what stands behind the first token still has a token
    rw [← tokens_dropWhile, tokens_takeWhile hne fun y => head?_dropWhile, List.length_cons,
      Nat.lt_add_left_iff_pos, List.length_pos_iff, tokens_ne_nil_iff] at h
    obtain ⟨z, hz, hpz⟩ := h
    obtain ⟨d, b, hdb⟩ : ∃ d b, (l.dropWhile p).dropWhile (!p ·) = d :: b :=
      List.exists_cons_of_ne_nil fun hd => by simp [hd] at hz
    refine ⟨l.takeWhile p ++ (l.dropWhile p).takeWhile (!p ·), d, b, ?_, ?_, ⟨y, ?_, hy⟩, z, ?_, hpz⟩
    · rw [List.append_assoc, ← hdb, List.takeWhile_append_dropWhile, List.takeWhile_append_dropWhile]
    · simpa using head_dropWhile hdb
    · refine List.mem_append_right _ ?_
      rw [hyr, List.takeWhile_cons_of_pos (by simp [hy])]
      exact List.mem_cons_self
    · rwa [hdb, List.tail_cons] at hz
  · rintro ⟨a, d, b, rfl, hd, ha, hb⟩
    rw [tokens_append_cons hd, List.length_append]
    have h1 := List.length_pos_iff.mpr (tokens_ne_nil_iff.mpr ha)
    have h2 := List.length_pos_iff.mpr (tokens_ne_nil_iff.mpr hb)
    omega

/-! ### The strtok loop -/

theorem strtok_none (h : strtok p l = none) : tokens p l = [] := by
  rw [← tokens_dropWhile]
  unfold strtok at h
  split at h
  · rename_i hd
    rw [hd, tokens_nil]
  · simp at h

theorem strtok_some {r : List α} (h : strtok p l = some (t, r)) :
    tokens p l = t :: tokens p r ∧ r.length < l.length := by
  unfold strtok at h
  split at h
  · simp at h
  · rename_i x t' hd
    obtain ⟨rfl, rfl⟩ := Prod.mk.inj (Option.some.inj h)
    have hx : p x = false := head_dropWhile hd
    refine ⟨?_, ?_⟩
    · rw [← tokens_dropWhile, hd]
      exact tokens_takeWhile (by simp) (by simpa using hx)
    · have h1 := (List.dropWhile_sublist p (l := l)).length_le
      have h2 := (List.dropWhile_sublist (!p ·) (l := t')).length_le
      rw [hd, List.length_cons] at h1
      rw [List.dropWhile_cons_of_pos (by simp [hx]), List.length_tail]
      omega

/-- The tokens found by calling `strtok` until it returns null. -/
def strtokAll (p : α → Bool) (l : List α) : List (List α) :=
  match _h : strtok p l with
  | none => []
  | some (t, r) => t :: strtokAll p r
termination_by l.length
decreasing_by exact (strtok_some _h).2

/-- **The strtok loop finds the tokens**, in order. -/
theorem strtokAll_eq_tokens (p : α → Bool) (l : List α) : strtokAll p l = tokens p l := by
  fun_induction strtokAll p l with
  | case1 l h => exact (strtok_none h).symm
  | case2 l t r h ih => rw [ih, (strtok_some h).1]

/-! ### The getline loop -/

theorem getline_some {r : List α} (h : getline p l = some (t, r)) :
    l ≠ [] ∧ t = l.takeWhile (!p ·) ∧ r = (l.dropWhile (!p ·)).tail := by
  cases l with
  | nil => simp [getline] at h
  | cons x l =>
    obtain ⟨rfl, rfl⟩ := Prod.mk.inj (Option.some.inj h)
    exact ⟨List.cons_ne_nil _ _, rfl, rfl⟩

theorem length_of_getline {r : List α} (h : getline p l = some (t, r)) : r.length < l.length := by
  obtain ⟨hne, -, rfl⟩ := getline_some h
  have hpos := List.length_pos_iff.mpr hne
  have hle := (List.dropWhile_sublist (!p ·) (l := l)).length_le
  rw [List.length_tail]
  omega

/-- The fields found by calling `getline` until it fails. -/
def getlineAll (p : α → Bool) (l : List α) : List (List α) :=
  match _h : getline p l with
  | none => []
  | some (t, r) => t :: getlineAll p r
termination_by l.length
decreasing_by exact length_of_getline _h

theorem getlineAll_nil (p : α → Bool) : getlineAll p [] = [] := by
  rw [getlineAll]
  rfl

theorem getlineAll_of_ne_nil (hl : l ≠ []) :
    getlineAll p l = l.takeWhile (!p ·) :: getlineAll p (l.dropWhile (!p ·)).tail := by
  obtain ⟨x, l, rfl⟩ := List.exists_cons_of_ne_nil hl
  rw [getlineAll]
  rfl

/-- The field in front of a delimiter, empty or not. -/
theorem getlineAll_append_cons {x : α} (hx : p x = true) (hl : ∀ y ∈ l, p y = false)
    (r : List α) : getlineAll p (l ++ x :: r) = l :: getlineAll p r := by
  have hpos : ∀ y ∈ l, (!p y) = true := fun y hy => by simp [hl y hy]
  rw [getlineAll_of_ne_nil (by simp), List.takeWhile_append_of_pos hpos,
    List.dropWhile_append_of_pos hpos, List.takeWhile_cons_of_neg (by simp [hx]),
    List.dropWhile_cons_of_neg (by simp [hx]), List.append_nil, List.tail_cons]

/-- The last field, when no delimiter ends it. -/
theorem getlineAll_of_free (hne : l ≠ []) (hl : ∀ y ∈ l, p y = false) : getlineAll p l = [l] := by
  have hpos : ∀ y ∈ l, (!p y) = true := fun y hy => by simp [hl y hy]
  rw [getlineAll_of_ne_nil hne, List.takeWhile_eq_self_iff.mpr hpos,
    List.dropWhile_eq_nil_iff.mpr hpos, List.tail_nil, getlineAll_nil]

/-- A list is free of delimiters, or it has a first one. -/
theorem free_or_exists_delimiter (p : α → Bool) (l : List α) :
    (∀ y ∈ l, p y = false) ∨ ∃ a x r, l = a ++ x :: r ∧ p x = true ∧ ∀ y ∈ a, p y = false := by
  by_cases hd : l.dropWhile (!p ·) = []
  · exact Or.inl fun y hy => by simpa using List.dropWhile_eq_nil_iff.mp hd y hy
  · obtain ⟨x, r, hxr⟩ := List.exists_cons_of_ne_nil hd
    refine Or.inr ⟨l.takeWhile (!p ·), x, r, ?_, ?_, fun y hy => ?_⟩
    · rw [← hxr, List.takeWhile_append_dropWhile]
    · simpa using head_dropWhile hxr
    · simpa using List.mem_takeWhile_imp hy

/-- **The getline loop finds the tokens and empty fields besides**, in order. -/
theorem filter_getlineAll (p : α → Bool) (l : List α) :
    (getlineAll p l).filter (!·.isEmpty) = tokens p l := by
  induction hn : l.length using Nat.strong_induction_on generalizing l with
  | _ n ih =>
    rcases free_or_exists_delimiter p l with hfree | ⟨a, x, r, rfl, hx, ha⟩
    · by_cases hne : l = []
      · rw [hne, getlineAll_nil, tokens_nil]
        rfl
      · rw [getlineAll_of_free hne hfree, tokens_eq_filter hfree]
    · have hlen : r.length < n := by
        rw [← hn, List.length_append, List.length_cons]
        omega
      rw [getlineAll_append_cons hx ha, tokens_append_cons hx, tokens_eq_filter ha,
        ← List.singleton_append, List.filter_append, ih _ hlen r rfl]

end Fssn.Lib
