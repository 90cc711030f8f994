import Mathlib.Data.List.Induction
import Mathlib.Data.List.Nodup
import Mathlib.Data.Nat.Basic
import Mathlib.Order.Basic
import Mathlib.Tactic.Common

/-!
# Fssn.Lib.Registry — a registry keyed by part of its entries

Entries of type `α` are identified by `key : α → κ`.  An event is an operation with the entry it
comes from: `join` appends the entry unless its key is present, `leave` removes the entry with that
key, `other` changes nothing.  `run` is the registry after a history of events, oldest first.

* `nodup_run`: no key is present twice.
* `mem_run_iff`: a key is present exactly when its latest `join` or `leave` is a `join` (`Member`).
* `run_order`: the entries stand in the order in which their keys last went from absent to present,
  each being the entry of the event that caused it (`LastJoin`).
* `filter_run`: the entries with one key depend only on the `join` and `leave` events with that key.
-/

namespace Fssn.Lib.Registry

inductive Op
  | join
  | leave
  | other
deriving DecidableEq, Repr

variable {α κ : Type*} [DecidableEq κ] (key : α → κ)

/-- The registry after one event. -/
def apply (q : List α) : Op × α → List α
  | (.join, a) => if key a ∈ q.map key then q else q ++ [a]
  | (.leave, a) => q.filter fun b => key b ≠ key a
  | (.other, _) => q

/-- The registry after a history of events. -/
def run (es : List (Op × α)) : List α := es.foldl (apply key) []

/-- The `join` and `leave` events with key `k`. -/
def commandsOf (k : κ) (es : List (Op × α)) : List (Op × α) :=
  es.filter fun e => key e.2 = k ∧ e.1 ≠ .other

/-- The latest `join` or `leave` with key `k` is a `join`. -/
def Member (es : List (Op × α)) (k : κ) : Prop :=
  (commandsOf key k es).getLast?.map Prod.fst = some .join

instance (es : List (Op × α)) (k : κ) : Decidable (Member key es k) :=
  inferInstanceAs (Decidable (_ = _))

/-- Event `j` is the `join` of `a` at which `a`'s key last went from absent to present. -/
def LastJoin (es : List (Op × α)) (j : ℕ) (a : α) : Prop :=
  es[j]? = some (.join, a) ∧ ¬ Member key (es.take j) (key a) ∧
    ∀ m, j < m → m ≤ es.length → Member key (es.take m) (key a)

variable {key}

theorem apply_join_mem {q : List α} {a : α} (h : key a ∈ q.map key) : apply key q (.join, a) = q :=
  if_pos h

theorem apply_join_new {q : List α} {a : α} (h : key a ∉ q.map key) :
    apply key q (.join, a) = q ++ [a] :=
  if_neg h

theorem apply_leave (q : List α) (a : α) :
    apply key q (.leave, a) = q.filter fun b => key b ≠ key a := rfl

@[simp] theorem apply_other (q : List α) (a : α) : apply key q (.other, a) = q := rfl

@[simp] theorem run_nil : run key [] = [] := rfl

theorem run_concat (es : List (Op × α)) (e : Op × α) :
    run key (es ++ [e]) = apply key (run key es) e := by
  rw [run, run, List.foldl_append]
  rfl

theorem not_member_nil (k : κ) : ¬ Member key [] k := by simp [Member, commandsOf]

theorem member_concat (es : List (Op × α)) (e : Op × α) (k : κ) : Member key (es ++ [e]) k ↔
    if key e.2 = k ∧ e.1 ≠ .other then e.1 = .join else Member key es k := by
  unfold Member commandsOf
  rw [List.filter_append]
  split_ifs with h
  · rw [List.filter_cons_of_pos (by simpa using h), List.filter_nil, List.getLast?_concat]
    simp
  · rw [List.filter_cons_of_neg (by simpa using h), List.filter_nil, List.append_nil]

/-! ### Keys -/

theorem nodup_apply {q : List α} (h : (q.map key).Nodup) (e : Op × α) :
    ((apply key q e).map key).Nodup := by
  obtain ⟨op, a⟩ := e
  cases op with
  | join =>
    by_cases hm : key a ∈ q.map key
    · rwa [apply_join_mem hm]
    · rw [apply_join_new hm, List.map_append, List.map_singleton]
      exact List.nodup_append.mpr ⟨h, List.nodup_singleton _, fun k hk k' hk' he => by
        rw [List.mem_singleton] at hk'
        exact hm (hk' ▸ he ▸ hk)⟩
  | leave => exact h.sublist (List.filter_sublist.map key)
  | other => exact h

/-- **No key is present twice.** -/
theorem nodup_run (es : List (Op × α)) : ((run key es).map key).Nodup := by
  induction es using List.reverseRecOn with
  | nil => simp
  | append_singleton es e ih =>
    rw [run_concat]
    exact nodup_apply ih e

theorem mem_apply_iff (q : List α) (e : Op × α) (k : κ) : k ∈ (apply key q e).map key ↔
    if key e.2 = k ∧ e.1 ≠ .other then e.1 = .join else k ∈ q.map key := by
  obtain ⟨op, a⟩ := e
  cases op with
  | join =>
    by_cases hm : key a ∈ q.map key
    · rw [apply_join_mem hm]
      split_ifs with h
      · exact iff_of_true (h.1 ▸ hm) rfl
      · rfl
    · rw [apply_join_new hm, List.map_append, List.mem_append, List.map_singleton,
        List.mem_singleton]
      split_ifs with h
      · exact iff_of_true (Or.inr h.1.symm) rfl
      · have hk : k ≠ key a := fun hk => h ⟨hk.symm, by simp⟩
        simp [hk]
  | leave =>
    rw [apply_leave]
    simp only [List.mem_map, List.mem_filter, decide_eq_true_eq]
    by_cases hk : key a = k
    · subst hk
      simp
    · simp only [hk, false_and, if_false]
      exact ⟨fun ⟨b, hb, hbk⟩ => ⟨b, hb.1, hbk⟩,
        fun ⟨b, hb, hbk⟩ => ⟨b, ⟨hb, fun h => hk (h.symm.trans hbk)⟩, hbk⟩⟩
  | other => simp [apply]

/-- **A key is present exactly when its latest command is a `join`.** -/
theorem mem_run_iff (es : List (Op × α)) (k : κ) : k ∈ (run key es).map key ↔ Member key es k := by
  induction es using List.reverseRecOn with
  | nil => simpa using (not_member_nil k : ¬ Member key [] k)
  | append_singleton es e ih => rw [run_concat, mem_apply_iff, member_concat, ih]

/-- Joining entries with distinct keys one after the other. -/
theorem run_joins {q : List α} (h : (q.map key).Nodup) :
    run key (q.map fun a => (.join, a)) = q := by
  induction q using List.reverseRecOn with
  | nil => rfl
  | append_singleton q a ih =>
    rw [List.map_append, List.map_singleton, List.nodup_append] at h
    have hnew : key a ∉ q.map key := fun ha => h.2.2 _ ha _ (List.mem_singleton.mpr rfl) rfl
    rw [List.map_append, List.map_singleton, run_concat, ih h.1, apply_join_new hnew]

/-! ### Order -/

theorem lastJoin_concat_lt {es : List (Op × α)} {e : Op × α} {j : ℕ} {a : α} (hj : j < es.length) :
    LastJoin key (es ++ [e]) j a ↔ LastJoin key es j a ∧ Member key (es ++ [e]) (key a) := by
  have htake : ∀ m, m ≤ es.length → (es ++ [e]).take m = es.take m := fun m hm =>
    List.take_append_of_le_length hm
  unfold LastJoin
  rw [List.getElem?_append_left hj, htake j (Nat.le_of_lt hj), List.length_append,
    List.length_singleton]
  constructor
  · rintro ⟨h1, h2, h3⟩
    refine ⟨⟨h1, h2, fun m hm hm' => htake m hm' ▸ h3 m hm (by omega)⟩, ?_⟩
    have := h3 (es.length + 1) (by omega) le_rfl
    rwa [List.take_of_length_le (by simp)] at this
  · rintro ⟨⟨h1, h2, h3⟩, h4⟩
    refine ⟨h1, h2, fun m hm hm' => ?_⟩
    rcases Nat.lt_or_ge es.length m with h | h
    · rwa [List.take_of_length_le (by simp; omega)]
    · rw [htake m h]
      exact h3 m hm h

theorem lastJoin_concat_self {es : List (Op × α)} {e : Op × α} {a : α} :
    LastJoin key (es ++ [e]) es.length a ↔ e = (.join, a) ∧ ¬ Member key es (key a) := by
  unfold LastJoin
  rw [List.getElem?_concat_length, List.take_left, Option.some.injEq]
  constructor
  · exact fun h => ⟨h.1, h.2.1⟩
  · rintro ⟨rfl, h2⟩
    refine ⟨rfl, h2, fun m hm hm' => ?_⟩
    rw [List.take_of_length_le (by simp; omega), member_concat, if_pos ⟨rfl, by simp⟩]

theorem LastJoin.lt {es : List (Op × α)} {j : ℕ} {a : α} (h : LastJoin key es j a) :
    j < es.length :=
  (List.getElem?_eq_some_iff.mp h.1).1

theorem LastJoin.member {es : List (Op × α)} {j : ℕ} {a : α} (h : LastJoin key es j a) :
    Member key es (key a) := by
  have := h.2.2 es.length h.lt le_rfl
  rwa [List.take_length] at this

/-- The positions of the last joins with their entries, in the order of the history. -/
structure Arrivals (key : α → κ) (es : List (Op × α)) (L : List (ℕ × α)) : Prop where
  sorted : L.Pairwise fun x y => x.1 < y.1
  mem_iff : ∀ j a, (j, a) ∈ L ↔ LastJoin key es j a

section Arrivals

variable {es : List (Op × α)} {L : List (ℕ × α)} {x : ℕ × α}

theorem Arrivals.lt (hL : Arrivals key es L) (hx : x ∈ L) : x.1 < es.length :=
  ((hL.mem_iff x.1 x.2).mp hx).lt

theorem Arrivals.member (hL : Arrivals key es L) (hx : x ∈ L) : Member key es (key x.2) :=
  ((hL.mem_iff x.1 x.2).mp hx).member

/-- The last joins of a history with one more event, except a last join at its end. -/
theorem Arrivals.lastJoin_concat (hL : Arrivals key es L) (e : Op × α) {j : ℕ} (a : α)
    (hj : j ≠ es.length) :
    LastJoin key (es ++ [e]) j a ↔ (j, a) ∈ L ∧ Member key (es ++ [e]) (key a) := by
  rcases Nat.lt_or_gt_of_ne hj with h | h
  · rw [lastJoin_concat_lt h, hL.mem_iff]
  · refine iff_of_false (fun hl => ?_) (fun hl => ?_)
    · have := hl.lt
      rw [List.length_append, List.length_singleton] at this
      omega
    · have : j < es.length := hL.lt hl.1
      omega

/-- A `join` of an absent key: no older last join has that key, so all of them remain. -/
theorem Arrivals.concat_new (hL : Arrivals key es L) {b : α} (hb : ¬ Member key es (key b)) :
    Arrivals key (es ++ [(.join, b)]) (L ++ [(es.length, b)]) where
  sorted := by
    refine List.pairwise_append.mpr ⟨hL.sorted, List.pairwise_singleton _ _, fun x hx y hy => ?_⟩
    rw [List.mem_singleton.mp hy]
    exact hL.lt hx
  mem_iff j a := by
    rw [List.mem_append, List.mem_singleton, Prod.mk.injEq]
    by_cases hj : j = es.length
    · subst hj
      rw [lastJoin_concat_self, Prod.mk.injEq]
      constructor
      · rintro (h | ⟨-, rfl⟩)
        · exact absurd (hL.lt h) (Nat.lt_irrefl _)
        · exact ⟨⟨rfl, rfl⟩, hb⟩
      · rintro ⟨⟨-, rfl⟩, -⟩
        exact Or.inr ⟨rfl, rfl⟩
    · rw [hL.lastJoin_concat _ a hj]
      constructor
      · rintro (h | ⟨h, -⟩)
        · have hold : Member key es (key a) := hL.member h
          have hne : key b ≠ key a := fun hba => hb (hba ▸ hold)
          refine ⟨h, ?_⟩
          rw [member_concat, if_neg (fun h => hne h.1)]
          exact hold
        · exact absurd h hj
      · exact fun h => Or.inl h.1

/-- Any other event: of the last joins those remain whose keys are still present. -/
theorem Arrivals.concat_old (hL : Arrivals key es L) {e : Op × α}
    (he : e.1 = .join → Member key es (key e.2)) :
    Arrivals key (es ++ [e]) (L.filter fun x => Member key (es ++ [e]) (key x.2)) where
  sorted := hL.sorted.filter _
  mem_iff j a := by
    rw [List.mem_filter, decide_eq_true_iff]
    by_cases hj : j = es.length
    · subst hj
      refine iff_of_false (fun h => Nat.lt_irrefl _ (hL.lt h.1)) (fun h => ?_)
      obtain ⟨rfl, hna⟩ := lastJoin_concat_self.mp h
      exact hna (he rfl)
    · exact (hL.lastJoin_concat e a hj).symm

/-- There the registry drops the same entries. -/
theorem Arrivals.apply_old (hL : Arrivals key es L) (hrun : run key es = L.map Prod.snd)
    {e : Op × α} (he : e.1 = .join → Member key es (key e.2)) :
    apply key (L.map Prod.snd) e =
      (L.filter fun x => Member key (es ++ [e]) (key x.2)).map Prod.snd := by
  obtain ⟨op, b⟩ := e
  cases op with
  | join =>
    have hb : key b ∈ (run key es).map key := (mem_run_iff es _).mpr (he rfl)
    rw [apply_join_mem (hrun ▸ hb), List.filter_eq_self.mpr]
    intro x hx
    rw [decide_eq_true_iff, member_concat]
    split_ifs
    · rfl
    · exact hL.member hx
  | leave =>
    rw [apply_leave, List.filter_map]
    congr 1
    refine List.filter_congr fun x hx => ?_
    rw [Function.comp_apply, decide_eq_decide, member_concat]
    by_cases h : key b = key x.2
    · simp [h]
    · simp [h, Ne.symm h, hL.member hx]
  | other =>
    rw [apply_other, List.filter_eq_self.mpr]
    intro x hx
    rw [decide_eq_true_iff, member_concat, if_neg (by simp)]
    exact hL.member hx

end Arrivals

/-- **The entries stand in the order in which their keys last went from absent to present.**  One
event at a time: a new key goes to the end, a repeated `join` changes no last join, a `leave` drops
the last join of its key. -/
theorem run_order (es : List (Op × α)) : ∃ L, Arrivals key es L ∧ run key es = L.map Prod.snd := by
  induction es using List.reverseRecOn with
  | nil => exact ⟨[], ⟨List.Pairwise.nil, fun j a => by simp [LastJoin]⟩, rfl⟩
  | append_singleton es e ih =>
    obtain ⟨L, hL, hrun⟩ := ih
    rw [run_concat]
    by_cases hnew : e.1 = .join ∧ ¬ Member key es (key e.2)
    · obtain ⟨op, b⟩ := e
      obtain ⟨rfl, hb⟩ := hnew
      refine ⟨L ++ [(es.length, b)], hL.concat_new hb, ?_⟩
      rw [apply_join_new (by rwa [mem_run_iff]), hrun, List.map_append]
      rfl
    · have he : e.1 = .join → Member key es (key e.2) := fun h =>
        by_contra fun hm => hnew ⟨h, hm⟩
      exact ⟨_, hL.concat_old he, hrun ▸ hL.apply_old hrun he⟩

/-! ### One key at a time -/

theorem filter_apply (q : List α) (e : Op × α) (k : κ) :
    (apply key q e).filter (fun b => key b = k) =
      if key e.2 = k ∧ e.1 ≠ .other then apply key (q.filter fun b => key b = k) e
      else q.filter fun b => key b = k := by
  obtain ⟨op, a⟩ := e
  cases op with
  | join =>
    by_cases hk : key a = k
    · subst hk
      have hmem : key a ∈ (q.filter fun b => key b = key a).map key ↔ key a ∈ q.map key := by
        simp [List.mem_map, List.mem_filter]
      rw [if_pos ⟨rfl, by simp⟩]
      by_cases hm : key a ∈ q.map key
      · rw [apply_join_mem hm, apply_join_mem (hmem.mpr hm)]
      · rw [apply_join_new hm, apply_join_new (fun h => hm (hmem.mp h)), List.filter_append,
          List.filter_cons_of_pos (by simp), List.filter_nil]
    · rw [if_neg (fun h => hk h.1)]
      by_cases hm : key a ∈ q.map key
      · rw [apply_join_mem hm]
      · rw [apply_join_new hm, List.filter_append, List.filter_cons_of_neg (by simpa using hk),
          List.filter_nil, List.append_nil]
  | leave =>
    by_cases hk : key a = k
    · subst hk
      rw [if_pos ⟨rfl, by simp⟩, apply_leave, apply_leave, List.filter_filter, List.filter_filter]
      exact List.filter_congr fun b _ => by rw [Bool.and_comm]
    · rw [if_neg (fun h => hk h.1), apply_leave, List.filter_filter]
      refine List.filter_congr fun b _ => ?_
      by_cases hb : key b = k
      · simp [hb, Ne.symm hk]
      · simp [hb]
  | other => simp [apply]

/-- **The entries with one key depend only on the commands with that key.** -/
theorem filter_run (key : α → κ) (es : List (Op × α)) (k : κ) :
    (run key es).filter (fun b => key b = k) =
      (run key (commandsOf key k es)).filter (fun b => key b = k) := by
  induction es using List.reverseRecOn with
  | nil => rfl
  | append_singleton es e ih =>
    rw [run_concat, filter_apply, commandsOf, List.filter_append]
    split_ifs with h
    · rw [List.filter_cons_of_pos (by simpa using h), List.filter_nil, run_concat, filter_apply,
        if_pos h, ih]
      rfl
    · rw [List.filter_cons_of_neg (by simpa using h), List.filter_nil, List.append_nil]
      exact ih

/-- The entry with key `k`, if there is one. -/
def entry (key : α → κ) (q : List α) (k : κ) : Option α := q.find? fun b => key b = k

theorem filter_eq_entry {q : List α} (h : (q.map key).Nodup) (k : κ) :
    q.filter (fun b => key b = k) = (entry key q k).toList := by
  induction q with
  | nil => rfl
  | cons a q ih =>
    rw [List.map_cons, List.nodup_cons] at h
    by_cases hk : key a = k
    · have hnone : q.filter (fun b => key b = k) = [] := List.filter_eq_nil_iff.mpr fun b hb hbk =>
        h.1 (List.mem_map.mpr ⟨b, hb, (by simpa using hbk : key b = k).trans hk.symm⟩)
      rw [List.filter_cons_of_pos (by simpa using hk), hnone, entry,
        List.find?_cons_of_pos (by simpa using hk)]
      rfl
    · rw [List.filter_cons_of_neg (by simpa using hk), ih h.2, entry, entry,
        List.find?_cons_of_neg (by simpa using hk)]

end Fssn.Lib.Registry
