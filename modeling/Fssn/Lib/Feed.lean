import Mathlib.Data.List.Infix
import Mathlib.Logic.Function.Basic
import Mathlib.Tactic.Common

/-!
# Fssn.Lib.Feed — one log, many subscribers

A publisher appends to a log.  A subscriber joins at some length of the log; from then on every entry
is put into its queue, or missed because the queue is full, and it takes entries off its queue one at a
time.  `InOrder`: what a subscriber has taken, and then what waits for it, are entries behind its join
in the order of the log, none of them twice, and the missing ones are counted.  `Filtered`: with a filter for
each subscriber and room in all queues, they are what the filter lets through.
-/

namespace Fssn.Lib

/-- For each subscriber: the length of the log when it joined, its queue, what it has taken off it, and
how many entries it has missed. -/
structure Feed (κ τ : Type*) where
  since : κ → Option ℕ
  waiting : κ → List τ
  got : κ → List τ
  missed : κ → ℕ

namespace Feed

variable {κ τ : Type*}

def empty : Feed κ τ := ⟨fun _ => none, fun _ => [], fun _ => [], fun _ => 0⟩

/-- `c` joins a log of length `n`; who has joined stays where it is. -/
def subscribe [DecidableEq κ] (F : Feed κ τ) (c : κ) (n : ℕ) : Feed κ τ :=
  { F with since := Function.update F.since c (some ((F.since c).getD n)) }

/-- A new entry, which goes to the subscribers with room for it. -/
def publish (F : Feed κ τ) (room : κ → Bool) (x : τ) : Feed κ τ :=
  { F with
    waiting := fun c => if (F.since c).isSome && room c then F.waiting c ++ [x] else F.waiting c
    missed := fun c => if (F.since c).isSome && !room c then F.missed c + 1 else F.missed c }

def publishAll (F : Feed κ τ) (room : κ → Bool) (xs : List τ) : Feed κ τ :=
  xs.foldl (fun F x => F.publish room x) F

/-- The next entry in the queue of `c`, `none` when it is empty. -/
def take [DecidableEq κ] (F : Feed κ τ) (c : κ) : Option (τ × Feed κ τ) :=
  match F.waiting c with
  | [] => none
  | x :: r => some (x, { F with
      waiting := Function.update F.waiting c r
      got := Function.update F.got c (F.got c ++ [x]) })

/-- The part of the log that `c` reads. -/
def part (F : Feed κ τ) (log : List τ) (c : κ) : List τ := log.drop ((F.since c).getD log.length)

/-- The subscribers read the log. -/
structure InOrder (F : Feed κ τ) (log : List τ) : Prop where
  joined : ∀ c n, F.since c = some n → n ≤ log.length
  sublist : ∀ c, (F.got c ++ F.waiting c).Sublist (F.part log c)
  counted : ∀ c, (F.got c ++ F.waiting c).length + F.missed c = (F.part log c).length

variable {F G : Feed κ τ} {log : List τ} {c : κ} {x : τ}

theorem part_none (h : F.since c = none) : F.part log c = [] := by
  rw [part, h]
  exact List.drop_length

theorem part_some {n : ℕ} (h : F.since c = some n) : F.part log c = log.drop n := by
  rw [part, h]
  rfl

theorem InOrder.empty : (empty : Feed κ τ).InOrder [] where
  joined _ _ h := absurd h (by simp [Feed.empty])
  sublist _ := List.Sublist.slnil
  counted _ := rfl

section Subscribe

variable [DecidableEq κ]

/-- Who joins, joins at the end of the log. -/
theorem part_subscribe (F : Feed κ τ) (log : List τ) (c d : κ) :
    (F.subscribe c log.length).part log d = F.part log d := by
  unfold part Feed.subscribe
  dsimp only
  by_cases hd : d = c
  · subst hd
    rw [Function.update_self]
    rfl
  · rw [Function.update_of_ne hd]

theorem joined_subscribe (h : ∀ c n, F.since c = some n → n ≤ log.length) (c : κ) :
    ∀ d n, (F.subscribe c log.length).since d = some n → n ≤ log.length := by
  intro d n hn
  unfold Feed.subscribe at hn
  dsimp only at hn
  by_cases hd : d = c
  · subst hd
    rw [Function.update_self] at hn
    obtain rfl := Option.some.inj hn
    cases hsince : F.since d with
    | none => exact le_rfl
    | some m => exact h d m hsince
  · rw [Function.update_of_ne hd] at hn
    exact h d n hn

theorem InOrder.subscribe (h : F.InOrder log) (c : κ) : (F.subscribe c log.length).InOrder log := by
  refine ⟨joined_subscribe h.joined c, fun d => ?_, fun d => ?_⟩
  · rw [part_subscribe]
    exact h.sublist d
  · rw [part_subscribe]
    exact h.counted d

end Subscribe

theorem publish_none (h : F.since c = none) (room : κ → Bool) (x : τ) :
    (F.publish room x).waiting c = F.waiting c ∧ (F.publish room x).missed c = F.missed c := by
  simp [publish, h]

/-- A subscriber gets the new entry or misses it. -/
theorem publish_some {n : ℕ} (h : F.since c = some n) (room : κ → Bool) (x : τ) :
    ((F.publish room x).waiting c = F.waiting c ++ [x] ∧
        (F.publish room x).missed c = F.missed c) ∨
      ((F.publish room x).waiting c = F.waiting c ∧
        (F.publish room x).missed c = F.missed c + 1) := by
  cases hr : room c with
  | true => exact Or.inl (by simp [publish, h, hr])
  | false => exact Or.inr (by simp [publish, h, hr])

/-- Who has joined reads the new entry. -/
theorem part_publish (h : ∀ c n, F.since c = some n → n ≤ log.length) (room : κ → Bool) (x : τ)
    {n : ℕ} (hsince : F.since c = some n) :
    (F.publish room x).part (log ++ [x]) c = F.part log c ++ [x] := by
  rw [part_some (F := F.publish room x) hsince, part_some hsince,
    List.drop_append_of_le_length (h c n hsince)]

theorem InOrder.publish (h : F.InOrder log) (room : κ → Bool) (x : τ) :
    (F.publish room x).InOrder (log ++ [x]) := by
  have hpart : ∀ c n, F.since c = some n →
      (F.publish room x).part (log ++ [x]) c = F.part log c ++ [x] :=
    fun c n => part_publish h.joined room x
  have hone : ∀ l : List τ, (l ++ [x]).length = l.length + 1 := fun _ => List.length_append
  refine ⟨fun c n hn => ?_, fun c => ?_, fun c => ?_⟩
  · rw [hone]
    exact (h.joined c n hn).trans (Nat.le_add_right _ _)
  · have hsub := h.sublist c
    show (F.got c ++ (F.publish room x).waiting c).Sublist _
    cases hsince : F.since c with
    | none =>
      rw [(publish_none hsince room x).1, part_none (F := F.publish room x) hsince]
      exact part_none (F := F) hsince ▸ hsub
    | some n =>
      rw [hpart c n hsince]
      rcases publish_some hsince room x with ⟨hw, -⟩ | ⟨hw, -⟩
      · rw [hw, ← List.append_assoc]
        exact hsub.append (List.Sublist.refl _)
      · rw [hw]
        exact hsub.trans (List.sublist_append_left _ _)
  · have hcount := h.counted c
    show (F.got c ++ (F.publish room x).waiting c).length + _ = _
    cases hsince : F.since c with
    | none =>
      obtain ⟨hw, hm⟩ := publish_none hsince room x
      rw [hw, hm, part_none (F := F.publish room x) hsince]
      exact part_none (F := F) hsince ▸ hcount
    | some n =>
      rw [hpart c n hsince, hone, ← hcount]
      rcases publish_some hsince room x with ⟨hw, hm⟩ | ⟨hw, hm⟩
      · rw [hw, hm, ← List.append_assoc, hone]
        omega
      · rw [hw, hm]
        rfl

theorem publishAll_got (room : κ → Bool) (xs : List τ) : (F.publishAll room xs).got = F.got := by
  induction xs generalizing F with
  | nil => rfl
  | cons x xs ih => exact ih (F := F.publish room x)

theorem publishAll_since (room : κ → Bool) (xs : List τ) :
    (F.publishAll room xs).since = F.since := by
  induction xs generalizing F with
  | nil => rfl
  | cons x xs ih => exact ih (F := F.publish room x)

/-- Nobody misses an entry when all queues have room. -/
theorem publishAll_missed (xs : List τ) : (F.publishAll (fun _ => true) xs).missed = F.missed := by
  induction xs generalizing F with
  | nil => rfl
  | cons x xs ih =>
    refine (ih (F := F.publish _ x)).trans ?_
    funext c
    simp [publish]

theorem InOrder.publishAll (h : F.InOrder log) (room : κ → Bool) (xs : List τ) :
    (F.publishAll room xs).InOrder (log ++ xs) := by
  induction xs generalizing F log with
  | nil =>
    rw [List.append_nil]
    exact h
  | cons x xs ih =>
    have := ih (h.publish room x)
    rw [List.append_assoc] at this
    exact this

theorem take_some [DecidableEq κ] (h : F.take c = some (x, G)) :
    G.since = F.since ∧ G.missed = F.missed ∧ F.waiting c = x :: G.waiting c ∧
      G.got c = F.got c ++ [x] ∧
      ∀ d, d ≠ c → G.waiting d = F.waiting d ∧ G.got d = F.got d := by
  unfold take at h
  split at h
  · exact absurd h (by simp)
  · rename_i y r hw
    obtain ⟨rfl, rfl⟩ := Prod.mk.inj (Option.some.inj h)
    refine ⟨rfl, rfl, ?_, Function.update_self _ _ _, fun d hd => ?_⟩
    · dsimp only
      rw [Function.update_self, hw]
    · exact ⟨Function.update_of_ne hd _ _, Function.update_of_ne hd _ _⟩

/-- Taking an entry moves it from the queue to what was taken. -/
theorem take_same [DecidableEq κ] (h : F.take c = some (x, G)) (d : κ) :
    G.got d ++ G.waiting d = F.got d ++ F.waiting d := by
  obtain ⟨-, -, hwait, hgot, hother⟩ := take_some h
  by_cases hd : d = c
  · subst hd
    rw [hgot, hwait, List.append_assoc]
    rfl
  · rw [(hother d hd).1, (hother d hd).2]

theorem InOrder.take [DecidableEq κ] (h : F.InOrder log) (ht : F.take c = some (x, G)) :
    G.InOrder log := by
  obtain ⟨hsince, hmissed, -⟩ := take_some ht
  have hpart : ∀ d, G.part log d = F.part log d := fun d => by rw [part, part, hsince]
  refine ⟨fun d n hn => h.joined d n (hsince ▸ hn), fun d => ?_, fun d => ?_⟩
  · rw [take_same ht, hpart]
    exact h.sublist d
  · rw [take_same ht, hpart, hmissed]
    exact h.counted d

/-- A subscriber that has missed nothing reads all of its part. -/
theorem InOrder.eq_part (h : F.InOrder log) (hm : F.missed c = 0) :
    F.got c ++ F.waiting c = F.part log c := by
  have hcount := h.counted c
  exact (h.sublist c).eq_of_length (by omega)

/-- What was taken are entries of the log, in its order. -/
theorem InOrder.got_sublist (h : F.InOrder log) (c : κ) : (F.got c).Sublist log :=
  ((List.sublist_append_left _ _).trans (h.sublist c)).trans (List.drop_sublist _ _)

/-- Of two subscribers that have missed nothing, one reads the end of what the other reads. -/
theorem InOrder.agree (h : F.InOrder log) {d : κ} (hc : F.missed c = 0) (hd : F.missed d = 0) :
    F.got c ++ F.waiting c <:+ F.got d ++ F.waiting d ∨
      F.got d ++ F.waiting d <:+ F.got c ++ F.waiting c := by
  rw [h.eq_part hc, h.eq_part hd]
  exact List.suffix_or_suffix_of_suffix (List.drop_suffix _ _) (List.drop_suffix _ _)

/-! ### Filters -/

/-- Every subscriber reads what its filter lets through of its part, and nothing of that is missing. -/
structure Filtered (F : Feed κ τ) (passes : κ → τ → Bool) (log : List τ) : Prop where
  joined : ∀ c n, F.since c = some n → n ≤ log.length
  reads : ∀ c, F.got c ++ F.waiting c = (F.part log c).filter (passes c)

variable {passes : κ → τ → Bool}

theorem Filtered.empty : (empty : Feed κ τ).Filtered passes [] where
  joined _ _ h := absurd h (by simp [Feed.empty])
  reads _ := rfl

theorem Filtered.subscribe [DecidableEq κ] (h : F.Filtered passes log) (c : κ) :
    (F.subscribe c log.length).Filtered passes log := by
  refine ⟨joined_subscribe h.joined c, fun d => ?_⟩
  rw [part_subscribe]
  exact h.reads d

/-- A new entry goes to the subscribers whose filters let it through. -/
theorem Filtered.publish (h : F.Filtered passes log) (x : τ) :
    (F.publish (fun c => passes c x) x).Filtered passes (log ++ [x]) := by
  refine ⟨fun c n hn => ?_, fun c => ?_⟩
  · rw [List.length_append]
    exact (h.joined c n hn).trans (Nat.le_add_right _ _)
  · have hreads := h.reads c
    show F.got c ++ (F.publish (fun c => passes c x) x).waiting c = _
    cases hsince : F.since c with
    | none =>
      rw [(publish_none hsince _ x).1, part_none (F := F.publish _ x) hsince, hreads, part_none hsince]
    | some n =>
      rw [part_publish h.joined _ x hsince, List.filter_append, ← hreads]
      cases hp : passes c x with
      | true => simp [Feed.publish, hsince, hp]
      | false => simp [Feed.publish, hsince, hp]

theorem Filtered.take [DecidableEq κ] (h : F.Filtered passes log) (ht : F.take c = some (x, G)) :
    G.Filtered passes log := by
  obtain ⟨hsince, -⟩ := take_some ht
  refine ⟨fun d n hn => h.joined d n (hsince ▸ hn), fun d => ?_⟩
  rw [take_same ht, show G.part log d = F.part log d by rw [part, part, hsince]]
  exact h.reads d

/-- Of two subscribers with one filter, one reads the end of what the other reads. -/
theorem Filtered.agree (h : F.Filtered passes log) {d : κ} (hp : passes c = passes d) :
    F.got c ++ F.waiting c <:+ F.got d ++ F.waiting d ∨
      F.got d ++ F.waiting d <:+ F.got c ++ F.waiting c := by
  rw [h.reads, h.reads, hp]
  rcases List.suffix_or_suffix_of_suffix (List.drop_suffix ((F.since c).getD log.length) log)
    (List.drop_suffix ((F.since d).getD log.length) log) with hs | hs
  · exact Or.inl (hs.filter _)
  · exact Or.inr (hs.filter _)

end Feed

end Fssn.Lib
