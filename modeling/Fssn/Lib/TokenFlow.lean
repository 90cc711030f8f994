import Mathlib.Data.List.Nodup
import Mathlib.Tactic.Common

/-!
# Fssn.Lib.TokenFlow — tokens that move between FIFO places

A system of queues seen from its items: every place holds a list of tokens, a token enters the
system at some place, and a step takes the first token of one place to the end of another.

`Exact at issued`: the tokens in the places are the issued ones, each in one place, once.  It is kept
by `issue` and `move`.
-/

namespace Fssn.Lib

variable {Λ τ : Type*}

/-- Each issued token is in exactly one place, once, and nothing else is. -/
structure Exact (places : Λ → List τ) (issued : τ → Prop) : Prop where
  nodup : ∀ l, (places l).Nodup
  apart : ∀ l l' x, x ∈ places l → x ∈ places l' → l = l'
  mem_iff : ∀ x, (∃ l, x ∈ places l) ↔ issued x

theorem Exact.empty : Exact (fun _ : Λ => ([] : List τ)) fun _ => False where
  nodup _ := List.nodup_nil
  apart _ _ _ hx := absurd hx List.not_mem_nil
  mem_iff _ := ⟨fun ⟨_, hx⟩ => absurd hx List.not_mem_nil, False.elim⟩

variable [DecidableEq Λ]

/-- A new token at the end of a place. -/
def issue (places : Λ → List τ) (a : Λ) (x : τ) : Λ → List τ :=
  fun l => if l = a then places a ++ [x] else places l

/-- The first token of `a` goes to the end of `b`. -/
def move (places : Λ → List τ) (a b : Λ) : Λ → List τ :=
  fun l => if l = a then (places a).tail else if l = b then places b ++ (places a).take 1 else places l

section Places

variable {places : Λ → List τ} {a b l : Λ} {x : τ} {r : List τ}

@[simp] theorem issue_self : issue places a x a = places a ++ [x] := if_pos rfl

@[simp] theorem issue_of_ne (h : l ≠ a) : issue places a x l = places l := if_neg h

theorem move_source (h : places a = x :: r) : move places a b a = r := by
  rw [move, if_pos rfl, h]
  rfl

theorem move_target (hab : b ≠ a) (h : places a = x :: r) : move places a b b = places b ++ [x] := by
  rw [move, if_neg hab, if_pos rfl, h]
  rfl

@[simp] theorem move_of_ne (ha : l ≠ a) (hb : l ≠ b) : move places a b l = places l := by
  rw [move, if_neg ha, if_neg hb]

theorem mem_issue {y : τ} : y ∈ issue places a x l ↔ y ∈ places l ∨ (l = a ∧ y = x) := by
  by_cases h : l = a
  · subst h
    simp
  · simp [h]

/-- A move brings nothing but `x` to a place, and only to its target. -/
theorem mem_of_mem_move (hab : b ≠ a) (h : places a = x :: r) {y : τ} (hy : y ∈ move places a b l) :
    y ∈ places l ∨ (l = b ∧ y = x) := by
  by_cases hla : l = a
  · subst hla
    rw [move_source h] at hy
    exact Or.inl (h ▸ List.mem_cons_of_mem x hy)
  · by_cases hlb : l = b
    · subst hlb
      rw [move_target hab h, List.mem_append, List.mem_singleton] at hy
      exact hy.imp_right fun hyx => ⟨rfl, hyx⟩
    · rw [move_of_ne hla hlb] at hy
      exact Or.inl hy

/-- Where a token is after a move of `x`. -/
theorem mem_move (hab : b ≠ a) (h : places a = x :: r) (hx : x ∉ r) {y : τ} :
    y ∈ move places a b l ↔ (y ∈ places l ∧ ¬ (l = a ∧ y = x)) ∨ (l = b ∧ y = x) := by
  by_cases hla : l = a
  · subst hla
    rw [move_source h, h, List.mem_cons]
    constructor
    · intro hy
      exact Or.inl ⟨Or.inr hy, fun hyx => hx (hyx.2 ▸ hy)⟩
    · rintro (⟨hy | hy, hne⟩ | ⟨hb, -⟩)
      · exact absurd ⟨rfl, hy⟩ hne
      · exact hy
      · exact absurd hb.symm hab
  · by_cases hlb : l = b
    · subst hlb
      rw [move_target hab h, List.mem_append, List.mem_singleton]
      simp [hla]
    · rw [move_of_ne hla hlb]
      simp [hla, hlb]

end Places

section Exact

variable {places : Λ → List τ} {issued : τ → Prop} {a b : Λ} {x : τ}

/-- A token that was not issued before may be issued anywhere. -/
theorem Exact.issue (h : Exact places issued) (hx : ¬ issued x) (a : Λ) :
    Exact (issue places a x) fun y => issued y ∨ y = x := by
  have hnew : ∀ l, x ∉ places l := fun l hl => hx ((h.mem_iff x).mp ⟨l, hl⟩)
  refine ⟨fun l => ?_, fun l l' y hl hl' => ?_, fun y => ⟨?_, ?_⟩⟩
  · by_cases hla : l = a
    · subst hla
      rw [issue_self]
      exact List.nodup_append.mpr ⟨h.nodup l, List.nodup_singleton x, fun y hy z hz hyz =>
        hnew l (List.mem_singleton.mp hz ▸ hyz ▸ hy)⟩
    · rw [issue_of_ne hla]
      exact h.nodup l
  · rcases mem_issue.mp hl with hy | ⟨hla, hyx⟩
    · rcases mem_issue.mp hl' with hy' | ⟨-, hyx⟩
      · exact h.apart l l' y hy hy'
      · exact absurd (hyx ▸ hy) (hnew l)
    · rcases mem_issue.mp hl' with hy' | ⟨hla', -⟩
      · exact absurd (hyx ▸ hy') (hnew l')
      · rw [hla, hla']
  · rintro ⟨l, hl⟩
    rcases mem_issue.mp hl with hl | ⟨-, rfl⟩
    · exact Or.inl ((h.mem_iff y).mp ⟨l, hl⟩)
    · exact Or.inr rfl
  · rintro (hy | rfl)
    · obtain ⟨l, hl⟩ := (h.mem_iff y).mpr hy
      exact ⟨l, mem_issue.mpr (Or.inl hl)⟩
    · exact ⟨a, mem_issue.mpr (Or.inr ⟨rfl, rfl⟩)⟩

/-- A move keeps every token in one place. -/
theorem Exact.move {r : List τ} (h : Exact places issued) (hab : b ≠ a) (ha : places a = x :: r) :
    Exact (move places a b) issued := by
  have hxa : x ∈ places a := ha ▸ List.mem_cons_self
  have hr : r.Nodup ∧ x ∉ r := by
    have := h.nodup a
    rw [ha] at this
    exact ⟨(List.nodup_cons.mp this).2, (List.nodup_cons.mp this).1⟩
  refine ⟨fun l => ?_, fun l l' y hl hl' => ?_, fun y => ⟨?_, fun hy => ?_⟩⟩
  · by_cases hla : l = a
    · subst hla
      rw [move_source ha]
      exact hr.1
    · by_cases hlb : l = b
      · subst hlb
        rw [move_target hab ha]
        exact List.nodup_append.mpr ⟨h.nodup l, List.nodup_singleton x, fun y hy z hz hyz =>
          hab (h.apart l a x (List.mem_singleton.mp hz ▸ hyz ▸ hy) hxa)⟩
      · rw [move_of_ne hla hlb]
        exact h.nodup l
  · rcases (mem_move hab ha hr.2).mp hl with ⟨hy, hne⟩ | ⟨hlb, hyx⟩
    · rcases (mem_move hab ha hr.2).mp hl' with ⟨hy', -⟩ | ⟨-, hyx⟩
      · exact h.apart l l' y hy hy'
      · exact absurd ⟨h.apart l a y hy (hyx ▸ hxa), hyx⟩ hne
    · rcases (mem_move hab ha hr.2).mp hl' with ⟨hy', hne⟩ | ⟨hlb', -⟩
      · exact absurd ⟨h.apart l' a y hy' (hyx ▸ hxa), hyx⟩ hne
      · rw [hlb, hlb']
  · rintro ⟨l, hl⟩
    rcases (mem_move hab ha hr.2).mp hl with ⟨hl, -⟩ | ⟨-, rfl⟩
    · exact (h.mem_iff y).mp ⟨l, hl⟩
    · exact (h.mem_iff y).mp ⟨a, hxa⟩
  · obtain ⟨l, hl⟩ := (h.mem_iff y).mpr hy
    by_cases hmoved : l = a ∧ y = x
    · exact ⟨b, (mem_move hab ha hr.2).mpr (Or.inr ⟨rfl, hmoved.2⟩)⟩
    · exact ⟨l, (mem_move hab ha hr.2).mpr (Or.inl ⟨hl, hmoved⟩)⟩

end Exact

end Fssn.Lib
