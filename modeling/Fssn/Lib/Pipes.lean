import Mathlib.Data.List.Infix
import Mathlib.Logic.Function.Basic
import Mathlib.Tactic.Common

/-!
# Fssn.Lib.Pipes — many senders, one reader

Each sender `i` has a pipe to the reader that keeps the order of what `i` pushes.  The reader pulls
from any pipe that is not empty, so what it pulls is a merge of the pipes.  `Fifo`: what it has
pulled of a sender, and then what waits in that sender's pipe, is what the sender has pushed.
-/

namespace Fssn.Lib

/-- What the senders have pushed, what of it waits in their pipes, and what was pulled, in order. -/
structure Pipes (ι τ : Type*) where
  pushed : ι → List τ
  waiting : ι → List τ
  pulled : List (ι × τ)

namespace Pipes

variable {ι τ υ : Type*} [DecidableEq ι]

def empty : Pipes ι τ := ⟨fun _ => [], fun _ => [], []⟩

def push (P : Pipes ι τ) (i : ι) (x : τ) : Pipes ι τ :=
  { P with
    pushed := Function.update P.pushed i (P.pushed i ++ [x])
    waiting := Function.update P.waiting i (P.waiting i ++ [x]) }

/-- The next entry of the pipe of `i`, `none` when it is empty. -/
def pull (P : Pipes ι τ) (i : ι) : Option (τ × Pipes ι τ) :=
  match P.waiting i with
  | [] => none
  | x :: r => some (x, { P with
      waiting := Function.update P.waiting i r
      pulled := P.pulled ++ [(i, x)] })

/-- The entries of a tagged list that came from `i`, in order. -/
def cameFrom (i : ι) (l : List (ι × τ)) : List τ := (l.filter fun x => x.1 = i).map Prod.snd

theorem cameFrom_append (i : ι) (l r : List (ι × τ)) :
    cameFrom i (l ++ r) = cameFrom i l ++ cameFrom i r := by
  rw [cameFrom, List.filter_append, List.map_append]
  rfl

theorem cameFrom_self (i : ι) (x : τ) : cameFrom i [(i, x)] = [x] := by simp [cameFrom]

theorem cameFrom_of_ne {i j : ι} (h : j ≠ i) (x : τ) : cameFrom i [(j, x)] = [] := by
  simp [cameFrom, h]

theorem cameFrom_map (i : ι) (f : τ → υ) (l : List (ι × τ)) :
    cameFrom i (l.map fun x => (x.1, f x.2)) = (cameFrom i l).map f := by
  simp only [cameFrom, List.filter_map, List.map_map]
  rfl

/-- Entries that are all tagged alike. -/
theorem cameFrom_tagged (i : ι) (l : List τ) : cameFrom i (l.map (Prod.mk i)) = l := by
  simp [cameFrom, List.filter_map, Function.comp_def]

theorem cameFrom_tagged_of_ne {i j : ι} (h : j ≠ i) (l : List τ) :
    cameFrom i (l.map (Prod.mk j)) = [] := by
  simp [cameFrom, List.filter_map, Function.comp_def, h]

theorem mem_cameFrom {i : ι} {x : τ} {l : List (ι × τ)} : x ∈ cameFrom i l ↔ (i, x) ∈ l := by
  rw [cameFrom, List.mem_map]
  constructor
  · rintro ⟨⟨j, y⟩, hy, rfl⟩
    obtain ⟨hmem, hj⟩ := List.mem_filter.mp hy
    exact of_decide_eq_true hj ▸ hmem
  · intro h
    exact ⟨(i, x), List.mem_filter.mpr ⟨h, decide_eq_true rfl⟩, rfl⟩

theorem cameFrom_sublist {l r : List (ι × τ)} (h : l.Sublist r) (i : ι) :
    (cameFrom i l).Sublist (cameFrom i r) := (h.filter _).map _

/-- Each pipe keeps what its sender pushed, in order. -/
def Fifo (P : Pipes ι τ) : Prop := ∀ i, cameFrom i P.pulled ++ P.waiting i = P.pushed i

variable {P Q : Pipes ι τ}

theorem Fifo.empty : (empty : Pipes ι τ).Fifo := fun _ => rfl

theorem Fifo.push (h : P.Fifo) (i : ι) (x : τ) : (P.push i x).Fifo := by
  intro j
  show cameFrom j P.pulled ++ Function.update P.waiting i _ j = Function.update P.pushed i _ j
  by_cases hj : j = i
  · subst hj
    rw [Function.update_self, Function.update_self, ← List.append_assoc, h j]
  · rw [Function.update_of_ne hj, Function.update_of_ne hj, h j]

theorem pull_some {i : ι} {x : τ} (h : P.pull i = some (x, Q)) :
    Q.pushed = P.pushed ∧ Q.pulled = P.pulled ++ [(i, x)] ∧ P.waiting i = x :: Q.waiting i ∧
      ∀ j, j ≠ i → Q.waiting j = P.waiting j := by
  unfold pull at h
  split at h
  · exact absurd h (by simp)
  · rename_i y r hw
    obtain ⟨rfl, rfl⟩ := Prod.mk.inj (Option.some.inj h)
    refine ⟨rfl, rfl, ?_, fun j hj => Function.update_of_ne hj _ _⟩
    dsimp only
    rw [Function.update_self, hw]

theorem Fifo.pull {i : ι} {x : τ} (h : P.Fifo) (hp : P.pull i = some (x, Q)) : Q.Fifo := by
  obtain ⟨hpushed, hpulled, hself, hother⟩ := pull_some hp
  intro j
  rw [hpushed, hpulled, cameFrom_append]
  by_cases hj : j = i
  · subst hj
    rw [cameFrom_self, List.append_assoc, List.singleton_append, ← hself, h j]
  · rw [cameFrom_of_ne (Ne.symm hj), List.append_nil, hother j hj, h j]

def pushAll (P : Pipes ι τ) (i : ι) (xs : List τ) : Pipes ι τ := xs.foldl (fun P x => P.push i x) P

theorem Fifo.pushAll (h : P.Fifo) (i : ι) (xs : List τ) : (P.pushAll i xs).Fifo := by
  induction xs generalizing P with
  | nil => exact h
  | cons x xs ih => exact ih (h.push i x)

theorem pushAll_pulled (P : Pipes ι τ) (i : ι) (xs : List τ) :
    (P.pushAll i xs).pulled = P.pulled := by
  induction xs generalizing P with
  | nil => rfl
  | cons x xs ih => exact ih (P.push i x)

theorem pushAll_pushed_self (P : Pipes ι τ) (i : ι) (xs : List τ) :
    (P.pushAll i xs).pushed i = P.pushed i ++ xs := by
  induction xs generalizing P with
  | nil => exact (List.append_nil _).symm
  | cons x xs ih =>
    have hone : (P.push i x).pushed i = P.pushed i ++ [x] := Function.update_self _ _ _
    refine (ih (P.push i x)).trans ?_
    rw [hone, List.append_assoc]
    rfl

theorem pushAll_pushed_of_ne (P : Pipes ι τ) {i j : ι} (h : j ≠ i) (xs : List τ) :
    (P.pushAll i xs).pushed j = P.pushed j := by
  induction xs generalizing P with
  | nil => rfl
  | cons x xs ih => exact (ih (P.push i x)).trans (Function.update_of_ne h _ _)

/-- What was pulled of a sender is a prefix of what it pushed. -/
theorem Fifo.cameFrom_pulled (h : P.Fifo) (i : ι) : cameFrom i P.pulled <+: P.pushed i :=
  ⟨_, h i⟩

end Pipes

end Fssn.Lib
