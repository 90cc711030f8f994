import Fssn.Lib.Transition

/-!
# Fssn.Lib.Duplex — two sequential processes and the two pipes between them

A process is given by what it does `Next` in each of its states: a local step, sending a message,
waiting for one, or nothing.  In a `network` each process writes to the pipe the other one reads, and
their steps interleave.  A process reads only its own state and the front of its pipe, so the steps
of the two do not disturb each other (`network_diamond`) and one schedule that runs to an end says
what every schedule does (`completes`).
-/

namespace Fssn.Lib

/-- What a process does next. -/
inductive Next (σ τ : Type*)
  | local (s : σ)
  | send (x : τ) (s : σ)
  | recv (k : τ → σ)
  | none

namespace Next

variable {σ τ : Type*}

/-- The next step of a process whose pipe holds `inbox`: its new state, what is left in the pipe and
what it sends. -/
def advance : Next σ τ → List τ → Option (σ × List τ × List τ)
  | .local s, inbox => some (s, inbox, [])
  | .send x s, inbox => some (s, inbox, [x])
  | .recv k, x :: inbox => some (k x, inbox, [])
  | .recv _, [] => Option.none
  | .none, _ => Option.none

/-- A step that is possible stays so, and stays the same, when more arrives. -/
theorem advance_append {n : Next σ τ} {inbox rest out : List τ} {s : σ}
    (h : n.advance inbox = some (s, rest, out)) (xs : List τ) :
    n.advance (inbox ++ xs) = some (s, rest ++ xs, out) := by
  cases n with
  | «local» s' =>
    cases h
    rfl
  | send x s' =>
    cases h
    rfl
  | recv k =>
    cases inbox with
    | nil => exact absurd h (by simp [advance])
    | cons x inbox =>
      cases h
      rfl
  | none => exact absurd h (by simp [advance])

end Next

/-- Which of the two processes takes a step. -/
inductive Side
  | left
  | right
deriving DecidableEq

/-- Two processes, and what is on the way to each of them. -/
structure Duplex (σ ρ τ : Type*) where
  left : σ
  right : ρ
  toLeft : List τ
  toRight : List τ

namespace Duplex

variable {σ ρ τ : Type*} (p : σ → Next σ τ) (q : ρ → Next ρ τ)

def step (s : Duplex σ ρ τ) : Side → Option (Duplex σ ρ τ)
  | .left => ((p s.left).advance s.toLeft).map fun r =>
      { s with left := r.1, toLeft := r.2.1, toRight := s.toRight ++ r.2.2 }
  | .right => ((q s.right).advance s.toRight).map fun r =>
      { s with right := r.1, toRight := r.2.1, toLeft := s.toLeft ++ r.2.2 }

/-- The processes `p` and `q`, started in the states `l` and `r` with empty pipes. -/
def network (l : σ) (r : ρ) : System (Duplex σ ρ τ) Side where
  init := ⟨l, r, [], []⟩
  step := step p q

variable {p q} {l : σ} {r : ρ}

theorem step_comm {s t u : Duplex σ ρ τ} (ht : step p q s .left = some t)
    (hu : step p q s .right = some u) :
    ∃ v, step p q t .right = some v ∧ step p q u .left = some v := by
  obtain ⟨⟨l', inl, outl⟩, hl, rfl⟩ := Option.map_eq_some_iff.mp ht
  obtain ⟨⟨r', inr, outr⟩, hr, rfl⟩ := Option.map_eq_some_iff.mp hu
  refine ⟨⟨l', r', inl ++ outr, inr ++ outl⟩, ?_, ?_⟩
  · dsimp only [step]
    rw [Next.advance_append hr outl]
    rfl
  · dsimp only [step]
    rw [Next.advance_append hl outr]
    rfl

theorem network_diamond : (network p q l r).Diamond := by
  intro s a b t u hab ht hu
  cases a with
  | left =>
    cases b with
    | left => exact absurd rfl hab
    | right => exact step_comm ht hu
  | right =>
    cases b with
    | left => exact (step_comm hu ht).imp fun v hv => ⟨hv.2, hv.1⟩
    | right => exact absurd rfl hab

/-- Neither process can take a step. -/
theorem stuck_of_none {s : Duplex σ ρ τ} (hl : p s.left = .none) (hr : q s.right = .none) :
    (network p q l r).Stuck s := by
  intro a
  cases a with
  | left =>
    show ((p s.left).advance s.toLeft).map _ = none
    rw [hl]
    rfl
  | right =>
    show ((q s.right).advance s.toRight).map _ = none
    rw [hr]
    rfl

/-- **One schedule speaks for all**: when one run ends where both processes do nothing more, there is
a bound on the length of all runs, every run can be carried on to an end, and all ends are that. -/
theorem completes {Q : Duplex σ ρ τ → Prop}
    (h : (network p q l r).Reaches (network p q l r).init fun t =>
      (p t.left = .none ∧ q t.right = .none) ∧ Q t) :
    ∃ n, ∀ as s, (network p q l r).exec (network p q l r).init as = some s →
      as.length ≤ n ∧ (network p q l r).Reaches s (network p q l r).Stuck ∧
        ((network p q l r).Stuck s → Q s) := by
  obtain ⟨bs, t, ht, ⟨hl, hr⟩, hQ⟩ := h
  have hstuck : (network p q l r).Stuck t := stuck_of_none hl hr
  refine ⟨bs.length, fun as s hs => ?_⟩
  obtain ⟨cs, hcs, hlen⟩ := network_diamond.completes ht hstuck hs
  refine ⟨by omega, ⟨cs, t, hcs, hstuck⟩, fun hs' => ?_⟩
  rw [network_diamond.stuck_eq ht hstuck hs hs']
  exact hQ

end Duplex

end Fssn.Lib
