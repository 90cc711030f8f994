import Fssn.Lib.Transition

/-!
# Fssn.Lib.Product — two systems side by side

In the product of two systems a joint action is an action of the one, of the other, or of both at
once, and may be allowed in some joint states only.  In a joint step each system makes a step of its own
or none (`product_step`), so what its steps keep alone they keep here.
-/

namespace Fssn.Lib

namespace System

variable {σ τ α β γ : Type*}

/-- The part a system has in a joint action. -/
def part (S : System σ α) (s : σ) : Option α → Option σ
  | none => some s
  | some a => S.step s a

/-- `S` and `T` side by side. -/
def product (S : System σ α) (T : System τ β) (allowed : σ → τ → γ → Bool) (left : γ → Option α)
    (right : γ → Option β) : System (σ × τ) γ where
  init := (S.init, T.init)
  step s c :=
    if allowed s.1 s.2 c then
      (S.part s.1 (left c)).bind fun x => (T.part s.2 (right c)).map fun y => (x, y)
    else none

variable {S : System σ α} {T : System τ β} {allowed : σ → τ → γ → Bool} {left : γ → Option α}
  {right : γ → Option β}

theorem product_step {s r : σ × τ} {c : γ}
    (h : (product S T allowed left right).step s c = some r) :
    allowed s.1 s.2 c = true ∧ S.part s.1 (left c) = some r.1 ∧
      T.part s.2 (right c) = some r.2 := by
  unfold product at h
  dsimp only at h
  split_ifs at h with hc
  obtain ⟨x, hx, h⟩ := Option.bind_eq_some_iff.mp h
  obtain ⟨y, hy, rfl⟩ := Option.map_eq_some_iff.mp h
  exact ⟨hc, hx, hy⟩

end System

end Fssn.Lib
