import Mathlib.Data.List.Basic
import Mathlib.Logic.Function.Basic
import Mathlib.Tactic.Common

/-!
# Fssn.Lib.ReqRep — requesters and one replier

A replier accepts one request at a time, of whichever requester, and its reply goes back to where the
request came from.  `outstanding` counts what a requester has asked and not received yet, wherever it
is: it grows with a request, falls when the reply is received, and nothing else changes it.
-/

namespace Fssn.Lib

/-- The requests on their way, the requester of the one that was accepted, and the replies on their
way. -/
structure ReqRep (ι τ : Type*) where
  requests : ι → List τ
  requester : Option ι
  replies : ι → List τ

namespace ReqRep

variable {ι τ : Type*} [DecidableEq ι]

def empty : ReqRep ι τ := ⟨fun _ => [], none, fun _ => []⟩

def request (R : ReqRep ι τ) (c : ι) (x : τ) : ReqRep ι τ :=
  { R with requests := Function.update R.requests c (R.requests c ++ [x]) }

/-- The replier takes the next request of `c`, unless it owes a reply. -/
def accept (R : ReqRep ι τ) (c : ι) : Option (τ × ReqRep ι τ) :=
  match R.requester, R.requests c with
  | none, x :: r => some (x, ⟨Function.update R.requests c r, some c, R.replies⟩)
  | _, _ => none

/-- The reply goes to the requester. -/
def reply (R : ReqRep ι τ) (y : τ) : Option (ReqRep ι τ) :=
  R.requester.map fun c => ⟨R.requests, none, Function.update R.replies c (R.replies c ++ [y])⟩

def receive (R : ReqRep ι τ) (c : ι) : Option (τ × ReqRep ι τ) :=
  match R.replies c with
  | [] => none
  | y :: r => some (y, { R with replies := Function.update R.replies c r })

/-- What `c` has asked and not received. -/
def outstanding (R : ReqRep ι τ) (c : ι) : ℕ :=
  (R.requests c).length + (if R.requester = some c then 1 else 0) + (R.replies c).length

/-- All requests on their way are `P`, all replies `Q`. -/
structure Carries (P Q : τ → Prop) (R : ReqRep ι τ) : Prop where
  requests : ∀ c, ∀ x ∈ R.requests c, P x
  replies : ∀ c, ∀ y ∈ R.replies c, Q y

variable {R S : ReqRep ι τ} {c d : ι} {x y : τ} {P Q : τ → Prop}

/-! ### Spec lemmas -/

theorem accept_some (h : R.accept c = some (x, S)) :
    R.requester = none ∧ S.requester = some c ∧ R.requests c = x :: S.requests c ∧
      (∀ k, k ≠ c → S.requests k = R.requests k) ∧ S.replies = R.replies := by
  unfold accept at h
  split at h
  · rename_i z r hreq hc
    obtain ⟨rfl, rfl⟩ := Prod.mk.inj (Option.some.inj h)
    refine ⟨hreq, rfl, ?_, fun k hk => Function.update_of_ne hk _ _, rfl⟩
    dsimp only
    rw [Function.update_self, hc]
  · exact absurd h (by simp)

theorem reply_some (h : R.reply y = some S) :
    ∃ c, R.requester = some c ∧ S.requester = none ∧ S.requests = R.requests ∧
      S.replies c = R.replies c ++ [y] ∧ ∀ k, k ≠ c → S.replies k = R.replies k := by
  obtain ⟨c, hc, rfl⟩ := Option.map_eq_some_iff.mp h
  exact ⟨c, hc, rfl, rfl, Function.update_self _ _ _, fun k hk => Function.update_of_ne hk _ _⟩

theorem receive_some (h : R.receive c = some (y, S)) :
    S.requests = R.requests ∧ S.requester = R.requester ∧ R.replies c = y :: S.replies c ∧
      ∀ k, k ≠ c → S.replies k = R.replies k := by
  unfold receive at h
  split at h
  · exact absurd h (by simp)
  · rename_i z r hc
    obtain ⟨rfl, rfl⟩ := Prod.mk.inj (Option.some.inj h)
    refine ⟨rfl, rfl, ?_, fun k hk => Function.update_of_ne hk _ _⟩
    dsimp only
    rw [Function.update_self, hc]

/-! ### What is outstanding -/

theorem outstanding_request (R : ReqRep ι τ) (c : ι) (x : τ) (k : ι) :
    (R.request c x).outstanding k = R.outstanding k + if k = c then 1 else 0 := by
  unfold outstanding request
  by_cases hk : k = c
  · subst hk
    dsimp only
    rw [Function.update_self, List.length_append, List.length_singleton, if_pos rfl]
    omega
  · dsimp only
    rw [Function.update_of_ne hk, if_neg hk]
    omega

theorem outstanding_accept (h : R.accept c = some (x, S)) (k : ι) :
    S.outstanding k = R.outstanding k := by
  obtain ⟨hfree, hbusy, hc, hother, hreplies⟩ := accept_some h
  unfold outstanding
  rw [hfree, hbusy, hreplies]
  by_cases hk : k = c
  · subst hk
    rw [hc, if_pos rfl, if_neg (by simp), List.length_cons]
  · rw [hother k hk, if_neg fun heq => hk (Option.some.inj heq).symm, if_neg (by simp)]

theorem outstanding_reply (h : R.reply y = some S) (k : ι) : S.outstanding k = R.outstanding k := by
  obtain ⟨c, hbusy, hfree, hreq, hc, hother⟩ := reply_some h
  unfold outstanding
  rw [hbusy, hfree, hreq]
  by_cases hk : k = c
  · subst hk
    rw [hc, if_pos rfl, if_neg (by simp), List.length_append, List.length_singleton]
    omega
  · rw [hother k hk, if_neg fun heq => hk (Option.some.inj heq).symm, if_neg (by simp)]

theorem outstanding_receive (h : R.receive c = some (y, S)) (k : ι) :
    R.outstanding k = S.outstanding k + if k = c then 1 else 0 := by
  obtain ⟨hreq, hrequester, hc, hother⟩ := receive_some h
  unfold outstanding
  rw [hreq, hrequester]
  by_cases hk : k = c
  · subst hk
    rw [hc, if_pos rfl, List.length_cons]
    omega
  · rw [hother k hk, if_neg hk]
    omega

/-- Something that is outstanding is a request on its way, the one accepted, or a reply. -/
theorem exists_of_outstanding (h : 0 < R.outstanding c) :
    (∃ x r, R.requests c = x :: r) ∨ R.requester = some c ∨ ∃ y r, R.replies c = y :: r := by
  by_cases hreq : R.requests c = []
  · by_cases hrep : R.replies c = []
    · right
      left
      by_contra hne
      simp [outstanding, hreq, hrep, hne] at h
    · exact Or.inr (Or.inr (List.exists_cons_of_ne_nil hrep))
  · exact Or.inl (List.exists_cons_of_ne_nil hreq)

/-! ### What is carried -/

omit [DecidableEq ι] in
theorem Carries.empty : (empty : ReqRep ι τ).Carries P Q :=
  ⟨fun _ _ hx => absurd hx List.not_mem_nil, fun _ _ hy => absurd hy List.not_mem_nil⟩

theorem Carries.request (h : R.Carries P Q) (hx : P x) (c : ι) : (R.request c x).Carries P Q := by
  refine ⟨fun k z hz => ?_, h.replies⟩
  unfold ReqRep.request at hz
  dsimp only at hz
  by_cases hk : k = c
  · subst hk
    rw [Function.update_self] at hz
    rcases List.mem_append.mp hz with hz | hz
    · exact h.requests k z hz
    · exact List.mem_singleton.mp hz ▸ hx
  · rw [Function.update_of_ne hk] at hz
    exact h.requests k z hz

theorem Carries.accept (h : R.Carries P Q) (ha : R.accept c = some (x, S)) :
    P x ∧ S.Carries P Q := by
  obtain ⟨-, -, hc, hother, hreplies⟩ := accept_some ha
  refine ⟨h.requests c x (hc ▸ List.mem_cons_self), fun k z hz => ?_, fun k z hz => ?_⟩
  · by_cases hk : k = c
    · subst hk
      exact h.requests k z (hc ▸ List.mem_cons_of_mem x hz)
    · exact h.requests k z (hother k hk ▸ hz)
  · exact h.replies k z (hreplies ▸ hz)

theorem Carries.reply (h : R.Carries P Q) (hy : Q y) (hr : R.reply y = some S) : S.Carries P Q := by
  obtain ⟨c, -, -, hreq, hc, hother⟩ := reply_some hr
  refine ⟨fun k z hz => h.requests k z (hreq ▸ hz), fun k z hz => ?_⟩
  by_cases hk : k = c
  · subst hk
    rw [hc] at hz
    rcases List.mem_append.mp hz with hz | hz
    · exact h.replies k z hz
    · exact List.mem_singleton.mp hz ▸ hy
  · exact h.replies k z (hother k hk ▸ hz)

theorem Carries.receive (h : R.Carries P Q) (hr : R.receive c = some (y, S)) :
    Q y ∧ S.Carries P Q := by
  obtain ⟨hreq, -, hc, hother⟩ := receive_some hr
  refine ⟨h.replies c y (hc ▸ List.mem_cons_self), fun k z hz => h.requests k z (hreq ▸ hz),
    fun k z hz => ?_⟩
  by_cases hk : k = c
  · subst hk
    exact h.replies k z (hc ▸ List.mem_cons_of_mem y hz)
  · exact h.replies k z (hother k hk ▸ hz)

end ReqRep

end Fssn.Lib
