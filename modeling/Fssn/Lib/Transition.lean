import Mathlib.Data.List.Induction
import Mathlib.Data.List.Infix
import Mathlib.Tactic.Common

/-!
# Fssn.Lib.Transition — runs of labelled transition systems

A `System` has one initial state and a step function that is partial: `step s a = none` says that
the action `a` is not enabled in `s`.  `exec` runs a list of actions.

* `exec_induction`: the invariant rule for facts that also mention the actions taken so far.
* `Always`: a fact that holds in every state a given run passes through; `always_of_step` is the
  invariant rule for facts about the state alone.
* `Along`: the same for a fact that also mentions the actions taken so far.
* `outputs`: what the steps of a run put out, in order.
* `Diamond.completes`: when no two actions disturb each other, one run that ends speaks for all.
* `After`: the order of two actions in a run.
-/

namespace Fssn.Lib

/-- A labelled transition system with a deterministic, partial step per action. -/
structure System (σ α : Type*) where
  init : σ
  step : σ → α → Option σ

namespace System

variable {σ α : Type*} (T : System σ α)

/-- The state after a list of actions, `none` when one of them is not enabled. -/
def exec : σ → List α → Option σ
  | s, [] => some s
  | s, a :: as => (T.step s a).bind fun t => exec t as

@[simp] theorem exec_nil (s : σ) : T.exec s [] = some s := rfl

theorem exec_cons (s : σ) (a : α) (as : List α) :
    T.exec s (a :: as) = (T.step s a).bind fun t => T.exec t as := rfl

theorem exec_append (s : σ) (as bs : List α) :
    T.exec s (as ++ bs) = (T.exec s as).bind fun t => T.exec t bs := by
  induction as generalizing s with
  | nil => rfl
  | cons a as ih =>
    rw [List.cons_append, exec_cons, exec_cons, Option.bind_assoc]
    congr 1
    funext t
    exact ih t

theorem exec_concat (s : σ) (as : List α) (a : α) :
    T.exec s (as ++ [a]) = (T.exec s as).bind fun t => T.step t a := by
  rw [exec_append]
  congr 1
  funext t
  rw [exec_cons]
  cases T.step t a <;> rfl

variable {T}

theorem exec_one {s t : σ} {a : α} (h : T.step s a = some t) : T.exec s [a] = some t := by
  rw [exec_cons, h]
  rfl

/-- The last step of a run. -/
theorem exec_concat_some {s t : σ} {as : List α} {a : α} (h : T.exec s (as ++ [a]) = some t) :
    ∃ r, T.exec s as = some r ∧ T.step r a = some t := by
  rw [exec_concat] at h
  exact Option.bind_eq_some_iff.mp h

/-- **Invariant rule with history.**  `P as s` may mention the actions that led to `s`. -/
theorem exec_induction {P : List α → σ → Prop} (hinit : P [] T.init)
    (hstep : ∀ as s a t, T.exec T.init as = some s → P as s → T.step s a = some t → P (as ++ [a]) t)
    {as : List α} {s : σ} (h : T.exec T.init as = some s) : P as s := by
  induction as using List.reverseRecOn generalizing s with
  | nil =>
    rw [exec_nil] at h
    exact Option.some.inj h ▸ hinit
  | append_singleton as a ih =>
    obtain ⟨r, hr, hs⟩ := exec_concat_some h
    exact hstep as r a s hr (ih hr) hs

/-- `P` holds in every state that the run `as` passes through, the first and the last included. -/
def Always (T : System σ α) (P : σ → Prop) (as : List α) : Prop :=
  ∀ pre, pre <+: as → ∀ s, T.exec T.init pre = some s → P s

theorem Always.last {P : σ → Prop} {as : List α} {s : σ} (h : T.Always P as)
    (hs : T.exec T.init as = some s) : P s :=
  h as (List.prefix_refl as) s hs

theorem Always.imp {P Q : σ → Prop} {as : List α} (h : T.Always P as) (hPQ : ∀ s, P s → Q s) :
    T.Always Q as :=
  fun pre hpre s hs => hPQ s (h pre hpre s hs)

/-- **Invariant rule**: what holds at first and is kept by every step holds always. -/
theorem always_of_step {I : σ → Prop} (hinit : I T.init)
    (hstep : ∀ s a t, I s → T.step s a = some t → I t) (as : List α) : T.Always I as := by
  intro pre _ s hs
  exact exec_induction (P := fun _ => I) hinit (fun _ s a t _ => hstep s a t) hs

/-- `P` holds of every state that the run `as` passes through, with the actions taken so far. -/
def Along (T : System σ α) (P : List α → σ → Prop) (as : List α) : Prop :=
  ∀ pre, pre <+: as → ∀ s, T.exec T.init pre = some s → P pre s

/-- What every step keeps, every run keeps. -/
theorem exec_preserves {I : σ → Prop} (hstep : ∀ s a t, I s → T.step s a = some t → I t)
    {s t : σ} {as : List α} (hs : I s) (h : T.exec s as = some t) : I t := by
  induction as generalizing s with
  | nil => exact Option.some.inj h ▸ hs
  | cons a as ih =>
    obtain ⟨r, hr, h⟩ := Option.bind_eq_some_iff.mp h
    exact ih (hstep s a r hs hr) h

/-- What the actions `own` preserve, a run of them preserves. -/
theorem exec_preserves_of {own : α → Prop} {I : σ → Prop}
    (hstep : ∀ s a t, I s → own a → T.step s a = some t → I t) {s t : σ} {as : List α} (hs : I s)
    (has : ∀ a ∈ as, own a) (h : T.exec s as = some t) : I t := by
  induction as generalizing s with
  | nil => exact Option.some.inj h ▸ hs
  | cons a as ih =>
    obtain ⟨r, hr, h⟩ := Option.bind_eq_some_iff.mp h
    exact ih (hstep s a r hs (has a List.mem_cons_self) hr)
      (fun b hb => has b (List.mem_cons_of_mem a hb)) h

/-- What the steps of a run put out, `out s a` being the output of the step `a` from `s`. -/
def outputs {β : Type*} (T : System σ α) (out : σ → α → List β) : σ → List α → List β
  | _, [] => []
  | s, a :: as =>
    match T.step s a with
    | none => []
    | some t => out s a ++ outputs T out t as

theorem outputs_concat {β : Type*} {out : σ → α → List β} {s r t : σ} {as : List α} {a : α}
    (hr : T.exec s as = some r) (ht : T.step r a = some t) :
    T.outputs out s (as ++ [a]) = T.outputs out s as ++ out r a := by
  induction as generalizing s with
  | nil =>
    obtain rfl := Option.some.inj hr
    simp only [List.nil_append, outputs, ht, List.append_nil]
  | cons b as ih =>
    obtain ⟨u, hu, hr⟩ := Option.bind_eq_some_iff.mp hr
    rw [List.cons_append, outputs, outputs, hu]
    dsimp only
    rw [ih hr, List.append_assoc]

/-- **Conservation rule**: what is held and what the steps take in, in order, is what they put out and
what is held then. -/
theorem outputs_conserved {β : Type*} {I : σ → Prop} {held : σ → List β} {ins outs : σ → α → List β}
    (hkeep : ∀ s a t, I s → T.step s a = some t → I t)
    (hstep : ∀ s a t, I s → T.step s a = some t → held s ++ ins s a = outs s a ++ held t)
    {s t : σ} {as : List α} (hs : I s) (h : T.exec s as = some t) :
    held s ++ T.outputs ins s as = T.outputs outs s as ++ held t := by
  induction as generalizing s with
  | nil =>
    obtain rfl := Option.some.inj h
    simp only [outputs, List.append_nil, List.nil_append]
  | cons a as ih =>
    obtain ⟨r, hr, h⟩ := Option.bind_eq_some_iff.mp h
    have hrest := ih (hkeep s a r hs hr) h
    simp only [outputs, hr]
    rw [← List.append_assoc, hstep s a r hs hr, List.append_assoc, hrest, List.append_assoc]

/-- No action is enabled. -/
def Stuck (T : System σ α) (s : σ) : Prop := ∀ a, T.step s a = none

/-- From `s` some run leads to a state with `Q`. -/
def Reaches (T : System σ α) (s : σ) (Q : σ → Prop) : Prop := ∃ as t, T.exec s as = some t ∧ Q t

theorem Reaches.of_exec {Q : σ → Prop} {s t : σ} {as : List α} (hs : T.exec s as = some t)
    (ht : T.Reaches t Q) : T.Reaches s Q := by
  obtain ⟨bs, u, hu, hQ⟩ := ht
  refine ⟨as ++ bs, u, ?_, hQ⟩
  rw [exec_append, hs]
  exact hu

theorem Reaches.of_self {Q : σ → Prop} {s : σ} (h : Q s) : T.Reaches s Q := ⟨[], s, rfl, h⟩

theorem Reaches.of_step {Q : σ → Prop} {s t : σ} {a : α} (hs : T.step s a = some t)
    (ht : T.Reaches t Q) : T.Reaches s Q :=
  Reaches.of_exec (exec_one hs) ht

/-- From where one run leads another one goes on. -/
theorem Reaches.trans {P Q : σ → Prop} {s : σ} (h : T.Reaches s P)
    (hPQ : ∀ t, P t → T.Reaches t Q) : T.Reaches s Q := by
  obtain ⟨as, t, ht, hP⟩ := h
  exact Reaches.of_exec ht (hPQ t hP)

theorem Reaches.mono {P Q : σ → Prop} {s : σ} (h : T.Reaches s P) (hPQ : ∀ t, P t → Q t) :
    T.Reaches s Q := by
  obtain ⟨as, t, ht, hP⟩ := h
  exact ⟨as, t, ht, hPQ t hP⟩

/-- Two enabled actions do not disturb each other. -/
def Diamond (T : System σ α) : Prop :=
  ∀ s a b t u, a ≠ b → T.step s a = some t → T.step s b = some u →
    ∃ r, T.step t b = some r ∧ T.step u a = some r

/-- **Determinacy rule**: when no two actions disturb each other and one run ends where no action is
enabled, then every run can be carried on to that end, and all of them take the same number of
steps. -/
theorem Diamond.completes (hT : T.Diamond) {s t u : σ} {as bs : List α}
    (ht : T.exec s as = some t) (hstuck : T.Stuck t) (hu : T.exec s bs = some u) :
    ∃ cs, T.exec u cs = some t ∧ bs.length + cs.length = as.length := by
  induction hn : as.length generalizing s as bs u with
  | zero =>
    obtain rfl := List.length_eq_zero_iff.mp hn
    obtain rfl := Option.some.inj ht
    cases bs with
    | nil => exact ⟨[], Option.some.inj hu ▸ rfl, rfl⟩
    | cons b bs =>
      obtain ⟨r, hr, -⟩ := Option.bind_eq_some_iff.mp hu
      exact absurd hr (by simp [hstuck b])
  | succ n ih =>
    cases bs with
    | nil => exact ⟨as, Option.some.inj hu ▸ ht, by simp [hn]⟩
    | cons b bs =>
      obtain ⟨a, as, rfl⟩ := List.exists_cons_of_length_eq_add_one hn
      have hlen : as.length = n := by simpa using hn
      obtain ⟨p, hp, ht⟩ := Option.bind_eq_some_iff.mp ht
      obtain ⟨q, hq, hu⟩ := Option.bind_eq_some_iff.mp hu
      -- a run of `n` steps from where the other run stands after its first step
      suffices hrun : ∃ cs, T.exec q cs = some t ∧ cs.length = n by
        obtain ⟨cs, hcs, hcslen⟩ := hrun
        obtain ⟨ds, hds, hdslen⟩ := ih hcs hu hcslen
        exact ⟨ds, hds, by rw [List.length_cons]; omega⟩
      by_cases hab : a = b
      · subst hab
        obtain rfl := Option.some.inj (hp.symm.trans hq)
        exact ⟨as, ht, hlen⟩
      · obtain ⟨r, hr, hqr⟩ := hT s a b p q hab hp hq
        have hstep : T.exec p [b] = some r := by rw [exec_cons, hr]; rfl
        obtain ⟨cs, hcs, hcslen⟩ := ih ht hstep hlen
        refine ⟨a :: cs, ?_, ?_⟩
        · rw [exec_cons, hqr]
          exact hcs
        · rw [List.length_singleton] at hcslen
          rw [List.length_cons]
          omega

/-- With `Diamond`, a run that ends where no action is enabled ends where every such run does. -/
theorem Diamond.stuck_eq (hT : T.Diamond) {s t u : σ} {as bs : List α}
    (ht : T.exec s as = some t) (hstuck : T.Stuck t) (hu : T.exec s bs = some u)
    (hu' : T.Stuck u) : u = t := by
  obtain ⟨cs, hcs, -⟩ := hT.completes ht hstuck hu
  cases cs with
  | nil => exact Option.some.inj hcs
  | cons c cs =>
    obtain ⟨r, hr, -⟩ := Option.bind_eq_some_iff.mp hcs
    exact absurd hr (by simp [hu' c])

end System

/-- In the list of actions, some `y` comes after some `x`. -/
def After {α : Type*} (as : List α) (x y : α) : Prop := ∃ p q, as = p ++ x :: q ∧ y ∈ q

theorem after_concat {α : Type*} {as : List α} {a x y : α} :
    After (as ++ [a]) x y ↔ After as x y ∨ (x ∈ as ∧ a = y) := by
  constructor
  · rintro ⟨p, q, h, hy⟩
    rcases List.eq_nil_or_concat q with rfl | ⟨q, b, rfl⟩
    · exact absurd hy List.not_mem_nil
    · rw [List.concat_eq_append, ← List.cons_append, ← List.append_assoc] at h
      obtain ⟨rfl, hab⟩ := List.append_inj' h rfl
      obtain rfl := List.singleton_inj.mp hab
      rcases List.mem_append.mp (List.concat_eq_append ▸ hy) with hy | hy
      · exact Or.inl ⟨p, q, rfl, hy⟩
      · exact Or.inr ⟨by simp, (List.mem_singleton.mp hy).symm⟩
  · rintro (⟨p, q, rfl, hy⟩ | ⟨hx, rfl⟩)
    · exact ⟨p, q ++ [a], by simp, List.mem_append_left _ hy⟩
    · obtain ⟨p, q, rfl⟩ := List.append_of_mem hx
      exact ⟨p, q ++ [a], by simp, by simp⟩

end Fssn.Lib
