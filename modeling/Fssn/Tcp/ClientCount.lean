import Fssn.Tcp.Roster

/-!
# Fssn.Tcp.ClientCount — threadNum of the TCP chat server

`main` adds one to `threadNum` before it starts a handler, each handler takes one off when it
processes a `quit`, and `QuitHandler` exits the process when it reads 0.  `client_count`: in every
reachable state `threadNum` is the difference, it is not negative, and a process that has exited has
no handler that has not processed a `quit`.
-/

namespace Fssn.Tcp.ChatServer

open Fssn.Lib

/-- How often `main` has executed `threadNum++` in a run. -/
def increments (as : List Action) : ℕ :=
  as.countP fun a => match a with
    | .count => true
    | _ => false

theorem increments_concat (as : List Action) (a : Action) : increments (as ++ [a]) =
    increments as + match a with
      | .count => 1
      | _ => 0 := by
  rw [increments, List.countP_append, ← increments]
  cases a <;> rfl

variable {s t : State} {a : Action} {as : List Action}

/-- Every increment belongs to a handler that has been started, or to the one about to be. -/
theorem increments_eq (h : server.exec server.init as = some s) :
    increments as = s.handlers.length + s.main.counted := by
  refine System.exec_induction (T := server)
    (P := fun as s => increments as = s.handlers.length + s.main.counted) rfl ?_ h
  intro as s a t _ ih hs
  rw [increments_concat, ih]
  cases step_move hs with
  | accept csock sin_port out hmain => rw [hmain]; rfl
  | acceptFailed => rfl
  | count csock hmain => rw [hmain]; rfl
  | create csock buffer hmain =>
    rw [hmain, List.length_append]
    rfl
  | recv k r h =>
    rw [List.length_set]
    rfl
  | run k h h' =>
    rw [List.length_set]
    rfl
  | console => rfl

/-- Only a console line exits the process, and only while `threadNum` is 0. -/
theorem exited_step (hs : server.step s a = some t) (hex : t.exited = true) :
    s.globals.threadNum = 0 ∧ t.globals.threadNum = 0 ∧ t.handlers = s.handlers := by
  have hrun : s.exited = false := by
    change step s a = some t at hs
    unfold step at hs
    by_contra hno
    rw [if_pos (Bool.not_eq_false _ ▸ hno)] at hs
    exact absurd hs (by simp)
  have hsame : t.exited = s.exited → False := fun heq => by
    rw [heq, hrun] at hex
    exact absurd hex (by simp)
  cases a with
  | console input =>
    change step s (.console input) = some t at hs
    unfold step at hs
    rw [if_neg (by simp [hrun])] at hs
    dsimp only at hs
    split_ifs at hs with hquit hzero
    · exact absurd (Option.some.inj hs ▸ rfl) hsame
    · obtain rfl := Option.some.inj hs
      rw [not_ne_iff] at hzero
      exact ⟨hzero, hzero, rfl⟩
    · exact absurd (Option.some.inj hs ▸ rfl) hsame
  | accept => cases step_move hs with | accept => exact absurd rfl hsame
  | acceptFailed => cases step_move hs with | acceptFailed => exact absurd rfl hsame
  | count => cases step_move hs with | count => exact absurd rfl hsame
  | create => cases step_move hs with | create => exact absurd rfl hsame
  | recv => cases step_move hs with | recv => exact absurd rfl hsame
  | run => cases step_move hs with | run => exact absurd rfl hsame

theorem threadNum_of_exited (h : server.exec server.init as = some s) (hex : s.exited = true) :
    s.globals.threadNum = 0 := by
  refine System.exec_induction (T := server)
    (P := fun _ s => s.exited = true → s.globals.threadNum = 0) (fun _ => rfl) ?_ h hex
  intro as s a t _ _ hs hex
  exact (exited_step hs hex).2.1

/-- When `threadNum` is 0, every handler that was started has quit. -/
theorem Inv.forall_quit (hi : Inv s) (h0 : s.globals.threadNum = 0) :
    ∀ h ∈ s.handlers, h.isExit = true := by
  have hcount := hi.count
  have hle : quitters s.handlers ≤ s.handlers.length := List.countP_le_length
  have heq : quitters s.handlers = s.handlers.length := by omega
  exact List.countP_eq_length.mp heq

/-- What `threadNum` says after the actions `as`. -/
structure CountRight (as : List Action) (s : State) : Prop where
  difference : s.globals.threadNum = increments as - quitters s.handlers
  nonneg : 0 ≤ s.globals.threadNum
  exit : s.exited = true → ∀ h ∈ s.handlers, h.isExit = true

/-- **The client count** is right in every state of every run. -/
theorem client_count (as : List Action) : server.Along CountRight as := by
  intro p _ s hs
  have hi := inv_of_exec hs
  have hcount := hi.count
  have hinc := increments_eq hs
  have hle : quitters s.handlers ≤ s.handlers.length := List.countP_le_length
  refine ⟨?_, ?_, fun hex => hi.forall_quit (threadNum_of_exited hs hex)⟩
  · rw [hinc]
    push_cast
    omega
  · omega

end Fssn.Tcp.ChatServer
