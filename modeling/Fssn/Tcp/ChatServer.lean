import Mathlib.Data.List.Perm.Basic
import Fssn.Lib.Transition
import Fssn.Tcp.Session

/-!
# Fssn.Tcp.ChatServer — the multithreaded TCP chat server

`lec-03-prg-08`: `main` accepts clients and starts a detached `SocketHandler` thread for each;
`QuitHandler` reads the console.  They share `threadNum` and `group_queue` without a lock.

A `SocketHandler` is one thread with its program counter.  One step is one statement that touches
the shared variables, so the threads interleave between any two of them.  An index at or past the
size of `group_queue` has no step: the source's behaviour is undefined there.  A `send` ends no process
here; that one to a closed connection may do so is a step of `Fssn.Tcp.Chat`.
-/

namespace Fssn.Tcp.ChatServer

open Fssn.Lib

/-- Where a handler thread stands. -/
inductive Pc
  | pushBack
  | recv
  | compare
  | bound
  | sending (i last : ℕ)
  | eraseBound
  | erasing (i last : ℕ)
  | finished
deriving DecidableEq

/-- A handler thread.  `echoed` is the count it printed last, `targets` the descriptors that the
broadcast at hand has been sent to. -/
structure SocketHandler where
  server : ℤ
  buffer : Buffer bufSize
  isExit : Bool
  pc : Pc
  echoed : ℤ
  targets : List ℤ

/-- The thread that `pthread_create` starts for a descriptor; `buffer` is what its stack held. -/
def SocketHandler.create (server : ℤ) (buffer : Buffer bufSize) : SocketHandler :=
  ⟨server, buffer, false, .pushBack, 0, []⟩

/-- Where `main` stands: in `accept`, before `threadNum++`, or before `pthread_create`. -/
inductive MainPc
  | accept
  | count (csock : ℤ)
  | create (csock : ℤ)

/-- The variables all threads share, and what the process has printed. -/
structure Globals where
  threadNum : ℤ
  group_queue : List ℤ
  out : Bytes

/-- The process: the descriptors `accept` has returned are never closed. -/
structure State where
  globals : Globals
  main : MainPc
  opened : List ℤ
  handlers : List SocketHandler
  exited : Bool

inductive Action
  | accept (csock : ℤ) (sin_port : UInt16)
  | acceptFailed
  | count
  | create (buffer : Buffer bufSize)
  | recv (k : ℕ) (r : RecvResult)
  | run (k : ℕ)
  | console (input : Bytes)

/-- The statement at a handler's program counter, `recv` apart. -/
def statement (g : Globals) (h : SocketHandler) : Option (Globals × SocketHandler) :=
  match h.pc with
  | .pushBack => some ({ g with group_queue := g.group_queue ++ [h.server] }, { h with pc := .recv })
  | .recv => none
  | .compare =>
    if isQuit h.buffer.bytes then
      -- `goto FINISH` jumps over the erase loop
      some ({ g with threadNum := g.threadNum - 1 }, { h with isExit := true, pc := .finished })
    else
      let line := multithreadChat.onFrame ⟨g.threadNum, g.group_queue⟩ (cText h.buffer.bytes)
      some ({ g with out := g.out ++ line }, { h with echoed := g.threadNum, pc := .bound })
  | .bound => some (g, { h with targets := [], pc := .sending 0 g.group_queue.length })
  | .sending i last =>
    if i < last then
      g.group_queue[i]?.map fun fd =>
        (g, { h with targets := h.targets ++ [fd], pc := .sending (i + 1) last })
    else
      some (g, { h with pc := if h.isExit then .eraseBound else .recv })
  | .eraseBound => some (g, { h with pc := .erasing 0 g.group_queue.length })
  | .erasing i last =>
    if i < last then
      g.group_queue[i]?.map fun fd =>
        ({ g with group_queue := if fd = h.server then g.group_queue.eraseIdx i else g.group_queue },
          { h with pc := .erasing (i + 1) last })
    else
      some (g, { h with pc := .finished })
  | .finished => none

/-- What `main` prints for a new client. -/
def connected (sin_port : UInt16) : Bytes :=
  ascii "client connected by IP address 127.0.0.1 with Port number " ++
    decimal (ntohs sin_port).toNat ++ ascii "\n"

/-- One step of the process.  `accept` returns a descriptor that is not open. -/
def step (s : State) (a : Action) : Option State :=
  if s.exited then none else
  match a with
  | .accept csock sin_port =>
    match s.main with
    | .accept =>
      if 0 ≤ csock ∧ csock ∉ s.opened then
        some { s with
          globals := { s.globals with out := s.globals.out ++ connected sin_port }
          main := .count csock
          opened := s.opened ++ [csock] }
      else none
    | _ => none
  | .acceptFailed =>
    match s.main with
    | .accept => some s
    | _ => none
  | .count =>
    match s.main with
    | .count csock =>
      some { s with
        globals := { s.globals with threadNum := s.globals.threadNum + 1 }
        main := .create csock }
    | _ => none
  | .create buffer =>
    match s.main with
    | .create csock =>
      some { s with main := .accept, handlers := s.handlers ++ [.create csock buffer] }
    | _ => none
  | .recv k r =>
    s.handlers[k]?.bind fun h =>
      if h.pc = .recv then
        some { s with
          handlers := s.handlers.set k { h with buffer := Fssn.recv h.buffer r, pc := .compare } }
      else none
  | .run k =>
    s.handlers[k]?.bind fun h =>
      (statement s.globals h).map fun gh =>
        { s with globals := gh.1, handlers := s.handlers.set k gh.2 }
  | .console input =>
    if strcmpEq input (ascii "quit") then
      if s.globals.threadNum ≠ 0 then
        some { s with globals := { s.globals with
          out := s.globals.out ++ ascii "active threads are remained: " ++
            toStringInt s.globals.threadNum ++ ascii "\n" } }
      else
        some { s with
          globals := { s.globals with out := s.globals.out ++ ascii "echo-server is de-activated" }
          exited := true }
    else some s

/-- The server. -/
def server : System State Action where
  init := ⟨⟨0, [], []⟩, .accept, [], [], false⟩
  step := step

/-! ### What a step can do -/

/-- The handler's statement, as a relation with one case per effect on the shared variables.  The
erase loop comes last: no run gets there, and its effect is left open. -/
inductive Effect (g : Globals) (h : SocketHandler) : Globals → SocketHandler → Prop
  | push (hpc : h.pc = .pushBack) :
      Effect g h { g with group_queue := g.group_queue ++ [h.server] } { h with pc := .recv }
  | quit (hpc : h.pc = .compare) (hq : isQuit h.buffer.bytes = true) :
      Effect g h { g with threadNum := g.threadNum - 1 } { h with isExit := true, pc := .finished }
  | print (hpc : h.pc = .compare) (hq : isQuit h.buffer.bytes = false) (line : Bytes) :
      Effect g h { g with out := g.out ++ line } { h with echoed := g.threadNum, pc := .bound }
  | bound (hpc : h.pc = .bound) :
      Effect g h g { h with targets := [], pc := .sending 0 g.group_queue.length }
  | send (i last : ℕ) (fd : ℤ) (hpc : h.pc = .sending i last) (hi : i < last)
      (hfd : g.group_queue[i]? = some fd) :
      Effect g h g { h with targets := h.targets ++ [fd], pc := .sending (i + 1) last }
  | sent (i last : ℕ) (hpc : h.pc = .sending i last) (hi : ¬ i < last) :
      Effect g h g { h with pc := if h.isExit then .eraseBound else .recv }
  | erase (hpc : h.pc = .eraseBound ∨ ∃ i last, h.pc = .erasing i last) (g' : Globals)
      (h' : SocketHandler) : Effect g h g' h'

theorem statement_effect {g g' : Globals} {h h' : SocketHandler}
    (hs : statement g h = some (g', h')) : Effect g h g' h' := by
  unfold statement at hs
  split at hs
  case h_1 hpc =>
    cases hs
    exact .push hpc
  case h_2 => exact absurd hs (by simp)
  case h_3 hpc =>
    by_cases hq : isQuit h.buffer.bytes = true
    · rw [if_pos hq] at hs
      cases hs
      exact .quit hpc hq
    · rw [if_neg hq] at hs
      cases hs
      exact .print hpc (Bool.not_eq_true _ ▸ hq) _
  case h_4 hpc =>
    cases hs
    exact .bound hpc
  case h_5 i last hpc =>
    by_cases hi : i < last
    · rw [if_pos hi] at hs
      obtain ⟨fd, hfd, heq⟩ := Option.map_eq_some_iff.mp hs
      cases heq
      exact .send i last fd hpc hi hfd
    · rw [if_neg hi] at hs
      cases hs
      exact .sent i last hpc hi
  case h_6 hpc => exact .erase (Or.inl hpc) g' h'
  case h_7 i last hpc => exact .erase (Or.inr ⟨i, last, hpc⟩) g' h'
  case h_8 => exact absurd hs (by simp)

/-- A step of the process, with one case per effect on what the threads share. -/
inductive Move (s : State) : Action → State → Prop
  | accept (csock : ℤ) (sin_port : UInt16) (out : Bytes) (hmain : s.main = .accept)
      (hnew : csock ∉ s.opened) :
      Move s (.accept csock sin_port)
        { s with
          globals := { s.globals with out := out }
          main := .count csock
          opened := s.opened ++ [csock] }
  | acceptFailed : Move s .acceptFailed s
  | count (csock : ℤ) (hmain : s.main = .count csock) :
      Move s .count
        { s with
          globals := { s.globals with threadNum := s.globals.threadNum + 1 }
          main := .create csock }
  | create (csock : ℤ) (buffer : Buffer bufSize) (hmain : s.main = .create csock) :
      Move s (.create buffer)
        { s with main := .accept, handlers := s.handlers ++ [.create csock buffer] }
  | recv (k : ℕ) (r : RecvResult) (h : SocketHandler) (hk : s.handlers[k]? = some h)
      (hpc : h.pc = .recv) :
      Move s (.recv k r)
        { s with
          handlers := s.handlers.set k { h with buffer := Fssn.recv h.buffer r, pc := .compare } }
  | run (k : ℕ) (h h' : SocketHandler) (g' : Globals) (hk : s.handlers[k]? = some h)
      (he : Effect s.globals h g' h') :
      Move s (.run k) { s with globals := g', handlers := s.handlers.set k h' }
  | console (input : Bytes) (out : Bytes) (exited : Bool) :
      Move s (.console input) { s with globals := { s.globals with out := out }, exited := exited }

theorem step_move {s t : State} {a : Action} (hs : server.step s a = some t) : Move s a t := by
  change step s a = some t at hs
  unfold step at hs
  by_cases hex : s.exited = true
  · rw [if_pos hex] at hs
    exact absurd hs (by simp)
  rw [if_neg hex] at hs
  cases a with
  | accept csock sin_port =>
    dsimp only at hs
    split at hs
    · rename_i hmain
      split_ifs at hs with hnew
      cases hs
      exact .accept csock sin_port _ hmain hnew.2
    · exact absurd hs (by simp)
  | acceptFailed =>
    dsimp only at hs
    split at hs
    · cases hs
      exact .acceptFailed
    · exact absurd hs (by simp)
  | count =>
    dsimp only at hs
    split at hs
    · rename_i csock hmain
      cases hs
      exact .count csock hmain
    · exact absurd hs (by simp)
  | create buffer =>
    dsimp only at hs
    split at hs
    · rename_i csock hmain
      cases hs
      exact .create csock buffer hmain
    · exact absurd hs (by simp)
  | recv k r =>
    obtain ⟨h, hk, hs⟩ := Option.bind_eq_some_iff.mp hs
    split_ifs at hs with hpc
    cases hs
    exact .recv k r h hk hpc
  | run k =>
    obtain ⟨h, hk, hs⟩ := Option.bind_eq_some_iff.mp hs
    obtain ⟨⟨g', h'⟩, hst, heq⟩ := Option.map_eq_some_iff.mp hs
    cases heq
    exact .run k h h' g' hk (statement_effect hst)
  | console input =>
    dsimp only at hs
    split_ifs at hs
    · cases hs
      exact .console input _ _
    · cases hs
      exact .console input _ _
    · cases hs
      exact .console input s.globals.out s.exited

end Fssn.Tcp.ChatServer
