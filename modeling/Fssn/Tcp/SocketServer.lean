import Fssn.Lib.Settle
import Fssn.Tcp.Session

/-!
# Fssn.Tcp.SocketServer — one client after another

`lec-03-prg-05`: the inner loop talks to a client until it sends `quit`, the outer loop accepts the
next one.  The two share `client`, `isExit` and `buffer` over all sessions, and nothing between two
sessions resets them.

`serve_session`: the inner loop is `session` with the buffer as the last client left it.
-/

namespace Fssn.Tcp.SocketServer

open Fssn.Lib

/-- The bytes a `recv` returns. -/
structure Chunk where
  bytes : Bytes
  ne_nil : bytes ≠ []
  le : bytes.length ≤ bufSize

/-- A `recv` that returns a whole buffer. -/
def Chunk.whole (b : Buffer bufSize) : Chunk where
  bytes := b.bytes
  ne_nil h := absurd (h ▸ b.length_eq) (by decide)
  le := b.length_eq.le

/-- An accepted connection: its descriptor, the client's port, and what the `recv` calls on it will
return. -/
structure Connection where
  csock : ℤ
  pos : 0 < csock
  sin_port : UInt16
  results : List Chunk

/-- The outcome of an `accept`. -/
inductive Accept
  | failed
  | connected (c : Connection)

/-- Where the program stands: before the first `accept`, at the `recv` of the inner loop, or at the
`accept` of the outer loop. -/
inductive Pc
  | first
  | recv
  | accept
deriving DecidableEq

/-- `accepts` has the outcomes of the `accept` calls to come.  `conn` is what `recv` on `client` has
yet to return, `none` when the descriptor is not an open connection. -/
structure State where
  accepts : List Accept
  pc : Pc
  client : ℤ
  conn : Option (List Chunk)
  sin_port : UInt16
  buffer : Buffer bufSize
  isExit : Bool
  clientNum : ℤ
  out : Bytes
  sent : List (ℤ × Buffer bufSize)

/-- `htons(portNum)`, which is its own inverse. -/
def serverPort : UInt16 := ntohs 65457

/-- `main` before the first `accept`; the buffer is not initialised. -/
def start (buffer : Buffer bufSize) (accepts : List Accept) : State :=
  ⟨accepts, .first, 0, none, serverPort, buffer, false, 0, ascii "echo-server is activated\n", []⟩

/-- `client = accept(server, &server_addr, &size)`. -/
def State.accept (s : State) : Accept → State
  | .failed => { s with client := -1, conn := none }
  | .connected c => { s with client := c.csock, conn := some c.results, sin_port := c.sin_port }

def connected (sin_port : UInt16) : Bytes :=
  ascii "Client connected by IP address 127.0.0.1 with Port number " ++
    toStringInt (ntohs sin_port).toNat ++ ascii "\n"

/-- A turn of the inner loop, `buffer` being what `recv` leaves. -/
def State.turn (s : State) (buffer : Buffer bufSize) (conn : Option (List Chunk)) : State :=
  let out := s.out ++ received (cText buffer.bytes)
  if isQuit buffer.bytes then
    { s with
      buffer := buffer
      conn := conn
      out := out
      clientNum := s.clientNum - 1
      pc := .accept }
  else
    { s with
      buffer := buffer
      conn := conn
      out := out
      sent := if conn.isSome then s.sent ++ [(s.client, buffer)] else s.sent }

/-- A turn of a loop, `none` where the program waits. -/
def step (s : State) : Option State :=
  match s.pc with
  | .first =>
    match s.accepts with
    | [] => none
    | a :: as =>
      let t := s.accept a
      -- the line about the connection is printed after a failed `accept` too
      let error := if t.client < 0 then ascii "=> Error on accepting...\n" else []
      some { t with
        accepts := as
        clientNum := t.clientNum + 1
        out := t.out ++ error ++ connected t.sin_port
        pc := .recv }
  | .recv =>
    match s.conn with
    | some [] => none
    | some (c :: cs) => some (s.turn (recv s.buffer (.data c.bytes)) (some cs))
    | none => some (s.turn (recv s.buffer .failed) none)
  | .accept =>
    match s.accepts with
    | [] => none
    | a :: as =>
      let t := s.accept a
      let u := if 0 < t.client then { t with out := t.out ++ connected t.sin_port }
        else { t with isExit := true }
      -- `isExit` is never false again: from now on every client is closed
      let v := if u.isExit then { u with conn := none } else u
      some { v with accepts := as, pc := .recv }

/-- The state a step later. -/
def next (s : State) : State := (step s).getD s

/-! ### One turn -/

section Turn

variable {s : State} {as : List Accept} {c : Connection}

theorem next_first_connected (hpc : s.pc = .first) (has : s.accepts = .connected c :: as) :
    next s = { s with
      accepts := as
      pc := .recv
      client := c.csock
      conn := some c.results
      sin_port := c.sin_port
      clientNum := s.clientNum + 1
      out := s.out ++ [] ++ connected c.sin_port } := by
  have hpos : ¬ c.csock < 0 := not_lt.mpr c.pos.le
  simp only [next, step, hpc, has, State.accept, if_neg hpos, Option.getD_some]

theorem next_first_failed (hpc : s.pc = .first) (has : s.accepts = .failed :: as) :
    next s = { s with
      accepts := as
      pc := .recv
      client := -1
      conn := none
      clientNum := s.clientNum + 1
      out := s.out ++ ascii "=> Error on accepting...\n" ++ connected s.sin_port } := by
  have hneg : (-1 : ℤ) < 0 := by decide
  simp only [next, step, hpc, has, State.accept, if_pos hneg, Option.getD_some]

theorem next_accept_connected (hpc : s.pc = .accept) (has : s.accepts = .connected c :: as) :
    next s = { s with
      accepts := as
      pc := .recv
      client := c.csock
      conn := if s.isExit then none else some c.results
      sin_port := c.sin_port
      out := s.out ++ connected c.sin_port } := by
  simp only [next, step, hpc, has, State.accept, if_pos c.pos, Option.getD_some]
  cases s.isExit <;> rfl

theorem next_accept_failed (hpc : s.pc = .accept) (has : s.accepts = .failed :: as) :
    next s = { s with
      accepts := as
      pc := .recv
      client := -1
      conn := none
      isExit := true } := by
  have hneg : ¬ (0 : ℤ) < -1 := by decide
  simp only [next, step, hpc, has, State.accept, if_neg hneg, if_true, Option.getD_some]

theorem next_recv_data {k : Chunk} {ks : List Chunk} (hpc : s.pc = .recv)
    (hconn : s.conn = some (k :: ks)) : next s = s.turn (s.buffer.fill k.bytes) (some ks) := by
  simp only [next, step, hpc, hconn, recv, Option.getD_some]

theorem next_recv_lost (hpc : s.pc = .recv) (hconn : s.conn = none) :
    next s = s.turn s.buffer none := by
  simp only [next, step, hpc, hconn, recv, Option.getD_some]

theorem turn_quit {b : Buffer bufSize} {conn : Option (List Chunk)} (hq : isQuit b.bytes = true) :
    s.turn b conn = { s with
      buffer := b
      conn := conn
      out := s.out ++ received (cText b.bytes)
      clientNum := s.clientNum - 1
      pc := .accept } :=
  if_pos hq

theorem turn_frame {b : Buffer bufSize} {conn : Option (List Chunk)} (hq : isQuit b.bytes = false) :
    s.turn b conn = { s with
      buffer := b
      conn := conn
      out := s.out ++ received (cText b.bytes)
      sent := if conn.isSome then s.sent ++ [(s.client, b)] else s.sent } :=
  if_neg (by simp [hq])

/-- With no outcome left, the program waits in `accept`. -/
theorem next_waits (hpc : s.pc ≠ .recv) (has : s.accepts = []) : next s = s := by
  cases h : s.pc with
  | recv => exact absurd h hpc
  | first => simp only [next, step, h, has, Option.getD_none]
  | accept => simp only [next, step, h, has, Option.getD_none]

/-- With no result left, the program waits in `recv`. -/
theorem next_recv_waits (hpc : s.pc = .recv) (hconn : s.conn = some []) : next s = s := by
  simp only [next, step, hpc, hconn, Option.getD_none]

end Turn

/-! ### One session -/

/-- What the inner loop makes of the session `r`: it has sent and printed what `r` has, and stands at
the next `accept` with a `quit` in its buffer, or waits for the client. -/
structure Served (s : State) (r : Session) (t : State) : Prop where
  accepts : t.accepts = s.accepts
  isExit : t.isExit = s.isExit
  sent : t.sent = s.sent ++ r.sent.map fun x => (s.client, x.2)
  out : t.out = s.out ++ r.out
  ended : r.ended = true → t.pc = .accept ∧ isQuit t.buffer.bytes = true
  waits : r.ended = false → t.pc = .recv ∧ t.conn = some []

/-- **The inner loop is `session`**, by induction on the receive results. -/
theorem serve_session (env : ℕ → Shared) {s : State} {cs : List Chunk} (hpc : s.pc = .recv)
    (hconn : s.conn = some cs) :
    Leads next (Served s (session (Tcp.socketserver s.client) env s.buffer
      (cs.map fun c => .data c.bytes))) s := by
  induction cs generalizing s env with
  | nil =>
    refine .here ⟨rfl, rfl, ?_, ?_, fun h => absurd h (by simp [session]), fun _ => ⟨hpc, hconn⟩⟩
    · exact (List.append_nil _).symm
    · exact (List.append_nil _).symm
  | cons c cs ih =>
    refine .of_step ?_
    rw [next_recv_data hpc hconn, List.map_cons]
    by_cases hq : isQuit (s.buffer.fill c.bytes).bytes = true
    · rw [session_quit hq, turn_quit hq]
      refine .here ⟨rfl, rfl, ?_, rfl, fun _ => ⟨rfl, hq⟩, fun h => absurd h (by simp)⟩
      exact (List.append_nil _).symm
    · rw [Bool.not_eq_true] at hq
      rw [session_frame hq, turn_frame hq]
      refine (ih (fun k => env (k + 1)) (by exact hpc) rfl).trans fun t ht => .here ?_
      refine ⟨ht.accepts, ht.isExit, ?_, ?_, ht.ended, ht.waits⟩
      · rw [ht.sent]
        simp only [Option.isSome_some, if_true, List.map_cons, List.append_assoc]
        rfl
      · rw [ht.out]
        simp only [List.append_assoc]
        rfl

end Fssn.Tcp.SocketServer
