import Fssn.Lib.Decimal
import Fssn.Lib.Registry
import Fssn.Lib.StdVector
import Fssn.Lib.Transition
import Fssn.Socket

/-!
# Fssn.Udp.ChatServer — the UDP chat server (lec-03-prg-11)

`main` receives datagrams into one buffer and keeps the registered clients in `group_queue`.  One
pass of its loop is `iteration`: the three branches read and change `group_queue` with the index
loops of the source, the deregistration loop erasing under the bound it read before.  Undefined
behaviour is `none`.

`iteration_spec` says what a pass does, and `chat_refines` that over a whole run the server is the
keyed registry of `Fssn.Lib.Registry`, with `sin_port` as the key and the text in the buffer as the
operation.
-/

namespace Fssn.Udp

open Fssn.Lib Registry

/-- A received datagram: who sent it and its payload. -/
structure Datagram where
  client_addr : SockaddrIn
  payload : Bytes

/-- The variables of `main` that survive a pass of the loop. -/
structure Server where
  group_queue : StdVector SockaddrIn
  buffer : Buffer bufSize
  found : Bool

/-- What one pass of the loop leaves and does: the variables, the `sendto` calls in order, the
accesses to `group_queue`, the console output. -/
structure Iteration where
  server : Server
  sends : List (SockaddrIn × Buffer bufSize)
  accesses : List (ℕ × ℕ)
  out : Bytes

/-- `group_queue[i].sin_port == client_addr.sin_port` -/
def samePort (client_addr e : SockaddrIn) : Bool := e.sin_port == client_addr.sin_port

/-- The `#REG` branch, lines 51–59. -/
def registerBranch (q : StdVector SockaddrIn) (buffer : Buffer bufSize) (client_addr : SockaddrIn) :
    Option Iteration :=
  (q.findLoop (samePort client_addr)).map fun s =>
    if s.found then ⟨⟨s.vec, buffer, s.found⟩, [], s.accesses, []⟩
    else ⟨⟨s.vec.pushBack client_addr, buffer, s.found⟩, [], s.accesses,
      ascii "> client registered ('127.0.0.1', " ++ decimal (ntohs client_addr.sin_port).toNat ++
        ascii ")\n"⟩

/-- The `#DEREG`/`quit` branch, lines 61–70. -/
def deregisterBranch (q : StdVector SockaddrIn) (buffer : Buffer bufSize)
    (client_addr : SockaddrIn) : Option Iteration :=
  (q.eraseLoop (samePort client_addr)).map fun s =>
    ⟨⟨s.vec, buffer, s.found⟩, [], s.accesses,
      if s.found then
        ascii "> client de-registered ('127.0.0.1', " ++ decimal (ntohs client_addr.sin_port).toNat ++
          ascii ")\n"
      else []⟩

/-- The remaining branch, lines 72–90: look the sender up, then send the whole buffer to everyone. -/
def broadcastBranch (q : StdVector SockaddrIn) (buffer : Buffer bufSize) (client_addr : SockaddrIn) :
    Option Iteration :=
  (q.findLoop (samePort client_addr)).bind fun s =>
    if s.vec.size = 0 then
      some ⟨⟨s.vec, buffer, s.found⟩, [], s.accesses, ascii "> no clients to echo\n"⟩
    else if s.found then
      s.vec.visitLoop.map fun r =>
        ⟨⟨s.vec, buffer, s.found⟩, r.1.map fun e => (e, buffer), s.accesses ++ r.2,
          ascii "> received ( " ++ cText buffer.bytes ++ ascii " ) and echoed to " ++
            decimal s.vec.size ++ ascii " clients \n"⟩
    else
      some ⟨⟨s.vec, buffer, s.found⟩, [], s.accesses,
        ascii "> ignores a message from un-registered client\n"⟩

/-- One pass of the loop, lines 47–91: `recvfrom` into the buffer, then a branch by its text. -/
def iteration (s : Server) (d : Datagram) : Option Iteration :=
  let buffer := s.buffer.fill d.payload
  if strcmpEq buffer.bytes (ascii "#REG") then
    registerBranch s.group_queue buffer d.client_addr
  else if strcmpEq buffer.bytes (ascii "#DEREG") || strcmpEq buffer.bytes (ascii "quit") then
    deregisterBranch s.group_queue buffer d.client_addr
  else broadcastBranch s.group_queue buffer d.client_addr

/-- The server with everything it has sent so far. -/
structure World where
  server : Server
  sent : List (SockaddrIn × Buffer bufSize)

/-- The loop of `main` as a transition system, one received datagram a step.  The buffer is not
initialised: `junk` is what it holds before the first receive. -/
def chat (junk : Buffer bufSize) : System World Datagram where
  init := ⟨⟨.empty, junk, false⟩, []⟩
  step w d := (iteration w.server d).map fun it => ⟨it.server, w.sent ++ it.sends⟩

/-! ### What a pass does -/

/-- The branch that the memory at `buffer` selects, as an operation on the registry. -/
def opOf (mem : Bytes) : Op :=
  if strcmpEq mem (ascii "#REG") then .join
  else if strcmpEq mem (ascii "#DEREG") || strcmpEq mem (ascii "quit") then .leave
  else .other

/-- In memory that holds a NUL, the text alone selects the operation. -/
theorem opOf_cText {mem : Bytes} (h : 0 ∈ mem) : opOf mem =
    if cText mem = ascii "#REG" then .join
    else if cText mem = ascii "#DEREG" ∨ cText mem = ascii "quit" then .leave else .other := by
  have hcmp (t : Bytes) (ht : 0 ∉ t) : strcmpEq mem t = true ↔ cText mem = t :=
    strcmpEq_iff_cText h ht
  unfold opOf
  simp only [Bool.or_eq_true, hcmp (ascii "#REG") (by decide), hcmp (ascii "#DEREG") (by decide),
    hcmp (ascii "quit") (by decide)]

theorem opOf_eq_join {mem : Bytes} : opOf mem = .join ↔ ascii "#REG" ++ [0] <+: mem := by
  rw [← strcmpEq_iff, opOf]
  split_ifs <;> simp [*]

abbrev Server.elems (s : Server) : List SockaddrIn := s.group_queue.elems

/-- The sends of a pass with the registry `q`, the operation `op`, the sender `a` and the frame `b`:
a message from a registered port goes to every entry. -/
def sendsOf (q : List SockaddrIn) (op : Op) (a : SockaddrIn) (b : Buffer bufSize) :
    List (SockaddrIn × Buffer bufSize) :=
  if op = .other ∧ a.sin_port ∈ q.map SockaddrIn.sin_port then q.map fun e => (e, b) else []

theorem any_samePort (q : List SockaddrIn) (a : SockaddrIn) :
    q.any (samePort a) = decide (a.sin_port ∈ q.map SockaddrIn.sin_port) := by
  rw [Bool.eq_iff_iff, List.any_eq_true, decide_eq_true_iff, List.mem_map]
  simp only [samePort, beq_iff_eq]

/-- Distinct ports: at most one entry has the sender's port. -/
theorem atMostOne_samePort {q : List SockaddrIn} (h : (q.map SockaddrIn.sin_port).Nodup)
    (a : SockaddrIn) : StdVector.AtMostOne (samePort a) q := by
  intro i j x y hx hy hax hay
  rw [samePort, beq_iff_eq] at hax hay
  have hi : (q.map SockaddrIn.sin_port)[i]? = some a.sin_port := by
    rw [List.getElem?_map, hx, ← hax]
    rfl
  have hj : (q.map SockaddrIn.sin_port)[j]? = some a.sin_port := by
    rw [List.getElem?_map, hy, ← hay]
    rfl
  exact (List.getElem?_inj (List.getElem?_eq_some_iff.mp hi).1 h).mp (hi.trans hj.symm)

theorem registerBranch_spec {q : StdVector SockaddrIn} (b : Buffer bufSize) (a : SockaddrIn) :
    ∃ it, registerBranch q b a = some it ∧ it.server.buffer = b ∧ it.sends = [] ∧
      it.server.elems = apply SockaddrIn.sin_port q.elems (.join, a) := by
  obtain ⟨s, hs, hvec, hfound⟩ := q.findLoop_spec (samePort a)
  rw [any_samePort] at hfound
  rw [registerBranch, hs, Option.map_some, hvec, hfound]
  by_cases hm : a.sin_port ∈ q.elems.map SockaddrIn.sin_port
  · rw [if_pos (by simpa using hm), apply_join_mem hm]
    exact ⟨_, rfl, rfl, rfl, rfl⟩
  · rw [if_neg (by simpa using hm), apply_join_new hm]
    exact ⟨_, rfl, rfl, rfl, StdVector.elems_pushBack q a⟩

theorem deregisterBranch_spec {q : StdVector SockaddrIn}
    (h : (q.elems.map SockaddrIn.sin_port).Nodup) (b : Buffer bufSize) (a : SockaddrIn) :
    ∃ it, deregisterBranch q b a = some it ∧ it.server.buffer = b ∧ it.sends = [] ∧
      it.server.elems = apply SockaddrIn.sin_port q.elems (.leave, a) := by
  obtain ⟨s, hs, helems, -⟩ := StdVector.eraseLoop_spec (atMostOne_samePort h a)
  rw [deregisterBranch, hs, Option.map_some]
  refine ⟨_, rfl, rfl, rfl, helems.trans ?_⟩
  rw [apply_leave]
  refine List.filter_congr fun e _ => ?_
  rw [samePort, Bool.eq_iff_iff]
  simp

theorem broadcastBranch_spec {q : StdVector SockaddrIn} (b : Buffer bufSize) (a : SockaddrIn) :
    ∃ it, broadcastBranch q b a = some it ∧ it.server.buffer = b ∧
      it.sends = sendsOf q.elems .other a b ∧ it.server.elems = q.elems := by
  obtain ⟨s, hs, hvec, hfound⟩ := q.findLoop_spec (samePort a)
  obtain ⟨acc, hacc⟩ := q.visitLoop_spec
  rw [any_samePort] at hfound
  rw [broadcastBranch, hs, Option.bind_some, hvec, hfound]
  by_cases hm : a.sin_port ∈ q.elems.map SockaddrIn.sin_port
  · have hsize : q.size ≠ 0 := by
      rw [← StdVector.length_elems]
      intro h0
      rw [List.length_eq_zero_iff.mp h0] at hm
      simp at hm
    rw [if_neg hsize, if_pos (by simpa using hm), hacc, Option.map_some, sendsOf, if_pos ⟨rfl, hm⟩]
    exact ⟨_, rfl, rfl, rfl, rfl⟩
  · have hsends : sendsOf q.elems .other a b = [] := if_neg fun h => hm h.2
    rw [hsends]
    by_cases hsize : q.size = 0
    · rw [if_pos hsize]
      exact ⟨_, rfl, rfl, rfl, rfl⟩
    · rw [if_neg hsize, if_neg (by simpa using hm)]
      exact ⟨_, rfl, rfl, rfl, rfl⟩

/-- **One pass of the loop**, from distinct ports: it is defined, the text in the refilled buffer
chooses the operation on the registry, and only a message from a registered port is sent. -/
theorem iteration_spec {s : Server} (h : (s.elems.map SockaddrIn.sin_port).Nodup) (d : Datagram) :
    ∃ it, iteration s d = some it ∧ it.server.buffer = s.buffer.fill d.payload ∧
      it.server.elems = apply SockaddrIn.sin_port s.elems
        (opOf (s.buffer.fill d.payload).bytes, d.client_addr) ∧
      it.sends = sendsOf s.elems (opOf (s.buffer.fill d.payload).bytes) d.client_addr
        (s.buffer.fill d.payload) := by
  unfold iteration opOf
  dsimp only
  split_ifs with h1 h2
  · obtain ⟨it, hit, hb, hsends, helems⟩ :=
      registerBranch_spec (q := s.group_queue) (s.buffer.fill d.payload) d.client_addr
    exact ⟨it, hit, hb, helems, by rw [hsends, sendsOf, if_neg (by simp)]⟩
  · obtain ⟨it, hit, hb, hsends, helems⟩ :=
      deregisterBranch_spec h (s.buffer.fill d.payload) d.client_addr
    exact ⟨it, hit, hb, helems, by rw [hsends, sendsOf, if_neg (by simp)]⟩
  · obtain ⟨it, hit, hb, hsends, helems⟩ :=
      broadcastBranch_spec (q := s.group_queue) (s.buffer.fill d.payload) d.client_addr
    exact ⟨it, hit, hb, helems, hsends⟩

/-! ### Whole runs -/

/-- The server after a sequence of datagrams, `none` when a pass is undefined. -/
def serve (junk : Buffer bufSize) (ds : List Datagram) : Option World :=
  (chat junk).exec (chat junk).init ds

/-- The buffer after a sequence of receives. -/
def bufferAfter (b : Buffer bufSize) (ds : List Datagram) : Buffer bufSize :=
  ds.foldl (fun b d => b.fill d.payload) b

/-- The registry operations that a sequence of datagrams selects, each with its sender. -/
def events : Buffer bufSize → List Datagram → List (Op × SockaddrIn)
  | _, [] => []
  | b, d :: ds => (opOf (b.fill d.payload).bytes, d.client_addr) :: events (b.fill d.payload) ds

theorem bufferAfter_concat (b : Buffer bufSize) (ds : List Datagram) (d : Datagram) :
    bufferAfter b (ds ++ [d]) = (bufferAfter b ds).fill d.payload := by
  rw [bufferAfter, List.foldl_append]
  rfl

theorem events_concat (b : Buffer bufSize) (ds : List Datagram) (d : Datagram) :
    events b (ds ++ [d]) =
      events b ds ++ [(opOf ((bufferAfter b ds).fill d.payload).bytes, d.client_addr)] := by
  induction ds generalizing b with
  | nil => rfl
  | cons c ds ih =>
    rw [List.cons_append, events, ih]
    rfl

theorem serve_concat {junk : Buffer bufSize} {ds : List Datagram} {w : World} {it : Iteration}
    {d : Datagram} (h : serve junk ds = some w) (hit : iteration w.server d = some it) :
    serve junk (ds ++ [d]) = some ⟨it.server, w.sent ++ it.sends⟩ := by
  rw [serve, System.exec_concat, ← serve, h, Option.bind_some]
  show (iteration w.server d).map _ = _
  rw [hit, Option.map_some]

/-- **The server refines the keyed registry**: every run is defined, and `group_queue` is the
registry after the operations that the datagrams select. -/
theorem chat_refines (junk : Buffer bufSize) (ds : List Datagram) :
    ∃ w, serve junk ds = some w ∧ w.server.elems = run SockaddrIn.sin_port (events junk ds) ∧
      w.server.buffer = bufferAfter junk ds := by
  induction ds using List.reverseRecOn with
  | nil => exact ⟨_, rfl, rfl, rfl⟩
  | append_singleton ds d ih =>
    obtain ⟨w, hw, helems, hbuf⟩ := ih
    have hnd : (w.server.elems.map SockaddrIn.sin_port).Nodup := by
      rw [helems]
      exact nodup_run _
    obtain ⟨it, hit, hb, hel, -⟩ := iteration_spec hnd d
    refine ⟨_, serve_concat hw hit, ?_, ?_⟩
    · rw [events_concat, run_concat, ← helems, ← hbuf]
      exact hel
    · rw [bufferAfter_concat, ← hbuf]
      exact hb

end Fssn.Udp
