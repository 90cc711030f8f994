import Fssn.Udp.ChatServer

/-!
# Fssn.Udp.EchoServer — the UDP echo server and the bytes it sends back

`lec-03-prg-10` receives every datagram into one buffer, drops its length and sends the whole buffer
back.  Behind a short payload the reply has the bytes of earlier datagrams, which other clients have
sent: the reply is decided by the datagram only if the payload fills the buffer (`sameReply_iff`).
-/

namespace Fssn.Udp.EchoServer

open Fssn.Lib

/-- The buffer, what the server has printed and what it has sent, and to whom. -/
structure World where
  buffer : Buffer bufSize
  out : Bytes
  sent : List (SockaddrIn × Buffer bufSize)

/-- One pass of the loop. -/
def iteration (w : World) (d : Datagram) : World :=
  let buffer := w.buffer.fill d.payload
  { buffer := buffer
    out := w.out ++ ascii "> echoed: " ++ cText buffer.bytes ++ ascii "\n"
    sent := w.sent ++ [(d.client_addr, buffer)] }

/-- The server after the datagrams `ds`; `junk` is what its buffer held before the first. -/
def serve (junk : Buffer bufSize) (ds : List Datagram) : World := ds.foldl iteration ⟨junk, [], []⟩

/-- What the pass for `d` sends, after the datagrams `ds`. -/
def reply (junk : Buffer bufSize) (ds : List Datagram) (d : Datagram) :
    List (SockaddrIn × Buffer bufSize) :=
  (serve junk (ds ++ [d])).sent.drop (serve junk ds).sent.length

/-- After any two histories, the datagram `d` has the same reply. -/
def SameReply (d : Datagram) : Prop := ∀ junk ds es, reply junk ds d = reply junk es d

theorem reply_eq (junk : Buffer bufSize) (ds : List Datagram) (d : Datagram) :
    reply junk ds d = [(d.client_addr, (serve junk ds).buffer.fill d.payload)] := by
  have hserve : serve junk (ds ++ [d]) = iteration (serve junk ds) d := List.foldl_concat ..
  rw [reply, hserve, iteration, List.drop_left]

/-- A payload that fills the buffer leaves nothing of earlier ones; any other one shows the last byte
of whatever was there. -/
theorem sameReply_iff (d : Datagram) : SameReply d ↔ bufSize ≤ d.payload.length := by
  constructor
  · intro h
    by_contra hlt
    have heq := h (.const bufSize 0) [] [⟨d.client_addr, (Buffer.const bufSize 1).bytes⟩]
    rw [reply_eq, reply_eq] at heq
    have hbuffer : (Buffer.const bufSize 0).fill d.payload =
        ((Buffer.const bufSize 0).fill (Buffer.const bufSize 1).bytes).fill d.payload :=
      (Prod.mk.inj (List.singleton_inj.mp heq)).2
    rw [Buffer.fill_frame] at hbuffer
    exact Buffer.fill_const_ne (by decide) (not_le.mp hlt) hbuffer
  · intro hle junk ds es
    rw [reply_eq, reply_eq]
    refine congrArg (fun b => [(d.client_addr, b)]) (Buffer.fill_eq_fill_iff.mpr ?_)
    rw [List.drop_eq_nil_of_le (by rw [Buffer.length_eq]; exact hle),
      List.drop_eq_nil_of_le (by rw [Buffer.length_eq]; exact hle)]

end Fssn.Udp.EchoServer
