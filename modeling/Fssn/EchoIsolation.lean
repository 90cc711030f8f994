import Fssn.Tcp.Isolation
import Fssn.Udp.EchoServer

/-!
# Fssn.EchoIsolation — what the echo servers show one client of another

The UDP echo server and the sequential TCP server keep one buffer for all their clients, drop the
length of what they receive and always send 1024 bytes.  `echo_isolation` puts together for which
inputs a client sees nothing of the clients before it.
-/

namespace Fssn

open Udp (Datagram)
open Udp.EchoServer (SameReply sameReply_iff)
open Tcp.SocketServer (Chunk SameReplies FirstDecides sameReplies_iff)

/-- **Isolation of the echo servers.**  The UDP server's reply to a datagram is the same after all
histories exactly if the payload fills the buffer; what the sequential TCP server sends in a session
is the same after all histories of sessions exactly if the first receive result fills the buffer or
begins with `quit` and its NUL. -/
theorem echo_isolation (d : Datagram) (cs : List Chunk) :
    (SameReply d ↔ bufSize ≤ d.payload.length) ∧ (SameReplies cs ↔ FirstDecides cs) :=
  ⟨sameReply_iff d, sameReplies_iff cs⟩

/-- A datagram of two bytes gets a reply that shows what was received before it. -/
theorem not_always_echo_isolation :
    ¬ ((∀ d : Datagram, d.payload.length ≤ bufSize → SameReply d) ∧ ∀ cs, SameReplies cs) := by
  rintro ⟨h, -⟩
  have hle := (sameReply_iff ⟨⟨0x0100007F, 5000⟩, Lib.ascii "hi"⟩).mp (h _ (by decide))
  exact absurd hle (by decide)

end Fssn
