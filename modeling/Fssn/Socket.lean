import Fssn.Lib.CString

/-!
# Fssn.Socket — what the socket programs share

Every program of the socket directory uses a `char buffer[1024]`, receives into it with `recv` or
`recvfrom` and sends all of it.  A `TextFrame` is what their clients send: a whole buffer holding a
NUL-terminated text.
-/

namespace Fssn

open Fssn.Lib

abbrev bufSize : ℕ := 1024

/-- The fields of a `sockaddr_in` that tell clients apart, the port in network byte order. -/
structure SockaddrIn where
  sin_addr : UInt32
  sin_port : UInt16
deriving DecidableEq

/-- `ntohs` on a little-endian host. -/
def ntohs (p : UInt16) : UInt16 := (p <<< 8) ||| (p >>> 8)

/-- The outcome of a `recv`: bytes, end of file (0) or an error (-1). -/
inductive RecvResult
  | data (bytes : Bytes)
  | closed
  | failed
deriving DecidableEq

/-- The buffer after `recv(fd, buffer, bufSize, 0)`; the programs drop the returned length. -/
def recv (b : Buffer bufSize) : RecvResult → Buffer bufSize
  | .data p => b.fill p
  | .closed => b
  | .failed => b

/-- A whole frame that holds a NUL-terminated text. -/
structure TextFrame extends Buffer bufSize where
  nul : 0 ∈ bytes

namespace TextFrame

def text (f : TextFrame) : Bytes := cText f.bytes

theorem nul_mem_fill {t : Bytes} (ht : t.length < bufSize) :
    0 ∈ ((Buffer.const bufSize 0).fill t).bytes := by
  rw [Buffer.fill_bytes ht.le, Buffer.const, List.drop_replicate, List.mem_append]
  exact Or.inr (List.mem_replicate.mpr ⟨by omega, rfl⟩)

/-- The frame with the text `t` and NULs behind it. -/
def ofText (t : Bytes) (ht : t.length < bufSize) : TextFrame where
  toBuffer := (Buffer.const bufSize 0).fill t
  nul := nul_mem_fill ht

theorem text_ofText {t : Bytes} (ht : t.length < bufSize) (hnul : 0 ∉ t) :
    (ofText t ht).text = t := by
  show cText ((Buffer.const bufSize 0).fill t).bytes = t
  obtain ⟨k, hk⟩ : ∃ k, bufSize - t.length = k + 1 := ⟨bufSize - t.length - 1, by omega⟩
  rw [Buffer.fill_bytes ht.le, Buffer.const, List.drop_replicate, hk, List.replicate_succ]
  exact cText_append_nul hnul _

theorem strcmpEq_text (f : TextFrame) {t : Bytes} (ht : 0 ∉ t) :
    strcmpEq f.bytes t = true ↔ f.text = t :=
  strcmpEq_iff_cText f.nul ht

end TextFrame

theorem quit_fits : (ascii "quit").length < bufSize := by decide

/-- The frame `quit`. -/
def quitFrame : TextFrame := .ofText (ascii "quit") quit_fits

theorem text_quitFrame : quitFrame.text = ascii "quit" :=
  TextFrame.text_ofText quit_fits (by decide)

end Fssn
