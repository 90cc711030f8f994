import Fssn.Tcp.Disconnect
import Fssn.Udp.EchoServer
import Fssn.Udp.Isolation

/-!
# Fssn.TextScans — how far the servers read when they take their buffer for a text

The UDP echo server prints its buffer after every receive; the UDP chat server and the TCP chat handler
compare it with their commands and print it.  `strcmp` stops at the first difference, which is inside
the buffer for every command; printing goes on to the first NUL.  All three pass the size of the whole
buffer to their receive call and put no NUL behind what they received.

`text_scans`: the scans stay inside the buffer exactly as long as some NUL, received or there at first,
has not been covered by a later payload.
-/

namespace Fssn

open Lib

/-! ### What the scans read -/

/-- How many bytes of `mem` `strcmp` reads to compare it with a literal, `none` when it reads on behind
`mem`. -/
def strcmpReads : Bytes → Bytes → Option ℕ
  | [], _ => none
  | _ :: _, [] => some 1
  | b :: mem, c :: t => if b = c then (strcmpReads mem t).map (· + 1) else some 1

/-- How many bytes of `mem` are read to print it as a `char*`. -/
def printReads : Bytes → Option ℕ
  | [] => none
  | b :: mem => if b = 0 then some 1 else (printReads mem).map (· + 1)

/-- The buffer holds a NUL, and neither a comparison with one of the commands nor printing it reads
anything else. -/
structure ScansInside (commands : List Bytes) (b : Buffer bufSize) : Prop where
  nul : 0 ∈ b.bytes
  compared : ∀ t ∈ commands, (strcmpReads b.bytes t).isSome
  printed : (printReads b.bytes).isSome

theorem strcmpReads_isSome {mem t : Bytes} (h : t.length < mem.length) :
    (strcmpReads mem t).isSome := by
  induction mem generalizing t with
  | nil => simp at h
  | cons b mem ih =>
    cases t with
    | nil => rfl
    | cons c t =>
      rw [strcmpReads]
      split_ifs
      · rw [Option.isSome_map]
        exact ih (by simpa using h)
      · rfl

theorem printReads_isSome_iff {mem : Bytes} : (printReads mem).isSome ↔ 0 ∈ mem := by
  induction mem with
  | nil => simp [printReads]
  | cons b mem ih =>
    rw [printReads, List.mem_cons]
    split_ifs with hb
    · simp [hb]
    · rw [Option.isSome_map, ih]
      constructor
      · exact Or.inr
      · rintro (h | h)
        · exact absurd h.symm hb
        · exact h

/-- All scans are inside the buffer exactly if it holds a NUL. -/
theorem scansInside_iff {commands : List Bytes} (hcmd : ∀ t ∈ commands, t.length < bufSize)
    {b : Buffer bufSize} : ScansInside commands b ↔ 0 ∈ b.bytes := by
  constructor
  · exact ScansInside.nul
  · intro hnul
    refine ⟨hnul, fun t ht => strcmpReads_isSome ?_, printReads_isSome_iff.mpr hnul⟩
    rw [b.length_eq]
    exact hcmd t ht

/-! ### The runs -/

/-- After every receive of the run `as`, some NUL stands where no payload has covered it since. -/
def NulKept {α : Type*} (payload : α → Bytes) (b : Buffer bufSize) (as : List α) : Prop :=
  ∀ pre, pre <+: as → pre ≠ [] → ∃ i, i < bufSize ∧ Buffer.NulAt b.bytes (pre.map payload) i

/-- A law of the buffer after every receive, when all scans of it stay inside if it holds a NUL. -/
theorem scans_iff_nulKept {α : Type*} {payload : α → Bytes} {b : Buffer bufSize} {as : List α}
    {law : List α → Prop} (hlaw : ∀ pre, law pre ↔ 0 ∈ (b.fills (pre.map payload)).bytes) :
    (∀ pre, pre <+: as → pre ≠ [] → law pre) ↔ NulKept payload b as := by
  unfold NulKept
  simp only [hlaw, Buffer.nul_mem_fills_iff]

section Udp

open Udp

theorem echo_buffer (b : Buffer bufSize) (ds : List Datagram) :
    (EchoServer.serve b ds).buffer = b.fills (ds.map Datagram.payload) := by
  induction ds using List.reverseRecOn with
  | nil => rfl
  | append_singleton ds d ih =>
    rw [EchoServer.serve, List.foldl_concat, List.map_append, List.map_singleton,
      Buffer.fills_concat, ← ih]
    rfl

theorem chat_buffer (b : Buffer bufSize) (ds : List Datagram) :
    ∃ w, serve b ds = some w ∧ w.server.buffer = b.fills (ds.map Datagram.payload) := by
  obtain ⟨w, hw, -, hbuf⟩ := chat_refines b ds
  refine ⟨w, hw, ?_⟩
  rw [hbuf, bufferAfter, Buffer.fills, List.foldl_map]

theorem length_commandTexts : ∀ t ∈ commandTexts, t.length < bufSize := by
  decide

end Udp

section Tcp

open Tcp

/-- The bytes that a receive result puts into the buffer. -/
def RecvResult.payload : RecvResult → Bytes
  | .data p => p
  | .closed => []
  | .failed => []

theorem recv_eq_fill (b : Buffer bufSize) (r : RecvResult) : recv b r = b.fill r.payload := by
  cases r with
  | data p => rfl
  | closed => exact (Buffer.fill_nil b).symm
  | failed => exact (Buffer.fill_nil b).symm

theorem bufferAfter_eq_fills (b : Buffer bufSize) (rs : List RecvResult) :
    bufferAfter b rs = b.fills (rs.map RecvResult.payload) := by
  have hrecv : recv = fun b r => b.fill (RecvResult.payload r) := by
    funext b r
    exact recv_eq_fill b r
  rw [bufferAfter, Buffer.fills, List.foldl_map, hrecv]

/-- The receive results that the handler's loop takes: up to the first that makes the buffer `quit`. -/
def taken : Buffer bufSize → List RecvResult → List RecvResult
  | _, [] => []
  | b, r :: rs => if isQuit (recv b r).bytes then [r] else r :: taken (recv b r) rs

/-- The texts that the handler compares and prints are those of the buffers after these results. -/
theorem texts_eq (h : Handler) (env : ℕ → Shared) (b : Buffer bufSize) (rs : List RecvResult) :
    (session h env b rs).texts =
      (taken b rs).inits.tail.map fun pre => cText (bufferAfter b pre).bytes := by
  induction rs generalizing env b with
  | nil => rfl
  | cons r rs ih =>
    rw [session, taken]
    by_cases hq : isQuit (recv b r).bytes = true
    · rw [if_pos hq, if_pos hq]
      rfl
    · rw [if_neg hq, if_neg hq]
      show _ :: (session h (fun k => env (k + 1)) (recv b r) rs).texts = _
      rw [ih, List.inits_cons, List.tail_cons, List.map_map]
      cases taken (recv b r) rs <;> rfl

end Tcp

theorem length_quit : ∀ t ∈ [ascii "quit"], t.length < bufSize := by
  intro t ht
  rw [List.mem_singleton.mp ht]
  exact quit_fits

open Udp (Datagram EchoServer.serve serve commandTexts) in
open Tcp (Shared session multithreadChat bufferAfter) in
/-- **Text scans.**  The UDP echo server, the UDP chat server and the TCP chat handler find a NUL in
their buffer after every receive, and scan nothing but the buffer, if and only if after every receive
some NUL, received or there at first, is not covered by a later payload.  The handler's run are the
receive results it takes; its texts are those of the buffer after each of them. -/
theorem text_scans (b : Buffer bufSize) :
    (∀ ds : List Datagram,
      (∀ pre, pre <+: ds → pre ≠ [] → ScansInside [] (EchoServer.serve b pre).buffer) ↔
        NulKept Datagram.payload b ds) ∧
    (∀ ds : List Datagram,
      (∀ pre, pre <+: ds → pre ≠ [] →
        ∃ w, serve b pre = some w ∧ ScansInside commandTexts w.server.buffer) ↔
        NulKept Datagram.payload b ds) ∧
    ∀ (env : ℕ → Shared) (rs : List RecvResult),
      (session multithreadChat env b rs).texts =
          (taken b rs).inits.tail.map (fun pre => cText (bufferAfter b pre).bytes) ∧
      ((∀ pre, pre <+: taken b rs → pre ≠ [] →
          ScansInside [ascii "quit"] (bufferAfter b pre)) ↔
        NulKept RecvResult.payload b (taken b rs)) := by
  refine ⟨fun ds => scans_iff_nulKept fun pre => ?_, fun ds => scans_iff_nulKept fun pre => ?_,
    fun env rs => ⟨texts_eq _ env b rs, scans_iff_nulKept fun pre => ?_⟩⟩
  · rw [scansInside_iff (by simp), echo_buffer]
  · obtain ⟨w, hw, hbuf⟩ := chat_buffer b pre
    rw [← hbuf]
    constructor
    · rintro ⟨w', hw', hscans⟩
      obtain rfl := Option.some.inj (hw.symm.trans hw')
      exact hscans.nul
    · intro hnul
      exact ⟨w, hw, (scansInside_iff length_commandTexts).mpr hnul⟩
  · rw [scansInside_iff length_quit, bufferAfter_eq_fills]

/-- A payload that fills the buffer, without a NUL. -/
def fullA : Bytes := (Buffer.const bufSize 65).bytes

theorem nul_not_mem_fullA (b : Buffer bufSize) : 0 ∉ (b.fill fullA).bytes := by
  unfold fullA
  rw [Buffer.fill_frame, Buffer.const]
  intro h
  exact absurd (List.eq_of_mem_replicate h) (by decide)

/-- It takes the only NULs from the buffer of each program. -/
theorem not_always_text_scans :
    fullA.length ≤ bufSize ∧ 0 ∈ (Buffer.const bufSize 0).bytes ∧
    ¬ ScansInside [] (Udp.EchoServer.serve (.const bufSize 0) [⟨Udp.soloClient, fullA⟩]).buffer ∧
    (∃ w, Udp.serve (.const bufSize 0) [⟨Udp.soloClient, fullA⟩] = some w ∧
      ¬ ScansInside Udp.commandTexts w.server.buffer) ∧
    ¬ ScansInside [ascii "quit"] (Tcp.bufferAfter (.const bufSize 0) [.data fullA]) := by
  refine ⟨(Buffer.const bufSize 65).length_eq.le, List.mem_replicate.mpr ⟨by decide, rfl⟩, ?_, ?_, ?_⟩
  · intro h
    exact nul_not_mem_fullA _ h.nul
  · obtain ⟨w, hw, hbuf⟩ := chat_buffer (.const bufSize 0) [⟨Udp.soloClient, fullA⟩]
    refine ⟨w, hw, fun h => nul_not_mem_fullA (.const bufSize 0) ?_⟩
    have hnul := h.nul
    rw [hbuf] at hnul
    exact hnul
  · intro h
    exact nul_not_mem_fullA _ h.nul

end Fssn
