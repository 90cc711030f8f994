import Fssn.Lib.Chunks
import Fssn.Lib.Decimal
import Fssn.Socket

/-!
# Fssn.Tcp.Session — the receive loop of the TCP servers

All TCP servers talk to a client in the same loop: `recv` into a 1024-byte buffer, compare the
buffer with `quit`, print, and `send` the whole buffer.  They drop the length that `recv` returns,
so they take every receive result for one frame.

A `Delivery` is what a client sends together with the chunks in which TCP hands it over.  `framing`
says for which chunks the server sees the client's frames; `not_always_framed` has chunks for which
it does not.
-/

namespace Fssn.Tcp

open Fssn.Lib

/-- What one turn of the loop reads of the variables it shares with other threads: `threadNum`
where it is printed, and the entries of `group_queue` it sends to. -/
structure Shared where
  threadNum : ℤ
  group_queue : List ℤ

/-- What the servers' loops do differently: whom they send to and what they print. -/
structure Handler where
  dest : Shared → List ℤ
  onFrame : Shared → Bytes → Bytes
  onQuit : Shared → Bytes → Bytes

/-- The single-client servers print every text before they compare it. -/
def received (t : Bytes) : Bytes := ascii "received: " ++ t ++ ascii "\n"

/-- `lec-03-prg-01` and `lec-03-prg-03`. -/
def echoServer (client : ℤ) : Handler where
  dest _ := [client]
  onFrame _ t := received t
  onQuit _ t := received t

/-- `lec-03-prg-05`, between two `accept`s. -/
def socketserver (client : ℤ) : Handler where
  dest _ := [client]
  onFrame _ t := received t
  onQuit _ t := received t

/-- `SocketHandler` of `lec-03-prg-06`, in the thread that prints as `this_id`. -/
def multithread (server : ℤ) (this_id : Bytes) : Handler where
  dest _ := [server]
  onFrame _ t := ascii "echoed: " ++ t ++ ascii "  By Thread-" ++ this_id ++ ascii "\n"
  onQuit s _ :=
    let line := ascii "active threads are remained: " ++ toStringInt (s.threadNum - 1) ++ ascii "\n"
    if s.threadNum - 1 = 0 then line ++ ascii "Do you want to exit program? (y/n) " else line

/-- `SocketHandler` of `lec-03-prg-08`. -/
def multithreadChat : Handler where
  dest s := s.group_queue
  onFrame s t := ascii "received ( " ++ t ++ ascii " ) and echoed to " ++ toStringInt s.threadNum ++
    ascii " clients\n"
  onQuit _ _ := []

/-- The TCP echo and chat servers. -/
inductive Program
  | echo (client : ℤ)
  | socketserver (client : ℤ)
  | multithread (server : ℤ) (this_id : Bytes)
  | multithreadChat

def Program.handler : Program → Handler
  | .echo client => echoServer client
  | .socketserver client => Tcp.socketserver client
  | .multithread server this_id => Tcp.multithread server this_id
  | .multithreadChat => Tcp.multithreadChat

/-- What a session has done: the texts it compared with `quit`, what it sent and to whom, what it
printed, and whether a `quit` has ended it. -/
structure Session where
  texts : List Bytes
  sent : List (List ℤ × Buffer bufSize)
  out : Bytes
  ended : Bool

def isQuit (t : Bytes) : Bool := strcmpEq t (ascii "quit")

/-- The loop over the receive results; `env k` is what its `k`-th turn sees of the other threads.
It stays in the loop after a closed or failed receive. -/
def session (h : Handler) : (ℕ → Shared) → Buffer bufSize → List RecvResult → Session
  | _, _, [] => ⟨[], [], [], false⟩
  | env, b, r :: rs =>
    let buffer := recv b r
    let text := cText buffer.bytes
    if isQuit buffer.bytes then
      ⟨[text], [], h.onQuit (env 0) text, true⟩
    else
      let s := session h (fun k => env (k + 1)) buffer rs
      ⟨text :: s.texts, (h.dest (env 0), buffer) :: s.sent, h.onFrame (env 0) text ++ s.out, s.ended⟩

/-! ### What the client sent -/

/-- The frames up to the first `quit`, it included. -/
def handled : List TextFrame → List TextFrame
  | [] => []
  | f :: fs => if isQuit f.bytes then [f] else f :: handled fs

/-- The frames before the first `quit`. -/
def relayed (fs : List TextFrame) : List TextFrame := fs.takeWhile fun f => !isQuit f.bytes

/-- The session handled the frames `fs`: their texts were compared, the ones before a `quit` were
sent unaltered, the `i`-th to `dest i`, and it ended exactly if there was a `quit`. -/
structure FramedRight (dest : ℕ → List ℤ) (s : Session) (fs : List TextFrame) : Prop where
  texts : s.texts = (handled fs).map TextFrame.text
  sent : s.sent = (relayed fs).mapIdx fun i f => (dest i, f.toBuffer)
  ended : s.ended = fs.any fun f => isQuit f.bytes

theorem FramedRight.buffers {dest : ℕ → List ℤ} {s : Session} {fs : List TextFrame}
    (h : FramedRight dest s fs) : s.sent.map Prod.snd = (relayed fs).map TextFrame.toBuffer := by
  apply List.ext_getElem
  · rw [h.sent, List.length_map, List.length_mapIdx, List.length_map]
  · intro i hi hi'
    simp only [h.sent, List.getElem_map, List.getElem_mapIdx]

/-- The bytes a client writes for its frames. -/
def streamOf (fs : List TextFrame) : Bytes := (fs.map fun f => f.bytes).flatten

/-- A client's frames and the receive results that deliver them. -/
structure Delivery where
  frames : List TextFrame
  chunks : List Bytes
  splits : Splits bufSize chunks (streamOf frames)

namespace Delivery

/-- The sizes of the receive results: the way TCP split the stream. -/
def sizes (d : Delivery) : List ℕ := d.chunks.map List.length

/-- Every receive result that the loop reads before a `quit` frame ends it is a whole frame. -/
def Whole (d : Delivery) : Prop :=
  ∀ c ∈ d.chunks.take (handled d.frames).length, c.length = bufSize

/-- Whatever the buffer held before and the other threads do, the session handles the frames. -/
def Framed (p : Program) (d : Delivery) : Prop :=
  ∀ env b, FramedRight (fun i => p.handler.dest (env i)) (session p.handler env b (d.chunks.map .data))
    d.frames

end Delivery

/-! ### Whole receive results -/

section Turn

variable {h : Handler} {env : ℕ → Shared} {b : Buffer bufSize} {c : Bytes} {rs : List RecvResult}

theorem session_quit (hc : isQuit (b.fill c).bytes = true) :
    session h env b (.data c :: rs) =
      ⟨[cText (b.fill c).bytes], [], h.onQuit (env 0) (cText (b.fill c).bytes), true⟩ := by
  rw [session]
  exact if_pos hc

theorem session_frame (hc : isQuit (b.fill c).bytes = false) :
    session h env b (.data c :: rs) =
      let s := session h (fun k => env (k + 1)) (b.fill c) rs
      ⟨cText (b.fill c).bytes :: s.texts, (h.dest (env 0), b.fill c) :: s.sent,
        h.onFrame (env 0) (cText (b.fill c).bytes) ++ s.out, s.ended⟩ := by
  rw [session]
  exact if_neg (by simp [recv, hc])

/-- A session that has not ended has read every receive result and sent its buffer for each. -/
theorem lengths (hend : (session h env b rs).ended = false) :
    (session h env b rs).texts.length = rs.length ∧
      (session h env b rs).sent.length = rs.length := by
  induction rs generalizing env b with
  | nil => exact ⟨rfl, rfl⟩
  | cons r rs ih =>
    rw [session] at hend ⊢
    split at hend
    · exact absurd hend (by simp)
    · rename_i hq
      obtain ⟨htexts, hsent⟩ := ih hend
      rw [if_neg hq]
      constructor
      · rw [List.length_cons, List.length_cons, htexts]
      · rw [List.length_cons, List.length_cons, hsent]

end Turn

theorem streamOf_cons (f : TextFrame) (fs : List TextFrame) :
    streamOf (f :: fs) = f.bytes ++ streamOf fs := rfl

theorem length_streamOf (fs : List TextFrame) : (streamOf fs).length = fs.length * bufSize := by
  induction fs with
  | nil => rfl
  | cons f fs ih =>
    rw [streamOf_cons, List.length_append, f.length_eq, ih, List.length_cons, Nat.succ_mul,
      Nat.add_comm]

/-- Whole receive results are the frames, whatever the buffer held. -/
theorem framedRight_of_whole (h : Handler) (env : ℕ → Shared) (b : Buffer bufSize)
    {fs : List TextFrame} {cs : List Bytes} (hs : Splits bufSize cs (streamOf fs))
    (hw : ∀ c ∈ cs.take (handled fs).length, c.length = bufSize) :
    FramedRight (fun i => h.dest (env i)) (session h env b (cs.map .data)) fs := by
  induction fs generalizing cs env b with
  | nil =>
    obtain rfl := hs.eq_nil
    exact ⟨rfl, rfl, rfl⟩
  | cons f fs ih =>
    rw [streamOf_cons] at hs
    obtain ⟨c, cs, rfl⟩ : ∃ c cs', cs = c :: cs' := by
      cases cs with
      | nil =>
        have hnil : f.bytes = [] := (List.append_eq_nil_iff.mp hs.flatten_eq.symm).1
        exact absurd (hnil ▸ f.nul) List.not_mem_nil
      | cons c cs => exact ⟨c, cs, rfl⟩
    have hlen : (handled (f :: fs)).length ≠ 0 := by
      rw [handled]
      split <;> simp
    obtain ⟨k, hk⟩ := Nat.exists_eq_succ_of_ne_zero hlen
    rw [hk, List.take_succ_cons] at hw
    -- the first chunk is the first frame and overwrites the whole buffer
    obtain rfl := hs.head_eq (hw c List.mem_cons_self) f.length_eq
    have hfill : b.fill f.bytes = f.toBuffer := Buffer.fill_frame b f.toBuffer
    rw [List.map_cons]
    by_cases hq : isQuit f.bytes = true
    · rw [session_quit (by rw [hfill]; exact hq), hfill]
      refine ⟨?_, ?_, ?_⟩
      · rw [handled, if_pos hq]
        rfl
      · rw [relayed, List.takeWhile_cons_of_neg (by simp [hq])]
        rfl
      · rw [List.any_cons, hq]
        rfl
    · rw [Bool.not_eq_true] at hq
      rw [handled, if_neg (by simp [hq]), List.length_cons, Nat.succ.injEq] at hk
      obtain ⟨htexts, hsent, hended⟩ := ih (fun k => env (k + 1)) f.toBuffer hs.tail fun c hc =>
        hw c (List.mem_cons_of_mem _ (hk ▸ hc))
      rw [session_frame (by rw [hfill]; exact hq), hfill]
      refine ⟨?_, ?_, ?_⟩
      · rw [handled, if_neg (by simp [hq]), List.map_cons, ← htexts]
        rfl
      · rw [relayed, List.takeWhile_cons_of_pos (by simp [hq]), List.mapIdx_cons]
        exact congrArg _ hsent
      · rw [List.any_cons, hq, Bool.false_or]
        exact hended

/-- The frames themselves, one in each receive result, are handled. -/
theorem framedRight_frames (h : Handler) (env : ℕ → Shared) (b : Buffer bufSize)
    (fs : List TextFrame) : FramedRight (fun i => h.dest (env i))
      (session h env b (fs.map fun f => .data f.bytes)) fs := by
  have hsplit : Splits bufSize (fs.map fun f => f.bytes) (streamOf fs) := by
    refine ⟨?_, ?_, rfl⟩
    · rintro _ hc
      obtain ⟨f, -, rfl⟩ := List.mem_map.mp hc
      exact List.length_pos_of_mem f.nul
    · rintro _ hc
      obtain ⟨f, -, rfl⟩ := List.mem_map.mp hc
      exact f.length_eq.le
  have hframed := framedRight_of_whole h env b hsplit fun c hc => by
    obtain ⟨f, -, rfl⟩ := List.mem_map.mp (List.mem_of_mem_take hc)
    exact f.length_eq
  rw [List.map_map] at hframed
  exact hframed

/-! ### Short receive results -/

theorem handled_eq_self {fs : List TextFrame} (hq : ∀ f ∈ fs, isQuit f.bytes = false) :
    handled fs = fs := by
  induction fs with
  | nil => rfl
  | cons f fs ih =>
    rw [handled, if_neg (by simp [hq f List.mem_cons_self]),
      ih fun g hg => hq g (List.mem_cons_of_mem _ hg)]

/-- Without a `quit`, a session that handled the frames had one receive result for each of them. -/
theorem whole_of_framedRight {h : Handler} {env : ℕ → Shared} {b : Buffer bufSize}
    {fs : List TextFrame} {cs : List Bytes} (hs : Splits bufSize cs (streamOf fs))
    (hq : ∀ f ∈ fs, isQuit f.bytes = false)
    (hf : FramedRight (fun i => h.dest (env i)) (session h env b (cs.map .data)) fs) :
    ∀ c ∈ cs, c.length = bufSize := by
  have hend : (session h env b (cs.map .data)).ended = false := by
    rw [hf.ended, List.any_eq_false]
    intro f hmem
    simp [hq f hmem]
  have hlen : fs.length = cs.length := by
    have := (lengths hend).1
    rwa [hf.texts, handled_eq_self hq, List.length_map, List.length_map] at this
  apply hs.whole_of_length
  rw [length_streamOf, hlen]

/-- A frame that is no `quit`. -/
def emptyFrame : TextFrame := .ofText [] (by decide)

theorem isQuit_emptyFrame : isQuit emptyFrame.bytes = false := by
  rw [← Bool.not_eq_true, isQuit, emptyFrame.strcmpEq_text (by decide), emptyFrame,
    TextFrame.text_ofText (by decide) (by decide)]
  decide

namespace Delivery

variable {p : Program} {d : Delivery}

theorem Whole.framed (hw : d.Whole) : d.Framed p :=
  fun env b => framedRight_of_whole p.handler env b d.splits hw

theorem Framed.whole (hq : ∀ f ∈ d.frames, isQuit f.bytes = false) (hf : d.Framed p) :
    ∀ k ∈ d.sizes, k = bufSize := by
  intro k hk
  obtain ⟨c, hc, rfl⟩ := List.mem_map.mp hk
  exact whole_of_framedRight d.splits hq
    (hf (fun _ => ⟨0, []⟩) (.const bufSize 0)) c hc

theorem whole_of_sizes (h : ∀ k ∈ d.sizes, k = bufSize) : d.Whole :=
  fun _ hc => h _ (List.mem_map_of_mem (List.mem_of_mem_take hc))

/-- The same splitting of a stream of empty texts. -/
def blank (d : Delivery) : Delivery where
  frames := List.replicate d.frames.length emptyFrame
  chunks := d.sizes.splitLengths (streamOf (List.replicate d.frames.length emptyFrame))
  splits := (d.splits.resplit (by rw [length_streamOf, length_streamOf, List.length_replicate])).1

theorem sizes_blank (d : Delivery) : d.blank.sizes = d.sizes :=
  (d.splits.resplit (by rw [length_streamOf, length_streamOf, List.length_replicate])).2

end Delivery

open Delivery

/-- **Framing.**  For every TCP server:

* a delivery whose receive results up to the `quit` are whole frames is handled as the frames are;
* for frames without a `quit` that is also necessary;
* a way of splitting the stream handles every list of frames right if and only if all its receive
  results have 1024 bytes. -/
theorem framing (p : Program) :
    (∀ d : Delivery, d.Whole → d.Framed p) ∧
    (∀ d : Delivery, (∀ f ∈ d.frames, f.text ≠ ascii "quit") → (d.Framed p ↔ d.Whole)) ∧
    (∀ d₀ : Delivery, (∀ d : Delivery, d.sizes = d₀.sizes → d.Framed p) ↔
      ∀ k ∈ d₀.sizes, k = bufSize) := by
  refine ⟨fun d => Whole.framed, fun d hq => ⟨fun hf => ?_, Whole.framed⟩, fun d₀ => ⟨?_, ?_⟩⟩
  · refine whole_of_sizes (hf.whole fun f hmem => ?_)
    rw [← Bool.not_eq_true, isQuit, f.strcmpEq_text (by decide)]
    exact hq f hmem
  · intro hall
    have hf := hall d₀.blank d₀.sizes_blank
    rw [← d₀.sizes_blank]
    refine hf.whole fun f hmem => ?_
    rw [List.eq_of_mem_replicate hmem]
    exact isQuit_emptyFrame
  · intro hk d hd
    exact (whole_of_sizes (hd ▸ hk)).framed

/-- The frame `hi`. -/
def hi : TextFrame := .ofText (ascii "hi") (by decide)

/-- The frame `hi` in two receive results, the first of one byte. -/
def splitHi : Delivery where
  frames := [hi]
  chunks := [hi.bytes.take 1, hi.bytes.drop 1]
  splits :=
    { pos := by
        simp only [List.forall_mem_cons, List.length_take, List.length_drop, hi.length_eq]
        simp
      le := by
        simp only [List.forall_mem_cons, List.length_take, List.length_drop, hi.length_eq]
        simp [bufSize]
      flatten_eq := by
        rw [streamOf_cons, List.flatten_cons, List.flatten_cons, ← List.append_assoc,
          List.take_append_drop]
        rfl }

/-- A frame that arrives in two pieces is taken for two frames. -/
theorem not_always_framed : ¬ ∀ (p : Program) (d : Delivery), d.Framed p := by
  intro h
  have hq : ∀ f ∈ splitHi.frames, isQuit f.bytes = false := by
    intro f hf
    rw [List.mem_singleton.mp hf]
    rfl
  have hsize : (hi.bytes.take 1).length = bufSize :=
    (h (.echo 4) splitHi).whole hq _ List.mem_cons_self
  rw [List.length_take, hi.length_eq] at hsize
  exact absurd hsize (by decide)

end Fssn.Tcp
