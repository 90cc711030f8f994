import Fssn.Tcp.EchoSession

/-!
# Fssn.ChatClient — the chat clients with two threads

`lec-03-prg-07` (TCP) and `lec-03-prg-09` (UDP).  `main` reads words and sends each in a whole buffer,
`ReceiveHandler` prints what arrives, and both write on one screen.  Each statement is a step.

A frame that holds a word (`Holds`) is shown as one line, and the screen has one line for each frame
received, in order, among the two lines of `main` (`Client.Shows`).
-/

namespace Fssn.ChatClient

open Fssn.Lib
open Tcp (isQuit)
open Tcp.EchoSession (Word)

/-- The two programs. -/
inductive Program
  | tcp
  | udp

/-- Where `main` stands, with the word it is about to send. -/
inductive MainPc
  | activate
  | read
  | send (w : Word)
  | test
  | left

/-- Where `ReceiveHandler` stands, with the origin of the frame at hand. -/
inductive ReceivePc (κ : Type*)
  | recv
  | print (origin : κ)

/-- A client: the buffers of its two threads, the words it has sent, the frames it has shown and where
they came from, and its screen. -/
structure Client (κ : Type*) where
  buffer : Buffer bufSize
  pc : MainPc
  typed : List Word
  received : Buffer bufSize
  rpc : ReceivePc κ
  got : List (κ × Buffer bufSize)
  out : Bytes

variable {κ : Type*}

def activated : Bytes := ascii "echo-client is activated\n"

def deactivated : Bytes := ascii "echo-client is de-activated\n"

/-- What `ReceiveHandler` prints for a text. -/
def line (t : Bytes) : Bytes := ascii "> received: " ++ t ++ ascii "\n"

/-- The statements that use no connection. -/
inductive Call
  | activate
  | read (w : Word)
  | test
  | print

def Client.call (v : Client κ) (c : Call) : Option (Client κ) :=
  match c, v.pc, v.rpc with
  | .activate, .activate, _ => some { v with out := v.out ++ activated, pc := .read }
  | .read w, .read, _ => some { v with buffer := w.read v.buffer, pc := .send w }
  | .test, .test, _ =>
    -- `exit(1)` ends the other thread, too
    if isQuit v.buffer.bytes then some { v with out := v.out ++ deactivated, pc := .left }
    else some { v with pc := .read }
  | .print, .left, _ => none
  | .print, _, .print origin => some { v with
      out := if strcmpEq v.received.bytes [] then v.out else v.out ++ line (cText v.received.bytes)
      received := v.received.fill [0]
      rpc := .recv
      got := v.got ++ [(origin, v.received)] }
  | _, _, _ => none

/-- `send` or `sendto` of the whole buffer. -/
def Client.send (v : Client κ) : Option (Client κ) :=
  match v.pc with
  | .send w => some { v with pc := .test, typed := v.typed ++ [w] }
  | _ => none

/-- `recv` or `recvfrom` into the buffer of `ReceiveHandler`. -/
def Client.receive (p : Program) (v : Client κ) (x : κ × Buffer bufSize) : Option (Client κ) :=
  match p, v.pc, v.rpc with
  | _, .left, _ => none
  -- the UDP client starts the thread after it has printed its first line
  | .udp, .activate, _ => none
  | _, _, .recv => some { v with received := recv v.received (.data x.2.bytes), rpc := .print x.1 }
  | _, _, _ => none

/-- The client has closed its connection. -/
def Client.closed (v : Client κ) : Bool :=
  match v.pc with
  | .left => true
  | _ => false

theorem closed_iff (v : Client κ) : v.closed = true ↔ v.pc = .left := by
  unfold Client.closed
  cases v.pc <;> simp

/-! ### The screen -/

/-- The text that is printed of a frame. -/
def text (f : Buffer bufSize) : Bytes := cText f.bytes

/-- The lines for some frames. -/
def lines (l : List (κ × Buffer bufSize)) : Bytes := (l.map fun x => line (text x.2)).flatten

/-- The frame in the hand of `ReceiveHandler`. -/
def Client.hand (v : Client κ) : List (κ × Buffer bufSize) :=
  match v.rpc with
  | .recv => []
  | .print origin => [(origin, v.received)]

/-- The screen has a line for each frame that was shown, and what `main` says. -/
def Client.Shows (v : Client κ) : Prop :=
  match v.pc with
  | .activate => v.out = lines v.got
  | .left => ∃ l r, v.got = l ++ r ∧ v.out = lines l ++ activated ++ lines r ++ deactivated
  | _ => ∃ l r, v.got = l ++ r ∧ v.out = lines l ++ activated ++ lines r

/-- A statement of one client: what holds of each client by itself. -/
theorem forall_update {ι : Type*} [DecidableEq ι] {P : ι → Client κ → Prop} {clients : ι → Client κ}
    {i : ι} {v : Client κ} (h : ∀ j, P j (clients j)) (hv : P i v) (j : ι) : P j (Function.update clients i v j) := by
  by_cases hj : j = i
  · subst hj
    rw [Function.update_self]
    exact hv
  · rw [Function.update_of_ne hj]
    exact h j

/-! ### Frames and words -/

/-- The frame holds the word, whatever is behind the word's NUL. -/
structure Holds (f : Buffer bufSize) (w : Word) : Prop where
  text : text f = w.text
  quit : isQuit f.bytes = decide (w.text = ascii "quit")

theorem holds_read (w : Word) (b : Buffer bufSize) : Holds (w.read b) w :=
  ⟨Tcp.EchoSession.cText_read w b, Tcp.EchoSession.isQuit_read w b⟩

/-- `ReceiveHandler` prints a frame that holds a word. -/
theorem Holds.shown {f : Buffer bufSize} {w : Word} (h : Holds f w) :
    strcmpEq f.bytes [] = false := by
  have htext := h.text
  unfold ChatClient.text at htext
  cases hf : f.bytes with
  | nil => rfl
  | cons b r =>
    refine beq_eq_false_iff_ne.mpr fun hb => w.ne_nil ?_
    rw [← htext, hf, hb]
    rfl

/-- Behind a word that fits there is a NUL. -/
theorem Holds.nul {f : Buffer bufSize} {w : Word} (h : Holds f w) : 0 ∈ f.bytes := by
  by_contra hno
  have hlen : (ChatClient.text f).length = bufSize := by
    rw [ChatClient.text, cText_eq_self hno, Buffer.length_eq]
  have hfits := w.fits
  rw [h.text] at hlen
  omega

/-- The frames that are not `quit`. -/
def nonQuit (l : List (Buffer bufSize)) : List (Buffer bufSize) :=
  l.filter fun f => !isQuit f.bytes

/-- The words that are not `quit`. -/
def said (ws : List Word) : List Word := ws.filter fun w => w.text ≠ ascii "quit"

theorem nonQuit_append (l r : List (Buffer bufSize)) : nonQuit (l ++ r) = nonQuit l ++ nonQuit r :=
  List.filter_append l r

theorem nonQuit_one (f : Buffer bufSize) : nonQuit [f] = if isQuit f.bytes then [] else [f] := by
  unfold nonQuit
  by_cases hq : isQuit f.bytes = true
  · rw [List.filter_cons_of_neg (by simp [hq]), if_pos hq]
    rfl
  · rw [List.filter_cons_of_pos (by simp [hq]), if_neg hq]
    rfl

theorem said_texts {fs : List (Buffer bufSize)} {ws : List Word} (h : List.Forall₂ Holds fs ws) :
    (nonQuit fs).map text = (said ws).map Word.text := by
  induction h with
  | nil => rfl
  | @cons f w fs ws hf _ ih =>
    unfold nonQuit said
    by_cases hq : w.text = ascii "quit"
    · rw [List.filter_cons_of_neg (by simp [hf.quit, hq]), List.filter_cons_of_neg (by simp [hq])]
      exact ih
    · rw [List.filter_cons_of_pos (by simp [hf.quit, hq]), List.filter_cons_of_pos (by simp [hq]),
        List.map_cons, List.map_cons, hf.text]
      exact congrArg _ ih

theorem exists_word {fs : List (Buffer bufSize)} {ws : List Word} (h : List.Forall₂ Holds fs ws)
    {f : Buffer bufSize} (hf : f ∈ fs) : ∃ w ∈ ws, Holds f w := by
  induction h with
  | nil => exact absurd hf List.not_mem_nil
  | cons hfw _ ih =>
    rcases List.mem_cons.mp hf with rfl | hf
    · exact ⟨_, List.mem_cons_self, hfw⟩
    · obtain ⟨w, hw, hholds⟩ := ih hf
      exact ⟨w, List.mem_cons_of_mem _ hw, hholds⟩

/-- A client that leaves its loop has typed `quit`. -/
def Client.Leaving (v : Client κ) : Prop :=
  (v.pc = .test → ∃ w ∈ v.typed, Holds v.buffer w) ∧
    (v.pc = .left → ∃ w ∈ v.typed, w.text = ascii "quit")

theorem lines_append (l r : List (κ × Buffer bufSize)) : lines (l ++ r) = lines l ++ lines r := by
  rw [lines, List.map_append, List.flatten_append]
  rfl

/-! ### One client -/

section Client

variable {v v' : Client κ}

/-- A statement without a connection leaves what was typed by the client and what was sent to it. -/
theorem call_stream {c : Call} (h : v.call c = some v') :
    v'.typed = v.typed ∧ v'.got ++ v'.hand = v.got ++ v.hand := by
  unfold Client.call at h
  split at h
  · exact Option.some.inj h ▸ ⟨rfl, rfl⟩
  · exact Option.some.inj h ▸ ⟨rfl, rfl⟩
  · split_ifs at h
    · exact Option.some.inj h ▸ ⟨rfl, rfl⟩
    · exact Option.some.inj h ▸ ⟨rfl, rfl⟩
  · exact absurd h (by simp)
  · rename_i origin hrpc _
    obtain rfl := Option.some.inj h
    refine ⟨rfl, ?_⟩
    rw [show v.hand = [(origin, v.received)] by rw [Client.hand, hrpc]]
    exact List.append_nil _
  · exact absurd h (by simp)

/-- The buffer that a client is about to send holds the word it has read. -/
theorem call_sending {c : Call} (h : v.call c = some v')
    (hold : ∀ w, v.pc = .send w → Holds v.buffer w) : ∀ w, v'.pc = .send w → Holds v'.buffer w := by
  intro w hw
  unfold Client.call at h
  split at h
  · obtain rfl := Option.some.inj h
    exact absurd hw (by simp)
  · obtain rfl := Option.some.inj h
    obtain rfl := MainPc.send.inj hw
    exact holds_read _ v.buffer
  · split_ifs at h
    · obtain rfl := Option.some.inj h
      exact absurd hw (by simp)
    · obtain rfl := Option.some.inj h
      exact absurd hw (by simp)
  · exact absurd h (by simp)
  · obtain rfl := Option.some.inj h
    exact hold w hw
  · exact absurd h (by simp)

/-- The loop is left behind a `quit`. -/
theorem call_leaving {c : Call} (h : v.call c = some v') (hold : v.Leaving) : v'.Leaving := by
  unfold Client.call at h
  split at h
  · obtain rfl := Option.some.inj h
    exact ⟨fun hpc => absurd hpc (by simp), fun hpc => absurd hpc (by simp)⟩
  · obtain rfl := Option.some.inj h
    exact ⟨fun hpc => absurd hpc (by simp), fun hpc => absurd hpc (by simp)⟩
  · rename_i hpc
    split_ifs at h with hq
    · obtain rfl := Option.some.inj h
      refine ⟨fun hpc => absurd hpc (by simp), fun _ => ?_⟩
      obtain ⟨w, hw, hholds⟩ := hold.1 hpc
      exact ⟨w, hw, of_decide_eq_true (hholds.quit ▸ hq)⟩
    · obtain rfl := Option.some.inj h
      exact ⟨fun hpc => absurd hpc (by simp), fun hpc => absurd hpc (by simp)⟩
  · exact absurd h (by simp)
  · obtain rfl := Option.some.inj h
    exact hold
  · exact absurd h (by simp)

/-- A line is printed for the frame in hand, and `main` prints what it should. -/
theorem call_shows {c : Call} (h : v.call c = some v') (hgood : ∀ x ∈ v.hand, ∃ w, Holds x.2 w)
    (hs : v.Shows) : v'.Shows := by
  unfold Client.Shows at hs
  unfold Client.call at h
  split at h
  · rename_i hpc
    obtain rfl := Option.some.inj h
    rw [hpc] at hs
    refine ⟨v.got, [], (List.append_nil _).symm, ?_⟩
    dsimp only at hs ⊢
    rw [hs]
    exact (List.append_nil _).symm
  · rename_i w hpc
    obtain rfl := Option.some.inj h
    rw [hpc] at hs
    exact hs
  · rename_i hpc
    rw [hpc] at hs
    split_ifs at h with hq
    · obtain rfl := Option.some.inj h
      obtain ⟨l, r, hgot, hout⟩ := hs
      exact ⟨l, r, hgot, by rw [hout]⟩
    · obtain rfl := Option.some.inj h
      exact hs
  · exact absurd h (by simp)
  · rename_i origin hrpc hleft
    obtain rfl := Option.some.inj h
    obtain ⟨w, hw⟩ := hgood (origin, v.received) (by rw [Client.hand, hrpc]; exact List.mem_cons_self)
    have hline : lines [(origin, v.received)] = line (cText v.received.bytes) := List.append_nil _
    unfold Client.Shows
    dsimp only
    rw [if_neg (by rw [hw.shown]; simp), ← hline]
    cases hpc : v.pc with
    | activate =>
      rw [hpc] at hs
      dsimp only at hs ⊢
      rw [hs, lines_append]
    | left => exact absurd hpc hleft
    | _ =>
      rw [hpc] at hs
      obtain ⟨l, r, hgot, hout⟩ := hs
      refine ⟨l, r ++ [(origin, v.received)], ?_, ?_⟩
      · rw [hgot, List.append_assoc]
      · rw [hout, lines_append, ← List.append_assoc]
  · exact absurd h (by simp)

theorem receive_some {x : κ × Buffer bufSize} {p : Program} (h : v.receive p x = some v') :
    v'.typed = v.typed ∧ v.hand = [] ∧ v'.got = v.got ∧ v'.hand = [x] ∧ v'.pc = v.pc ∧
      v'.buffer = v.buffer ∧ (v.Shows → v'.Shows) := by
  unfold Client.receive at h
  split at h
  · exact absurd h (by simp)
  · exact absurd h (by simp)
  · rename_i hrpc _ _
    obtain rfl := Option.some.inj h
    refine ⟨rfl, by rw [Client.hand, hrpc], rfl, ?_, rfl, rfl, fun hs => hs⟩
    exact congrArg (fun f => [(x.1, f)]) (Buffer.fill_frame _ _)
  · exact absurd h (by simp)

/-- `ReceiveHandler` prints what it has in hand. -/
theorem print_some (h : v.call .print = some v') :
    v.hand ≠ [] ∧ v'.hand = [] ∧ v'.pc = v.pc := by
  unfold Client.call at h
  split at h
  · contradiction
  · contradiction
  · contradiction
  · exact absurd h (by simp)
  · rename_i sender hrpc _
    obtain rfl := Option.some.inj h
    exact ⟨by simp [Client.hand, hrpc], rfl, rfl⟩
  · exact absurd h (by simp)

/-- A client that has not left prints what it has in hand. -/
theorem print_none (h : v.call .print = none) (hpc : v.pc ≠ .left) : v.rpc = .recv := by
  cases hrpc : v.rpc with
  | recv => rfl
  | print origin =>
    unfold Client.call at h
    rw [hrpc] at h
    cases hv : v.pc with
    | left => exact absurd hv hpc
    | _ =>
      rw [hv] at h
      exact absurd h (by simp)

/-- With nothing in hand it receives. -/
theorem receive_none (hrpc : v.rpc = .recv) (hpc : v.pc ≠ .left) (x : κ × Buffer bufSize) :
    v.receive .tcp x ≠ none := by
  unfold Client.receive
  rw [hrpc]
  cases hv : v.pc with
  | left => exact absurd hv hpc
  | _ => simp

theorem send_some (h : v.send = some v') :
    ∃ w, v.pc = .send w ∧ v' = { v with pc := .test, typed := v.typed ++ [w] } := by
  unfold Client.send at h
  split at h
  · rename_i w hpc
    exact ⟨w, hpc, (Option.some.inj h).symm⟩
  · exact absurd h (by simp)

end Client

end Fssn.ChatClient
