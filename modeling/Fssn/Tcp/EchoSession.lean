import Fssn.Lib.Duplex
import Fssn.Tcp.Session

/-!
# Fssn.Tcp.EchoSession — the echo client against the echo server

The client (`lec-03-prg-02`, `lec-03-prg-04`) reads a word into its buffer, sends all of the buffer
and waits for a frame, which overwrites that buffer.  The server (`lec-03-prg-01`, `lec-03-prg-03`)
prints what it receives before it compares it, so it prints the `quit` that the client does not
print.  Behind the NUL of a word both buffers keep bytes of earlier words.

* `server_session`: the server process is the loop of `Tcp.session`.
* `echo_session`: every run of the two is finite and can be carried on to its end, and what the two
  have printed there are the words.
-/

namespace Fssn.Tcp.EchoSession

open Fssn.Lib

/-- `isspace` in the "C" locale. -/
def isspace (b : UInt8) : Bool := b == 32 || (9 ≤ b && b ≤ 13)

/-- A word that `cin >> buffer` reads whole and without leaving the buffer. -/
structure Word where
  text : Bytes
  ne_nil : text ≠ []
  nul_free : 0 ∉ text
  no_space : ∀ b ∈ text, isspace b = false
  fits : text.length < bufSize

/-- `cin >> buffer`: the word and its NUL; the rest of the buffer stays. -/
def Word.read (w : Word) (b : Buffer bufSize) : Buffer bufSize := b.fill (w.text ++ [0])

/-! ### The client -/

inductive ClientPc
  | read
  | send
  | compare
  | recv
  | print
  | left
deriving DecidableEq

/-- The client's loop: `cin` is what is still to be typed, `sent` the frames it has sent. -/
structure Client where
  cin : List Word
  buffer : Buffer bufSize
  isExit : Bool
  pc : ClientPc
  out : Bytes
  sent : List (Buffer bufSize)

/-- The two client programs. -/
inductive ClientProgram
  | echoClient
  | echoClientComplete

/-- What the client prints in front of an echoed text. -/
def ClientProgram.label : ClientProgram → Bytes
  | .echoClient => ascii "echoed: "
  | .echoClientComplete => ascii "received: "

def ClientProgram.line (p : ClientProgram) (t : Bytes) : Bytes := p.label ++ t ++ ascii "\n"

def ClientProgram.next (p : ClientProgram) (c : Client) : Next Client (Buffer bufSize) :=
  match c.pc with
  | .read =>
    match c.cin with
    | [] => .none -- `cin` waits for the next word
    | w :: ws => .local { c with cin := ws, buffer := w.read c.buffer, pc := .send }
  | .send => .send c.buffer { c with sent := c.sent ++ [c.buffer], pc := .compare }
  | .compare =>
    if isQuit c.buffer.bytes then .local { c with isExit := true, pc := .left }
    else .local { c with pc := .recv }
  | .recv => .recv fun f => { c with buffer := recv c.buffer (.data f.bytes), pc := .print }
  | .print => .local { c with
      out := c.out ++ p.line (cText c.buffer.bytes)
      pc := if c.isExit then .left else .read }
  | .left => .none

/-! ### The server -/

inductive ServerPc
  | announce
  | recv
  | print
  | compare
  | send
  | left
deriving DecidableEq

/-- The server's loop for its client: `received` has the frames it has received. -/
structure Server where
  buffer : Buffer bufSize
  isExit : Bool
  pc : ServerPc
  out : Bytes
  received : List (Buffer bufSize)

def serverNext (v : Server) : Next Server (Buffer bufSize) :=
  match v.pc with
  | .announce => .local { v with out := v.out ++ ascii "received: ", pc := .recv }
  | .recv => .recv fun f => { v with
      buffer := recv v.buffer (.data f.bytes)
      received := v.received ++ [f]
      pc := .print }
  | .print => .local { v with out := v.out ++ cText v.buffer.bytes ++ ascii "\n", pc := .compare }
  | .compare =>
    if isQuit v.buffer.bytes then .local { v with isExit := true, pc := .left }
    else .local { v with pc := .send }
  | .send => .send v.buffer { v with pc := if v.isExit then .left else .announce }
  | .left => .none

abbrev State := Duplex Client Server (Buffer bufSize)

/-- The client with the words `ws` before it, connected to the server; `cb` and `sb` are what the two
buffers hold at the start. -/
def session (p : ClientProgram) (ws : List Word) (cb sb : Buffer bufSize) : System State Side :=
  Duplex.network p.next serverNext ⟨ws, cb, false, .read, [], []⟩ ⟨sb, false, .announce, [], []⟩

/-! ### What is printed -/

/-- The words before the first `quit`. -/
def beforeQuit (ws : List Word) : List Word := ws.takeWhile fun w => w.text ≠ ascii "quit"

/-- The words up to the first `quit`, it included. -/
def upToQuit : List Word → List Word
  | [] => []
  | w :: ws => if w.text = ascii "quit" then [w] else w :: upToQuit ws

/-- The session is over: both loops are left, the client has printed the words before the first
`quit` and the server those up to it; the server has received the frames that the client sent, the
last of which holds `quit`. -/
structure Complete (p : ClientProgram) (ws : List Word) (s : State) : Prop where
  client_left : s.left.pc = .left
  server_left : s.right.pc = .left
  client_out : s.left.out = ((beforeQuit ws).map fun w => p.line w.text).flatten
  server_out : s.right.out = ((upToQuit ws).map fun w => received w.text).flatten
  frames : s.right.received = s.left.sent
  texts : s.left.sent.map (fun f => cText f.bytes) = (upToQuit ws).map Word.text
  last : ∃ f, s.left.sent.getLast? = some f ∧ cText f.bytes = ascii "quit"

/-! ### The words in the buffer -/

section Read

variable (w : Word) (b : Buffer bufSize)

theorem read_bytes : ∃ r, (w.read b).bytes = w.text ++ 0 :: r := by
  have hfits := w.fits
  refine ⟨b.bytes.drop (w.text ++ [0]).length, ?_⟩
  rw [Word.read, Buffer.fill_bytes (by rw [List.length_append, List.length_singleton]; omega),
    List.append_assoc]
  rfl

theorem cText_read : cText (w.read b).bytes = w.text := by
  obtain ⟨r, hr⟩ := read_bytes w b
  rw [hr, cText_append_nul w.nul_free]

/-- Whatever the buffer holds behind the NUL, the comparison is with the word. -/
theorem isQuit_read : isQuit (w.read b).bytes = decide (w.text = ascii "quit") := by
  have hnul : 0 ∈ (w.read b).bytes := by
    obtain ⟨r, hr⟩ := read_bytes w b
    rw [hr]
    simp
  rw [Bool.eq_iff_iff, isQuit, strcmpEq_iff_cText hnul (by decide), cText_read, decide_eq_true_iff]

end Read

/-! ### The server alone -/

section Alone

variable {p : ClientProgram} {l l₀ : Client} {v₀ : Server}

/-- What the server's loop makes of the frames on the way to it, as `Tcp.session` has it. -/
structure Serves (l : Client) (so : Bytes) (inbox : List (Buffer bufSize)) (r : Session)
    (t : State) : Prop where
  left : t.left = l
  out : t.right.out = so ++ r.out
  toLeft : t.toLeft = inbox ++ r.sent.map Prod.snd
  ended : r.ended = true → t.right.pc = .left
  waits : r.ended = false → t.right.pc = .announce

/-- The server process is the loop of `Tcp.session`, by induction on the frames. -/
theorem server_session (client : ℤ) (env : ℕ → Shared) (b : Buffer bufSize) (so : Bytes)
    (rs inbox fs : List (Buffer bufSize)) :
    (Duplex.network p.next serverNext l₀ v₀).Reaches ⟨l, ⟨b, false, .announce, so, rs⟩, inbox, fs⟩
      (Serves l so inbox (Tcp.session (echoServer client) env b (fs.map fun f => .data f.bytes))) := by
  induction fs generalizing env b so rs inbox with
  | nil =>
    refine ⟨[], _, rfl, rfl, ?_, ?_, fun h => absurd h (by simp [Tcp.session]), fun _ => rfl⟩
    · exact (List.append_nil so).symm
    · exact (List.append_nil inbox).symm
  | cons f fs ih =>
    rw [List.map_cons]
    by_cases hq : isQuit f.bytes = true
    · rw [session_quit (by rw [Buffer.fill_frame]; exact hq), Buffer.fill_frame]
      have hlast : (Duplex.network p.next serverNext l₀ v₀).exec
          ⟨l, ⟨b, false, .announce, so, rs⟩, inbox, f :: fs⟩ [.right, .right, .right, .right] =
          some ⟨l, ⟨f, true, .left, so ++ received (cText f.bytes), rs ++ [f]⟩, inbox, fs⟩ := by
        simp [System.exec, Duplex.network, Duplex.step, Next.advance, serverNext, hq, recv, received]
      exact ⟨_, _, hlast, rfl, rfl, (List.append_nil inbox).symm, fun _ => rfl,
        fun h => absurd h (by simp)⟩
    · rw [Bool.not_eq_true] at hq
      rw [session_frame (by rw [Buffer.fill_frame]; exact hq), Buffer.fill_frame]
      have hround : (Duplex.network p.next serverNext l₀ v₀).exec
          ⟨l, ⟨b, false, .announce, so, rs⟩, inbox, f :: fs⟩
            [.right, .right, .right, .right, .right] =
          some ⟨l, ⟨f, false, .announce, so ++ received (cText f.bytes), rs ++ [f]⟩,
            inbox ++ [f], fs⟩ := by
        simp [System.exec, Duplex.network, Duplex.step, Next.advance, serverNext, hq, recv, received]
      refine .of_exec hround ((ih (fun k => env (k + 1)) f _ _ _).mono fun t ht => ?_)
      refine ⟨ht.left, ?_, ?_, ht.ended, ht.waits⟩
      · rw [ht.out, List.append_assoc]
        rfl
      · rw [ht.toLeft, List.append_assoc]
        rfl

end Alone

/-! ### One round, and all of them -/

section Rounds

variable {p : ClientProgram} {ws : List Word} {cb sb : Buffer bufSize}

/-- Between two rounds: the client is at `cin >> buffer`, the server before its `recv`. -/
def between (ws : List Word) (cb sb : Buffer bufSize) (co so : Bytes) (fs : List (Buffer bufSize)) :
    State where
  left := ⟨ws, cb, false, .read, co, fs⟩
  right := ⟨sb, false, .announce, so, fs⟩
  toLeft := []
  toRight := []

variable {w : Word} {co so : Bytes} {fs : List (Buffer bufSize)} {l : Client} {r : Server}

/-- A word that is no `quit` goes to the server and back. -/
theorem exec_round (hw : w.text ≠ ascii "quit") :
    (Duplex.network p.next serverNext l r).exec (between (w :: ws) cb sb co so fs)
        [.left, .left, .left, .right, .right, .right, .right, .right, .left, .left] =
      some (between ws (w.read cb) (w.read cb) (co ++ p.line w.text) (so ++ received w.text)
        (fs ++ [w.read cb])) := by
  have hq : isQuit (w.read cb).bytes = false := by rw [isQuit_read]; exact decide_eq_false hw
  simp [System.exec, Duplex.network, Duplex.step, Next.advance, between, ClientProgram.next,
    serverNext, hq, recv, cText_read, received]

/-- `quit` goes to the server, and both loops are left. -/
theorem exec_quit (hw : w.text = ascii "quit") :
    (Duplex.network p.next serverNext l r).exec (between (w :: ws) cb sb co so fs)
        [.left, .left, .left, .right, .right, .right, .right] =
      some ⟨⟨ws, w.read cb, true, .left, co, fs ++ [w.read cb]⟩,
        ⟨w.read cb, true, .left, so ++ received w.text, fs ++ [w.read cb]⟩, [], []⟩ := by
  have hq : isQuit (w.read cb).bytes = true := by rw [isQuit_read]; exact decide_eq_true hw
  simp [System.exec, Duplex.network, Duplex.step, Next.advance, between, ClientProgram.next,
    serverNext, hq, recv, cText_read, received]

/-- What the words `ws` add to a session that stands between two rounds. -/
structure Adds (p : ClientProgram) (ws : List Word) (co so : Bytes) (fs : List (Buffer bufSize))
    (s : State) : Prop where
  client_left : s.left.pc = .left
  server_left : s.right.pc = .left
  client_out : s.left.out = co ++ ((beforeQuit ws).map fun w => p.line w.text).flatten
  server_out : s.right.out = so ++ ((upToQuit ws).map fun w => received w.text).flatten
  frames : s.right.received = s.left.sent
  sent : ∃ gs f, s.left.sent = fs ++ (gs ++ [f]) ∧ cText f.bytes = ascii "quit" ∧
    (gs ++ [f]).map (fun f => cText f.bytes) = (upToQuit ws).map Word.text

theorem beforeQuit_quit (hw : w.text = ascii "quit") : beforeQuit (w :: ws) = [] :=
  List.takeWhile_cons_of_neg (by simp [hw])

theorem beforeQuit_word (hw : w.text ≠ ascii "quit") :
    beforeQuit (w :: ws) = w :: beforeQuit ws :=
  List.takeWhile_cons_of_pos (by simp [hw])

theorem upToQuit_quit (hw : w.text = ascii "quit") : upToQuit (w :: ws) = [w] := by
  rw [upToQuit, if_pos hw]

theorem upToQuit_word (hw : w.text ≠ ascii "quit") : upToQuit (w :: ws) = w :: upToQuit ws := by
  rw [upToQuit, if_neg hw]

theorem Adds.cons {s : State} (hw : w.text ≠ ascii "quit")
    (h : Adds p ws (co ++ p.line w.text) (so ++ received w.text) (fs ++ [w.read cb]) s) :
    Adds p (w :: ws) co so fs s := by
  obtain ⟨gs, f, hsent, hlast, htexts⟩ := h.sent
  refine ⟨h.client_left, h.server_left, ?_, ?_, h.frames, w.read cb :: gs, f, ?_, hlast, ?_⟩
  · rw [h.client_out, beforeQuit_word hw, List.map_cons, List.flatten_cons, List.append_assoc]
  · rw [h.server_out, upToQuit_word hw, List.map_cons, List.flatten_cons, List.append_assoc]
  · rw [hsent, List.append_assoc]
    rfl
  · rw [upToQuit_word hw, List.map_cons, ← htexts, List.cons_append, List.map_cons, cText_read]

/-- By induction on the words, one round for each of them; the next round starts from whatever
buffers this one leaves. -/
theorem reaches_adds (hq : ∃ w ∈ ws, w.text = ascii "quit") :
    (Duplex.network p.next serverNext l r).Reaches (between ws cb sb co so fs)
      (Adds p ws co so fs) := by
  induction ws generalizing cb sb co so fs with
  | nil => exact absurd hq (by simp)
  | cons w ws ih =>
    by_cases hw : w.text = ascii "quit"
    · refine ⟨_, _, exec_quit hw, rfl, rfl, ?_, ?_, rfl, [], w.read cb, rfl, ?_, ?_⟩
      · rw [beforeQuit_quit hw, List.map_nil, List.flatten_nil, List.append_nil]
      · rw [upToQuit_quit hw, List.map_singleton, List.flatten_singleton]
      · rw [cText_read, hw]
      · rw [upToQuit_quit hw, List.nil_append, List.map_singleton, List.map_singleton, cText_read]
    · have hrest : ∃ w ∈ ws, w.text = ascii "quit" := by
        obtain ⟨v, hv, htext⟩ := hq
        rcases List.mem_cons.mp hv with rfl | hv
        · exact absurd htext hw
        · exact ⟨v, hv, htext⟩
      exact .of_exec (exec_round hw) ((ih hrest).mono fun _ => Adds.cons hw)

end Rounds

theorem Adds.complete {p : ClientProgram} {ws : List Word} {s : State}
    (h : Adds p ws [] [] [] s) : Complete p ws s := by
  obtain ⟨gs, f, hsent, hlast, htexts⟩ := h.sent
  rw [List.nil_append] at hsent
  refine ⟨h.client_left, h.server_left, h.client_out, h.server_out, h.frames, ?_, f, ?_, hlast⟩
  · rw [hsent, htexts]
  · rw [hsent, List.getLast?_concat]

/-- **Lock-step echo.**  For words that contain `quit`, and whatever the two buffers hold at first:
all runs of the client against the server are bounded in length and can be carried on to an end, and
every end is `Complete`. -/
theorem echo_session (p : ClientProgram) (ws : List Word) (cb sb : Buffer bufSize)
    (hq : ∃ w ∈ ws, w.text = ascii "quit") :
    ∃ n, ∀ as s, (session p ws cb sb).exec (session p ws cb sb).init as = some s →
      as.length ≤ n ∧ (session p ws cb sb).Reaches s (session p ws cb sb).Stuck ∧
        ((session p ws cb sb).Stuck s → Complete p ws s) := by
  apply Duplex.completes
  have hreach : (session p ws cb sb).Reaches (session p ws cb sb).init (Adds p ws [] [] []) :=
    reaches_adds hq
  refine hreach.mono fun t hadds => ⟨⟨?_, ?_⟩, hadds.complete⟩
  · rw [ClientProgram.next, hadds.client_left]
  · rw [serverNext, hadds.server_left]

theorem no_space_of_all {t : Bytes} (h : (t.all fun b => !isspace b) = true) :
    ∀ b ∈ t, isspace b = false := by
  intro b hb
  simpa using List.all_eq_true.mp h b hb

/-- The word `quit`. -/
def quitWord : Word where
  text := ascii "quit"
  ne_nil := by decide
  nul_free := by decide
  no_space := no_space_of_all (by decide)
  fits := quit_fits

theorem fits_of_le {t : Bytes} (h : t.length ≤ 8) : t.length < bufSize :=
  lt_of_le_of_lt h (by decide)

def helloWord : Word where
  text := ascii "hello"
  ne_nil := by decide
  nul_free := by decide
  no_space := no_space_of_all (by decide)
  fits := fits_of_le (by decide)

def byeWord : Word where
  text := ascii "bye"
  ne_nil := by decide
  nul_free := by decide
  no_space := no_space_of_all (by decide)
  fits := fits_of_le (by decide)

/-- A longer word, a shorter one, which leaves the end of the longer one in the buffers, and `quit`, with
a word behind it that is never read. -/
def someWords : List Word := [helloWord, byeWord, quitWord, byeWord]

theorem echo_session_quit :
    (∃ w ∈ someWords, w.text = ascii "quit") ∧
    ∃ n, ∀ as s,
      (session .echoClient someWords (.const bufSize 120) (.const bufSize 121)).exec
        (session .echoClient someWords (.const bufSize 120) (.const bufSize 121)).init as = some s →
      as.length ≤ n ∧
        (session .echoClient someWords (.const bufSize 120) (.const bufSize 121)).Reaches s
          (session .echoClient someWords (.const bufSize 120) (.const bufSize 121)).Stuck ∧
        ((session .echoClient someWords (.const bufSize 120) (.const bufSize 121)).Stuck s →
          Complete .echoClient someWords s) :=
  ⟨⟨quitWord, by simp [someWords], rfl⟩,
    echo_session .echoClient someWords (.const bufSize 120) (.const bufSize 121)
      ⟨quitWord, by simp [someWords], rfl⟩⟩

end Fssn.Tcp.EchoSession
