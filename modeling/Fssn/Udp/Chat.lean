import Fssn.ChatClient
import Fssn.Udp.Delivery
import Fssn.Udp.EchoServer

/-!
# Fssn.Udp.Chat — the UDP programs from keyboard to screen

The clients (`lec-03-prg-09`) around one of the UDP servers.  The network may lose, double and reorder:
whatever was sent may arrive at any later time, any number of times, or never.

* `udp_chat_screens`: with the chat server, a client shows only words that some client has typed, each
  relayed while the port of its sender and the client's own address were registered.
* `udp_echo_screens`: with the echo server, a client shows only words that it has typed itself.
-/

namespace Fssn.Udp.Chat

open Fssn.Lib ChatClient
open Tcp.EchoSession (Word)

/-! ### Clients around a server -/

/-- A server with what it has sent.  Of a whole frame it sends nothing but this frame. -/
structure Relay (W : Type*) where
  system : System W Datagram
  sent : W → List (SockaddrIn × Buffer bufSize)
  sent_init : sent system.init = []
  forwards : ∀ {w v : W} {a : SockaddrIn} {f : Buffer bufSize}, system.step w ⟨a, f.bytes⟩ = some v →
    ∃ es : List SockaddrIn, sent v = sent w ++ es.map fun e => (e, f)

/-- The server, the datagrams it has received, the clients, and the datagrams they have sent to it. -/
structure State (W ι : Type*) where
  server : W
  heard : List Datagram
  clients : ι → Client ℕ
  toServer : List Datagram

/-- `serve n` is the arrival of the `n`-th datagram to the server, `receive i n` the arrival at the
client `i` of the `n`-th datagram that the server has sent. -/
inductive Action (ι : Type*)
  | call (i : ι) (c : Call)
  | send (i : ι)
  | serve (n : ℕ)
  | receive (i : ι) (n : ℕ)

variable {W ι : Type*}

section Step

variable [DecidableEq ι] (R : Relay W) (addr : ι ↪ SockaddrIn)

def step (s : State W ι) : Action ι → Option (State W ι)
  | .call i c => ((s.clients i).call c).map fun v =>
      { s with clients := Function.update s.clients i v }
  | .send i => (s.clients i).send.map fun v =>
      { s with
        clients := Function.update s.clients i v
        toServer := s.toServer ++ [⟨addr i, (s.clients i).buffer.bytes⟩] }
  | .serve n =>
    s.toServer[n]?.bind fun d =>
      (R.system.step s.server d).map fun w => { s with server := w, heard := s.heard ++ [d] }
  | .receive i n =>
    (R.sent s.server)[n]?.bind fun x =>
      if x.1 = addr i then
        ((s.clients i).receive .udp (n, x.2)).map fun v =>
          { s with clients := Function.update s.clients i v }
      else none

/-- The programs before their first statement; `b` is what the stacks of the clients hold. -/
def system (b : ι → Buffer bufSize × Buffer bufSize) : System (State W ι) (Action ι) where
  init := ⟨R.system.init, [], fun i => ⟨(b i).1, .activate, [], (b i).2, .recv, [], []⟩, []⟩
  step := step R addr

/-- A step, with what it needs. -/
inductive Move (s : State W ι) : State W ι → Prop
  | call (i : ι) (c : Call) (v : Client ℕ) (hv : (s.clients i).call c = some v) :
      Move s { s with clients := Function.update s.clients i v }
  | send (i : ι) (v : Client ℕ) (hv : (s.clients i).send = some v) :
      Move s { s with
        clients := Function.update s.clients i v
        toServer := s.toServer ++ [⟨addr i, (s.clients i).buffer.bytes⟩] }
  | serve (d : Datagram) (w : W) (hd : d ∈ s.toServer) (hw : R.system.step s.server d = some w) :
      Move s { s with server := w, heard := s.heard ++ [d] }
  | receive (i : ι) (n : ℕ) (f : Buffer bufSize) (v : Client ℕ)
      (hf : (R.sent s.server)[n]? = some (addr i, f))
      (hv : (s.clients i).receive .udp (n, f) = some v) :
      Move s { s with clients := Function.update s.clients i v }

end Step

variable {R : Relay W} {addr : ι ↪ SockaddrIn}

theorem step_move [DecidableEq ι] {s t : State W ι} {a : Action ι} (h : step R addr s a = some t) :
    Move R addr s t := by
  unfold step at h
  split at h
  · obtain ⟨v, hv, rfl⟩ := Option.map_eq_some_iff.mp h
    exact .call _ _ v hv
  · obtain ⟨v, hv, rfl⟩ := Option.map_eq_some_iff.mp h
    exact .send _ v hv
  · obtain ⟨d, hd, h⟩ := Option.bind_eq_some_iff.mp h
    obtain ⟨w, hw, rfl⟩ := Option.map_eq_some_iff.mp h
    exact .serve d w (List.mem_of_getElem? hd) hw
  · obtain ⟨⟨a, f⟩, hf, h⟩ := Option.bind_eq_some_iff.mp h
    split_ifs at h with ha
    obtain ⟨v, hv, rfl⟩ := Option.map_eq_some_iff.mp h
    exact .receive _ _ f v (hf.trans (congrArg (fun a => some (a, f)) ha)) hv

/-! ### Where the frames come from -/

/-- The datagram holds a word that its sender has typed. -/
def Typed (addr : ι ↪ SockaddrIn) (s : State W ι) (d : Datagram) : Prop :=
  ∃ i f w, d = ⟨addr i, f.bytes⟩ ∧ w ∈ (s.clients i).typed ∧ Holds f w

/-- The frame numbered `x.1` of what the server has sent is `x.2`, and it was sent to `a`. -/
def SentTo (R : Relay W) (s : State W ι) (a : SockaddrIn) (x : ℕ × Buffer bufSize) : Prop :=
  (R.sent s.server)[x.1]? = some (a, x.2)

/-- Frames on the screens were sent by the server, those were received by it, and those were typed. -/
structure Inv (R : Relay W) (addr : ι ↪ SockaddrIn) (s : State W ι) : Prop where
  run : R.system.exec R.system.init s.heard = some s.server
  heard : ∀ d ∈ s.heard, d ∈ s.toServer
  typed : ∀ d ∈ s.toServer, Typed addr s d
  sending : ∀ i w, (s.clients i).pc = .send w → Holds (s.clients i).buffer w
  sent : ∀ x ∈ R.sent s.server, ∃ d ∈ s.heard, d.payload = x.2.bytes
  got : ∀ i, ∀ x ∈ (s.clients i).got ++ (s.clients i).hand, SentTo R s (addr i) x
  shows : ∀ i, (s.clients i).Shows

section Inv

variable {s t : State W ι}

/-- What was typed stays typed. -/
theorem Typed.mono {d : Datagram} (h : Typed addr s d)
    (hgrow : ∀ i, (s.clients i).typed ⊆ (t.clients i).typed) : Typed addr t d := by
  obtain ⟨i, f, w, hd, hw, hf⟩ := h
  exact ⟨i, f, w, hd, hgrow i hw, hf⟩

/-- What the server has sent holds a word. -/
theorem SentTo.holds (hi : Inv R addr s) {a : SockaddrIn} {x : ℕ × Buffer bufSize}
    (hx : SentTo R s a x) : ∃ w, Holds x.2 w := by
  obtain ⟨d, hd, hpay⟩ := hi.sent (a, x.2) (List.mem_of_getElem? hx)
  obtain ⟨i, f, w, rfl, -, hf⟩ := hi.typed d (hi.heard d hd)
  exact ⟨w, Buffer.ext hpay ▸ hf⟩

theorem inv_serve (hi : Inv R addr s) {d : Datagram} {w : W} (hd : d ∈ s.toServer)
    (hw : R.system.step s.server d = some w) :
    Inv R addr { s with server := w, heard := s.heard ++ [d] } := by
  obtain ⟨i, f, -, hdf, -⟩ := hi.typed d hd
  obtain ⟨es, hes⟩ := R.forwards (hdf ▸ hw)
  refine ⟨?_, ?_, hi.typed, hi.sending, ?_, ?_, hi.shows⟩
  · rw [System.exec_concat, hi.run]
    exact hw
  · intro e he
    rcases List.mem_append.mp he with he | he
    · exact hi.heard e he
    · exact List.mem_singleton.mp he ▸ hd
  · intro x hx
    rw [hes] at hx
    rcases List.mem_append.mp hx with hx | hx
    · obtain ⟨e, he, hpay⟩ := hi.sent x hx
      exact ⟨e, List.mem_append_left _ he, hpay⟩
    · obtain ⟨e, -, rfl⟩ := List.mem_map.mp hx
      exact ⟨d, List.mem_append_right _ List.mem_cons_self, by rw [hdf]⟩
  · intro j x hx
    have hold := hi.got j x hx
    unfold SentTo at hold ⊢
    rw [hes, List.getElem?_append_left (List.getElem?_eq_some_iff.mp hold).1]
    exact hold

variable [DecidableEq ι]

theorem inv_init (b : ι → Buffer bufSize × Buffer bufSize) : Inv R addr (system R addr b).init where
  run := rfl
  heard d hd := absurd hd List.not_mem_nil
  typed d hd := absurd hd List.not_mem_nil
  sending i w hw := absurd hw (by simp [system])
  sent x hx := absurd hx (by rw [system, R.sent_init]; exact List.not_mem_nil)
  got i x hx := absurd hx List.not_mem_nil
  shows i := rfl

theorem typed_update {i : ι} {v : Client ℕ} (h : (s.clients i).typed ⊆ v.typed) (j : ι) :
    (s.clients j).typed ⊆ (Function.update s.clients i v j).typed :=
  forall_update (P := fun j u => (s.clients j).typed ⊆ u.typed) (fun _ => List.Subset.refl _) h j

theorem inv_call (hi : Inv R addr s) {i : ι} {c : Call} {v : Client ℕ}
    (hv : (s.clients i).call c = some v) :
    Inv R addr { s with clients := Function.update s.clients i v } := by
  obtain ⟨htyped, hgot⟩ := call_stream hv
  have hgrow := typed_update (s := s) (i := i) (v := v) (htyped ▸ List.Subset.refl _)
  refine ⟨hi.run, hi.heard, fun d hd => (hi.typed d hd).mono hgrow, ?_, hi.sent, ?_, ?_⟩
  · exact forall_update (P := fun _ u => ∀ w, u.pc = .send w → Holds u.buffer w) hi.sending
      (call_sending hv (hi.sending i))
  · refine forall_update (P := fun j u => ∀ x ∈ u.got ++ u.hand, SentTo R s (addr j) x) hi.got ?_
    rw [hgot]
    exact hi.got i
  · refine forall_update (P := fun _ u => u.Shows) hi.shows ?_
    exact call_shows hv (fun x hx => (hi.got i x (List.mem_append_right _ hx)).holds hi) (hi.shows i)

theorem inv_send (hi : Inv R addr s) {i : ι} {v : Client ℕ} (hv : (s.clients i).send = some v) :
    Inv R addr { s with
      clients := Function.update s.clients i v
      toServer := s.toServer ++ [⟨addr i, (s.clients i).buffer.bytes⟩] } := by
  obtain ⟨w, hpc, rfl⟩ := send_some hv
  have hgrow := typed_update (s := s) (i := i) (v := { s.clients i with
    pc := .test, typed := (s.clients i).typed ++ [w] }) (List.subset_append_left _ _)
  refine ⟨hi.run, fun d hd => List.mem_append_left _ (hi.heard d hd), ?_, ?_, hi.sent, ?_, ?_⟩
  · intro d hd
    rcases List.mem_append.mp hd with hd | hd
    · exact (hi.typed d hd).mono hgrow
    · obtain rfl := List.mem_singleton.mp hd
      refine ⟨i, (s.clients i).buffer, w, rfl, ?_, hi.sending i w hpc⟩
      dsimp only
      rw [Function.update_self]
      exact List.mem_append_right _ List.mem_cons_self
  · exact forall_update (P := fun _ u => ∀ w, u.pc = .send w → Holds u.buffer w) hi.sending
      fun w hw => absurd hw (by simp)
  · exact forall_update (P := fun j u => ∀ x ∈ u.got ++ u.hand, SentTo R s (addr j) x) hi.got
      (hi.got i)
  · refine forall_update (P := fun _ u => u.Shows) hi.shows ?_
    have hs := hi.shows i
    unfold Client.Shows at hs ⊢
    rw [hpc] at hs
    exact hs

theorem inv_receive (hi : Inv R addr s) {i : ι} {n : ℕ} {f : Buffer bufSize} {v : Client ℕ}
    (hf : (R.sent s.server)[n]? = some (addr i, f))
    (hv : (s.clients i).receive .udp (n, f) = some v) :
    Inv R addr { s with clients := Function.update s.clients i v } := by
  obtain ⟨htyped, -, hgot, hhand, hpc, hbuffer, hshows⟩ := receive_some hv
  have hgrow := typed_update (s := s) (i := i) (v := v) (htyped ▸ List.Subset.refl _)
  refine ⟨hi.run, hi.heard, fun d hd => (hi.typed d hd).mono hgrow, ?_, hi.sent, ?_, ?_⟩
  · refine forall_update (P := fun _ u => ∀ w, u.pc = .send w → Holds u.buffer w) hi.sending ?_
    rw [hpc, hbuffer]
    exact hi.sending i
  · refine forall_update (P := fun j u => ∀ x ∈ u.got ++ u.hand, SentTo R s (addr j) x) hi.got ?_
    rw [hgot, hhand]
    intro x hx
    rcases List.mem_append.mp hx with hx | hx
    · exact hi.got i x (List.mem_append_left _ hx)
    · exact List.mem_singleton.mp hx ▸ hf
  · exact forall_update (P := fun _ u => u.Shows) hi.shows (hshows (hi.shows i))

theorem inv_step {a : Action ι} (hi : Inv R addr s) (h : step R addr s a = some t) :
    Inv R addr t := by
  cases step_move h with
  | call i c v hv => exact inv_call hi hv
  | send i v hv => exact inv_send hi hv
  | serve d w hd hw => exact inv_serve hi hd hw
  | receive i n f v hf hv => exact inv_receive hi hf hv

end Inv

theorem always_inv [DecidableEq ι] (b : ι → Buffer bufSize × Buffer bufSize) (as : List (Action ι)) :
    (system R addr b).Always (Inv R addr) as :=
  System.always_of_step (inv_init b) (fun _ _ _ hi h => inv_step hi h) as

/-- What a server has received are whole frames of its clients. -/
theorem Inv.frames {s : State W ι} (hi : Inv R addr s) :
    ∃ cs : List ClientFrame, s.heard = cs.map ClientFrame.toDatagram ∧
      ∀ c ∈ cs, ∃ i, c.client_addr = addr i ∧ c.text ∈ (s.clients i).typed.map Word.text := by
  have hall := fun d hd => hi.typed d (hi.heard d hd)
  generalize s.heard = ds at hall
  induction ds with
  | nil => exact ⟨[], rfl, fun c hc => absurd hc List.not_mem_nil⟩
  | cons d ds ih =>
    obtain ⟨cs, rfl, hcs⟩ := ih fun e he => hall e (List.mem_cons_of_mem _ he)
    obtain ⟨i, f, w, rfl, hw, hf⟩ := hall d List.mem_cons_self
    refine ⟨⟨addr i, ⟨f, hf.nul⟩⟩ :: cs, rfl, fun c hc => ?_⟩
    rcases List.mem_cons.mp hc with rfl | hc
    · exact ⟨i, rfl, List.mem_map.mpr ⟨w, hw, hf.text.symm⟩⟩
    · exact hcs c hc

/-! ### The chat -/

theorem iteration_sends {s : Server} {d : Datagram} {it : Iteration} (h : iteration s d = some it) :
    ∃ es : List SockaddrIn, it.sends = es.map fun e => (e, s.buffer.fill d.payload) := by
  unfold iteration at h
  dsimp only at h
  split_ifs at h
  · obtain ⟨q, -, rfl⟩ := Option.map_eq_some_iff.mp h
    refine ⟨[], ?_⟩
    split
    · rfl
    · rfl
  · obtain ⟨q, -, rfl⟩ := Option.map_eq_some_iff.mp h
    exact ⟨[], rfl⟩
  · obtain ⟨q, -, h⟩ := Option.bind_eq_some_iff.mp h
    split_ifs at h
    · exact ⟨[], by rw [← Option.some.inj h]; rfl⟩
    · obtain ⟨r, -, rfl⟩ := Option.map_eq_some_iff.mp h
      exact ⟨r.1, rfl⟩
    · exact ⟨[], by rw [← Option.some.inj h]; rfl⟩

/-- The chat server. -/
def chatRelay (junk : Buffer bufSize) : Relay World where
  system := chat junk
  sent := World.sent
  sent_init := rfl
  forwards {w v a f} h := by
    obtain ⟨it, hit, rfl⟩ := Option.map_eq_some_iff.mp h
    obtain ⟨es, hes⟩ := iteration_sends hit
    refine ⟨es, ?_⟩
    dsimp only
    rw [hes, Buffer.fill_frame]

/-- After `past`, a message came from a registered port, and it went to the address `a`, which was
registered. -/
structure RelayedTo (a : SockaddrIn) (past : List ClientFrame) (c : ClientFrame) : Prop where
  message : ¬ c.IsCommand
  sender : Registered past c.port
  receiver : RegisteredAs past a

/-- The screens of a chat. -/
structure Screens (addr : ι ↪ SockaddrIn) (s : State World ι) : Prop where
  shows : ∀ i, (s.clients i).Shows
  /-- What the server has received holds words that were typed, and what a client has shown was
  relayed to its address. -/
  heard : ∃ cs : List ClientFrame, s.heard = cs.map ClientFrame.toDatagram ∧
    (∀ c ∈ cs, ∃ i, c.client_addr = addr i ∧ c.text ∈ (s.clients i).typed.map Word.text) ∧
    ∀ i, ∀ x ∈ (s.clients i).got, ∃ past c, past ++ [c] <+: cs ∧ RelayedTo (addr i) past c ∧
      x.2 = c.frame.toBuffer
  /-- Who has not asked to take part is shown nothing. -/
  silent : ∀ i, ascii "#REG" ∉ (s.clients i).typed.map Word.text → (s.clients i).got = []

/-- What the chat server has sent. -/
theorem sent_relayed {junk : Buffer bufSize} {cs : List ClientFrame} {w : World}
    (h : serve junk (cs.map ClientFrame.toDatagram) = some w) :
    ∀ x ∈ w.sent, ∃ past c, past ++ [c] <+: cs ∧ RelayedTo x.1 past c ∧
      x.2 = c.frame.toBuffer := by
  induction cs using List.reverseRecOn generalizing w with
  | nil =>
    obtain rfl := Option.some.inj h
    exact fun x hx => absurd hx List.not_mem_nil
  | append_singleton cs c ih =>
    obtain ⟨u, hu, -⟩ := serve_frames junk cs
    obtain ⟨v, hv, -, hsent⟩ := serve_frame hu c
    obtain rfl := Option.some.inj (h.symm.trans hv)
    intro x hx
    rw [hsent] at hx
    rcases List.mem_append.mp hx with hx | hx
    · obtain ⟨past, e, hpre, hrest⟩ := ih hu x hx
      exact ⟨past, e, hpre.trans (List.prefix_append _ _), hrest⟩
    · split_ifs at hx with hrel
      · obtain ⟨a, ha, rfl⟩ := List.mem_map.mp hx
        exact ⟨cs, c, List.prefix_refl _, ⟨hrel.1, hrel.2, (mem_group_queue_iff hu a).mp ha⟩, rfl⟩
      · exact absurd hx List.not_mem_nil

/-- An address is registered by a `#REG` from it. -/
theorem exists_reg {cs : List ClientFrame} {a : SockaddrIn} (h : RegisteredAs cs a) :
    ∃ c ∈ cs, c.text = ascii "#REG" ∧ c.client_addr = a := by
  obtain ⟨j, ⟨c, hc, htext, ha⟩, -⟩ := h
  exact ⟨c, List.mem_of_getElem? hc, htext, ha⟩

/-- **The UDP chat from keyboard to screen.**  However the network loses, doubles and reorders, every
line on a screen is a word that some client has typed, no command, which the server has received while
the port of its sender was registered and the client's own address, too.  Who never typed `#REG` is
shown nothing. -/
theorem udp_chat_screens [DecidableEq ι] (addr : ι ↪ SockaddrIn) (junk : Buffer bufSize)
    (b : ι → Buffer bufSize × Buffer bufSize) (as : List (Action ι)) :
    (system (chatRelay junk) addr b).Always (Screens addr) as := by
  refine (always_inv b as).imp fun s hi => ?_
  obtain ⟨cs, hheard, htyped⟩ := hi.frames
  have hserve : serve junk (cs.map ClientFrame.toDatagram) = some s.server := hheard ▸ hi.run
  have hgot : ∀ i, ∀ x ∈ (s.clients i).got, ∃ past c, past ++ [c] <+: cs ∧
      RelayedTo (addr i) past c ∧ x.2 = c.frame.toBuffer := fun i x hx =>
    sent_relayed hserve (addr i, x.2)
      (List.mem_of_getElem? (hi.got i x (List.mem_append_left _ hx)))
  refine ⟨hi.shows, ⟨cs, hheard, htyped, hgot⟩, fun i hreg => ?_⟩
  refine List.eq_nil_iff_forall_not_mem.mpr fun x hx => hreg ?_
  obtain ⟨past, c, hpre, hrel, -⟩ := hgot i x hx
  obtain ⟨r, hr, htext, haddr⟩ := exists_reg hrel.receiver
  obtain ⟨j, hj, hword⟩ := htyped r (hpre.subset (List.mem_append_left _ hr))
  obtain rfl : i = j := addr.injective (haddr.symm.trans hj)
  exact htext ▸ hword

/-! ### The echo -/

/-- The echo server. -/
def echoRelay (junk : Buffer bufSize) : Relay EchoServer.World where
  system := ⟨⟨junk, [], []⟩, fun w d => some (EchoServer.iteration w d)⟩
  sent := EchoServer.World.sent
  sent_init := rfl
  forwards {w v a f} h := by
    obtain rfl := Option.some.inj h
    refine ⟨[a], ?_⟩
    dsimp only [EchoServer.iteration]
    rw [Buffer.fill_frame]
    rfl

/-- The screens around the echo server. -/
structure Echoes (s : State EchoServer.World ι) : Prop where
  shows : ∀ i, (s.clients i).Shows
  /-- A client is shown its own words. -/
  own : ∀ i, ∀ x ∈ (s.clients i).got, text x.2 ∈ (s.clients i).typed.map Word.text

/-- What the echo server has sent, it has received from there. -/
theorem sent_echoed {junk : Buffer bufSize} {cs : List ClientFrame} {w : EchoServer.World}
    (h : (echoRelay junk).system.exec (echoRelay junk).system.init
      (cs.map ClientFrame.toDatagram) = some w) :
    ∀ x ∈ w.sent, ∃ c ∈ cs, x = (c.client_addr, c.frame.toBuffer) := by
  induction cs using List.reverseRecOn generalizing w with
  | nil =>
    obtain rfl := Option.some.inj h
    exact fun x hx => absurd hx List.not_mem_nil
  | append_singleton cs c ih =>
    rw [List.map_append] at h
    obtain ⟨u, hu, hstep⟩ := System.exec_concat_some h
    obtain rfl := Option.some.inj hstep
    intro x hx
    rcases List.mem_append.mp hx with hx | hx
    · obtain ⟨e, he, rfl⟩ := ih hu x hx
      exact ⟨e, List.mem_append_left _ he, rfl⟩
    · refine ⟨c, List.mem_append_right _ List.mem_cons_self, ?_⟩
      rw [List.mem_singleton.mp hx]
      exact congrArg (Prod.mk c.client_addr) (Buffer.fill_frame u.buffer c.frame.toBuffer)

/-- **The UDP echo from keyboard to screen.**  However the network loses, doubles and reorders, every
line on a client's screen is a word that this client has typed. -/
theorem udp_echo_screens [DecidableEq ι] (addr : ι ↪ SockaddrIn) (junk : Buffer bufSize)
    (b : ι → Buffer bufSize × Buffer bufSize) (as : List (Action ι)) :
    (system (echoRelay junk) addr b).Always Echoes as := by
  refine (always_inv b as).imp fun s hi => ⟨hi.shows, fun i x hx => ?_⟩
  obtain ⟨cs, hheard, htyped⟩ := hi.frames
  obtain ⟨c, hc, hx⟩ := sent_echoed (hheard ▸ hi.run) (addr i, x.2)
    (List.mem_of_getElem? (hi.got i x (List.mem_append_left _ hx)))
  obtain ⟨haddr, hframe⟩ := Prod.mk.inj hx
  obtain ⟨j, hj, hword⟩ := htyped c hc
  obtain rfl : i = j := addr.injective (haddr.trans hj)
  rw [hframe]
  exact hword

end Fssn.Udp.Chat
