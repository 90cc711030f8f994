import Fssn.ChatClient
import Fssn.Tcp.Fifo

/-!
# Fssn.Tcp.Chat — the TCP chat from keyboard to screen

The clients (`lec-03-prg-07`) around the multithreaded chat server.  Connections keep the order of the
frames, and every `recv`, here and in the server, returns one whole frame, as both programs take it for
granted.  A client is named by the descriptor of its connection in the server, and a frame that is sent
to it carries the number of the handler that has sent it.

A client that sends `quit` closes its connection and stays in `group_queue`.  A `send` to it may
succeed, as the first one does, or end the server with `SIGPIPE`, which the server does not handle: both
are steps (`sigpipe` is the second).  No other `send` fails.

`chat_screens`: what a client shows of another one are words that the other one has typed, in order,
none twice and none left out, up to those that are still on their way; only what was typed before the
client's own handler had entered it into `group_queue` is missing.
-/

namespace Fssn.Tcp.Chat

open Fssn.Lib ChatClient
open ChatServer (SocketHandler sendsBy sendsTo relays)
open EchoSession (Word)

/-! ### The chat -/

/-- The server, its clients by their descriptors, and the connections: to the server, and from it
with the sending handlers. -/
structure State where
  server : ChatServer.State
  clients : ℤ → Client ℕ
  conns : Pipes ℤ (Buffer bufSize)
  toClient : ℤ → List (ℕ × Buffer bufSize)

inductive Action
  | server (a : ChatServer.Action)
  | recv (k : ℕ)
  | sigpipe (k : ℕ)
  | call (fd : ℤ) (c : Call)
  | send (fd : ℤ)
  | receive (fd : ℤ)

/-- What a step of the server sends, to whom and by which handler. -/
def sends (s : ChatServer.State) (a : ChatServer.Action) : List (ℤ × ℕ × Buffer bufSize) :=
  match a with
  | .run k => (sendsBy k s a).map fun x => (x.1, k, x.2)
  | _ => []

/-- The chat after the server's process has ended. -/
def State.kill (s : State) : State := { s with server := { s.server with exited := true } }

/-- The chat after the step `a` of the server to `t`. -/
def State.serve (s : State) (a : ChatServer.Action) (t : ChatServer.State) : State :=
  { s with
    server := t
    toClient := fun fd => s.toClient fd ++ Pipes.cameFrom fd (sends s.server a) }

def step (s : State) : Action → Option State
  | .server (.recv _ _) => none
  | .server a => (ChatServer.server.step s.server a).map (s.serve a)
  | .recv k =>
    s.server.handlers[k]?.bind fun h =>
      (s.conns.pull h.server).bind fun r =>
        (ChatServer.server.step s.server (.recv k (.data r.1.bytes))).map fun t =>
          { s with server := t, conns := r.2 }
  | .sigpipe k =>
    if s.server.exited then none
    else if (sends s.server (.run k)).any fun x => (s.clients x.1).closed then some s.kill
    else none
  | .call fd c => ((s.clients fd).call c).map fun v =>
      { s with clients := Function.update s.clients fd v }
  | .send fd => (s.clients fd).send.map fun v =>
      { s with
        clients := Function.update s.clients fd v
        conns := s.conns.push fd (s.clients fd).buffer }
  | .receive fd =>
    match s.toClient fd with
    | [] => none
    | x :: r => ((s.clients fd).receive .tcp x).map fun v =>
        { s with
          clients := Function.update s.clients fd v
          toClient := Function.update s.toClient fd r }

/-- The chat before the first client is accepted; `b` is what the stacks of the clients hold. -/
def system (b : ℤ → Buffer bufSize × Buffer bufSize) : System State Action where
  init := ⟨ChatServer.server.init, fun fd => ⟨(b fd).1, .activate, [], (b fd).2, .recv, [], []⟩,
    .empty, fun _ => []⟩
  step := step

/-- A step of the chat, with what it needs. -/
inductive Move (s : State) : Action → State → Prop
  | server (a : ChatServer.Action) (t : ChatServer.State) (ha : ∀ k r, a ≠ .recv k r)
      (ht : ChatServer.server.step s.server a = some t) : Move s (.server a) (s.serve a t)
  | recv (k : ℕ) (g : SocketHandler) (f : Buffer bufSize) (conns : Pipes ℤ (Buffer bufSize))
      (t : ChatServer.State) (hg : s.server.handlers[k]? = some g)
      (hpull : s.conns.pull g.server = some (f, conns))
      (ht : ChatServer.server.step s.server (.recv k (.data f.bytes)) = some t) :
      Move s (.recv k) { s with server := t, conns := conns }
  | sigpipe (k : ℕ) (x : ℤ × ℕ × Buffer bufSize) (hrun : s.server.exited = false)
      (hx : x ∈ sends s.server (.run k)) (hleft : (s.clients x.1).pc = .left) :
      Move s (.sigpipe k) s.kill
  | call (fd : ℤ) (c : Call) (v : Client ℕ) (hv : (s.clients fd).call c = some v) :
      Move s (.call fd c) { s with clients := Function.update s.clients fd v }
  | send (fd : ℤ) (v : Client ℕ) (hv : (s.clients fd).send = some v) :
      Move s (.send fd) { s with
        clients := Function.update s.clients fd v
        conns := s.conns.push fd (s.clients fd).buffer }
  | receive (fd : ℤ) (x : ℕ × Buffer bufSize) (r : List (ℕ × Buffer bufSize)) (v : Client ℕ)
      (hfd : s.toClient fd = x :: r) (hv : (s.clients fd).receive .tcp x = some v) :
      Move s (.receive fd) { s with
        clients := Function.update s.clients fd v
        toClient := Function.update s.toClient fd r }

theorem step_move {s t : State} {a : Action} (h : step s a = some t) : Move s a t := by
  unfold step at h
  split at h
  · exact absurd h (by simp)
  · rename_i a hne
    obtain ⟨t, ht, rfl⟩ := Option.map_eq_some_iff.mp h
    exact .server a t (fun k r heq => hne k r heq) ht
  · obtain ⟨g, hg, h⟩ := Option.bind_eq_some_iff.mp h
    obtain ⟨⟨f, conns⟩, hpull, h⟩ := Option.bind_eq_some_iff.mp h
    obtain ⟨t, ht, rfl⟩ := Option.map_eq_some_iff.mp h
    exact .recv _ g f conns t hg hpull ht
  · split_ifs at h with hrun hany
    obtain ⟨x, hx, hclosed⟩ := List.any_eq_true.mp hany
    cases h
    exact .sigpipe _ x (Bool.not_eq_true _ ▸ hrun) hx ((closed_iff _).mp hclosed)
  · obtain ⟨v, hv, rfl⟩ := Option.map_eq_some_iff.mp h
    exact .call _ _ v hv
  · obtain ⟨v, hv, rfl⟩ := Option.map_eq_some_iff.mp h
    exact .send _ v hv
  · split at h
    · exact absurd h (by simp)
    · rename_i x r hfd
      obtain ⟨v, hv, rfl⟩ := Option.map_eq_some_iff.mp h
      exact .receive _ x r v hfd hv

/-! ### The law -/

/-- What was sent to the client on `fd`: what it has shown, has in hand, and has yet to receive. -/
def State.stream (s : State) (fd : ℤ) : List (ℕ × Buffer bufSize) :=
  (s.clients fd).got ++ (s.clients fd).hand ++ s.toClient fd

/-- What the client on `fd`, the entry `i` of `group_queue`, has shown of the frames of the handler `k`
and what of them is on its way to it. -/
def State.course (s : State) (k i : ℕ) (fd : ℤ) (h : SocketHandler) : List (Buffer bufSize) :=
  Pipes.cameFrom k (s.stream fd) ++ h.owed i ++ nonQuit (s.conns.waiting h.server)

/-- The screens of a chat. -/
structure Screens (s : State) : Prop where
  shows : ∀ fd, (s.clients fd).Shows
  /-- What a client has shown of another one and what is on its way are the last words that the other
  one has typed. -/
  heard : ∀ (k i : ℕ) fd h, s.server.handlers[k]? = some h →
    s.server.globals.group_queue[i]? = some fd →
      (s.course k i fd h).map text <:+ (said (s.clients h.server).typed).map Word.text
  /-- Nothing is sent to a client that is not in `group_queue`. -/
  unheard : ∀ fd, fd ∉ s.server.globals.group_queue → s.stream fd = []

/-! ### What the server has in hand -/

/-- The frame a handler has received and not yet relayed to all. -/
def inHand (h : SocketHandler) : List (Buffer bufSize) :=
  match h.pc with
  | .compare => if isQuit h.buffer.bytes then [] else [h.buffer]
  | .bound => [h.buffer]
  | .sending _ _ => [h.buffer]
  | _ => []

theorem owed_eq (h : SocketHandler) (i : ℕ) : h.owed i = [] ∨ h.owed i = inHand h := by
  unfold SocketHandler.owed inHand
  cases h.pc with
  | compare => exact Or.inr rfl
  | bound => exact Or.inr rfl
  | sending j last =>
    dsimp only
    split_ifs
    · exact Or.inr rfl
    · exact Or.inl rfl
  | _ => exact Or.inl rfl

section Server

variable {s t : ChatServer.State} {a : ChatServer.Action} {k : ℕ} {h h' : SocketHandler} {fd : ℤ}

/-- A step that receives nothing: a handler keeps the frame in its hand or is done with it. -/
theorem handler_step (hi : ChatServer.Inv s) (hs : ChatServer.server.step s a = some t)
    (ha : ∀ k r, a ≠ .recv k r) (hk : t.handlers[k]? = some h') :
    (∃ h, s.handlers[k]? = some h ∧ h'.server = h.server ∧ (inHand h' = inHand h ∨ inHand h' = [])) ∨
      (k = s.handlers.length ∧ inHand h' = []) := by
  have hold : s.handlers[k]? = some h' → ∃ h, s.handlers[k]? = some h ∧ h'.server = h.server ∧
      (inHand h' = inHand h ∨ inHand h' = []) := fun hk => ⟨h', hk, rfl, Or.inl rfl⟩
  cases ChatServer.step_move hs with
  | accept => exact Or.inl (hold hk)
  | acceptFailed => exact Or.inl (hold hk)
  | count => exact Or.inl (hold hk)
  | console => exact Or.inl (hold hk)
  | create csock buffer hmain =>
    dsimp only at hk
    by_cases hlt : k < s.handlers.length
    · rw [List.getElem?_append_left hlt] at hk
      exact Or.inl (hold hk)
    · rw [List.getElem?_append_right (by omega), List.getElem?_singleton] at hk
      split_ifs at hk with hz
      exact Or.inr ⟨by omega, Option.some.inj hk ▸ rfl⟩
  | recv j r => exact absurd rfl (ha j r)
  | run j g g' G hj he =>
    dsimp only at hk
    by_cases hkj : k = j
    · subst hkj
      rw [getElem?_set_of_some hj] at hk
      obtain rfl := Option.some.inj hk
      refine Or.inl ⟨g, hj, ?_⟩
      have hok := hi.handlers g (List.mem_of_getElem? hj)
      cases he with
      | push hpc => exact ⟨rfl, Or.inr rfl⟩
      | quit hpc hq => exact ⟨rfl, Or.inr rfl⟩
      | print hpc hq => exact ⟨rfl, Or.inl (by simp [inHand, hpc, hq])⟩
      | bound hpc => exact ⟨rfl, Or.inl (by simp [inHand, hpc])⟩
      | send i last fd hpc => exact ⟨rfl, Or.inl (by simp [inHand, hpc])⟩
      | sent i last hpc =>
        have hexit : g.isExit = false := by
          rw [hok.exit, hpc]
          rfl
        exact ⟨rfl, Or.inr (by simp [inHand, hexit])⟩
      | erase hpc => exact absurd hpc hok.no_erase
    · rw [getElem?_set_of_ne hkj] at hk
      exact Or.inl (hold hk)

theorem cameFrom_sends (j : ℕ) :
    Pipes.cameFrom fd (sends s (.run j)) = (sendsTo fd j s (.run j)).map (Prod.mk j) :=
  Pipes.cameFrom_map fd (Prod.mk j) (sendsBy j s (.run j))

/-- What a step sends to `fd`, seen by the sending handler. -/
theorem cameFrom_sends_eq (k : ℕ) :
    Pipes.cameFrom k (Pipes.cameFrom fd (sends s a)) = sendsTo fd k s a := by
  by_cases ha : ∃ j, a = .run j
  · obtain ⟨j, rfl⟩ := ha
    rw [cameFrom_sends]
    by_cases hkj : j = k
    · subst hkj
      exact Pipes.cameFrom_tagged j _
    · rw [Pipes.cameFrom_tagged_of_ne hkj, ChatServer.sendsTo_of_ne (by simp [hkj])]
  · rw [ChatServer.sendsTo_of_ne fun heq => ha ⟨k, heq⟩]
    have hnone : sends s a = [] := by
      cases a with
      | run j => exact absurd ⟨j, rfl⟩ ha
      | _ => rfl
    rw [hnone]
    rfl

theorem handlers_grow (hs : ChatServer.server.step s a = some t) :
    s.handlers.length ≤ t.handlers.length := by
  cases ChatServer.step_move hs with
  | create => exact (Nat.le_add_right _ _).trans_eq List.length_append.symm
  | recv => exact List.length_set.ge
  | run => exact List.length_set.ge
  | _ => exact le_rfl

/-- What a step sends is in the hand of a handler, and goes to an entry of `group_queue`. -/
theorem mem_sends {x : ℕ × Buffer bufSize} (hs : ChatServer.server.step s a = some t)
    (hx : x ∈ Pipes.cameFrom fd (sends s a)) :
    fd ∈ s.globals.group_queue ∧ ∃ h, s.handlers[x.1]? = some h ∧ x.2 ∈ inHand h := by
  by_cases ha : ∃ j, a = .run j
  · obtain ⟨j, rfl⟩ := ha
    rw [cameFrom_sends] at hx
    obtain ⟨f, hf, rfl⟩ := List.mem_map.mp hx
    cases ChatServer.step_move hs with
    | run _ h h' g' hk he =>
      by_cases hsending : ∃ i last, h.pc = .sending i last
      · obtain ⟨i, last, hpc⟩ := hsending
        have hmem : (fd, f) ∈ sendsBy j s (.run j) := Pipes.mem_cameFrom.mp hf
        rcases ChatServer.sending_step hs hk hpc with ⟨-, fd', hfd', hsend, -⟩ | ⟨-, hsend, -⟩
        · rw [hsend] at hmem
          obtain ⟨rfl, rfl⟩ := Prod.mk.inj (List.mem_singleton.mp hmem)
          refine ⟨List.mem_of_getElem? hfd', h, hk, ?_⟩
          rw [inHand, hpc]
          exact List.mem_cons_self
        · rw [hsend] at hmem
          exact absurd hmem List.not_mem_nil
      · rw [ChatServer.sendsTo_of_pc hk fun i last hpc => hsending ⟨i, last, hpc⟩] at hf
        exact absurd hf List.not_mem_nil
  · cases a with
    | run j => exact absurd ⟨j, rfl⟩ ha
    | _ => exact absurd hx List.not_mem_nil

end Server

/-! ### The course of the frames -/

section Course

variable {s : State} {k i : ℕ} {fd : ℤ} {h : SocketHandler}

theorem stream_serve (s : State) (a : ChatServer.Action) (t : ChatServer.State) (fd : ℤ) :
    (s.serve a t).stream fd = s.stream fd ++ Pipes.cameFrom fd (sends s.server a) :=
  (List.append_assoc _ _ _).symm

theorem course_serve_eq (s : State) (a : ChatServer.Action) (t : ChatServer.State) (k i : ℕ) (fd : ℤ)
    (h : SocketHandler) : (s.serve a t).course k i fd h = Pipes.cameFrom k (s.stream fd) ++
      (sendsTo fd k s.server a ++ h.owed i) ++ nonQuit (s.conns.waiting h.server) := by
  rw [State.course, stream_serve, Pipes.cameFrom_append, cameFrom_sends_eq,
    List.append_assoc _ _ (h.owed i)]
  rfl

/-- A step of the server passes frames on. -/
theorem course_serve (hi : ChatServer.Inv s.server) {a : ChatServer.Action} {t : ChatServer.State}
    (ha : ∀ k r, a ≠ .recv k r) (hs : ChatServer.server.step s.server a = some t)
    (hk : s.server.handlers[k]? = some h) (hfd : s.server.globals.group_queue[i]? = some fd) :
    ∃ h', t.handlers[k]? = some h' ∧ h'.server = h.server ∧
      (s.serve a t).course k i fd h' = s.course k i fd h := by
  obtain ⟨h', hk'⟩ : ∃ h', t.handlers[k]? = some h' :=
    ⟨_, List.getElem?_eq_getElem ((List.getElem?_eq_some_iff.mp hk).1.trans_le (handlers_grow hs))⟩
  have hserver : h'.server = h.server := by
    rcases handler_step hi hs ha hk' with ⟨g, hg, hserver, -⟩ | ⟨hlen, -⟩
    · rw [hserver, Option.some.inj (hg.symm.trans hk)]
    · have := (List.getElem?_eq_some_iff.mp hk).1
      omega
  refine ⟨h', hk', hserver, ?_⟩
  have howed := ChatServer.owedBy_step (k := k) hi hfd hs
  rw [ChatServer.relays_of_ne (ha k), List.append_nil, ChatServer.owedBy_some hk,
    ChatServer.owedBy_some hk'] at howed
  rw [course_serve_eq, ← howed, hserver]
  rfl

/-- What the server's `recv` on a connection does: one handler has the frame in its buffer. -/
theorem recv_step {g : SocketHandler} {f : Buffer bufSize} {t : ChatServer.State}
    (hg : s.server.handlers[k]? = some g)
    (hs : ChatServer.server.step s.server (.recv k (.data f.bytes)) = some t) :
    g.pc = .recv ∧ t = { s.server with
      handlers := s.server.handlers.set k { g with buffer := f, pc := .compare } } := by
  cases ChatServer.step_move hs with
  | recv _ _ g' hg' hpc =>
    obtain rfl := Option.some.inj (hg.symm.trans hg')
    have hbuf : Fssn.recv g.buffer (.data f.bytes) = f := Buffer.fill_frame _ _
    rw [hbuf]
    exact ⟨hpc, rfl⟩

/-- Different handlers have different connections. -/
theorem waiting_other (hi : ChatServer.Inv s.server) {j : ℕ} {g : SocketHandler}
    {f : Buffer bufSize} {conns : Pipes ℤ (Buffer bufSize)} (hg : s.server.handlers[k]? = some g)
    (hpull : s.conns.pull g.server = some (f, conns)) (hj : s.server.handlers[j]? = some h)
    (hjk : j ≠ k) : conns.waiting h.server = s.conns.waiting h.server := by
  refine (Pipes.pull_some hpull).2.2.2 _ fun heq => hjk ?_
  exact index_eq_of_nodup hi.servers_nodup hj hg heq

/-- A handler's `recv` takes a frame off its connection and has it in hand. -/
theorem course_recv (hi : ChatServer.Inv s.server) {j : ℕ} {g : SocketHandler} {f : Buffer bufSize}
    {conns : Pipes ℤ (Buffer bufSize)} {t : ChatServer.State} (hg : s.server.handlers[j]? = some g)
    (hpull : s.conns.pull g.server = some (f, conns))
    (hs : ChatServer.server.step s.server (.recv j (.data f.bytes)) = some t)
    (hk : s.server.handlers[k]? = some h) :
    ∃ h', t.handlers[k]? = some h' ∧ h'.server = h.server ∧
      State.course { s with server := t, conns := conns } k i fd h' = s.course k i fd h := by
  obtain ⟨hpc, rfl⟩ := recv_step hg hs
  by_cases hkj : k = j
  · subst hkj
    obtain rfl := Option.some.inj (hg.symm.trans hk)
    refine ⟨_, getElem?_set_of_some hk _, rfl, ?_⟩
    have hwait : nonQuit (s.conns.waiting g.server) =
        nonQuit [f] ++ nonQuit (conns.waiting g.server) := by
      rw [(Pipes.pull_some hpull).2.2.1, ← nonQuit_append]
      rfl
    have hnone : g.owed i = [] := by rw [SocketHandler.owed, hpc]
    rw [State.course, State.course, hnone, hwait, List.append_nil, nonQuit_one, ← List.append_assoc]
    rfl
  · refine ⟨h, (getElem?_set_of_ne hkj _).trans hk, rfl, ?_⟩
    rw [State.course, State.course, waiting_other hi hg hpull hk hkj]
    rfl

/-- What a client receives was sent to it. -/
theorem receive_stream {x : ℕ × Buffer bufSize} {r : List (ℕ × Buffer bufSize)} {v : Client ℕ}
    (hfd : s.toClient fd = x :: r) (hv : (s.clients fd).receive .tcp x = some v) :
    v.got ++ v.hand ++ r = s.stream fd := by
  obtain ⟨-, hhand, hgot, hhand', -⟩ := receive_some hv
  rw [hgot, hhand', State.stream, hhand, hfd, List.append_nil, List.append_assoc]
  rfl

theorem stream_update {v : Client ℕ} {queue : List (ℕ × Buffer bufSize)}
    (h : v.got ++ v.hand ++ queue = s.stream fd) (d : ℤ) :
    State.stream { s with
      clients := Function.update s.clients fd v
      toClient := Function.update s.toClient fd queue } d = s.stream d := by
  unfold State.stream
  dsimp only
  by_cases hd : d = fd
  · subst hd
    rw [Function.update_self, Function.update_self]
    exact h
  · rw [Function.update_of_ne hd, Function.update_of_ne hd]

/-- Sending leaves what was sent to the clients. -/
theorem stream_send {v : Client ℕ} (hv : (s.clients fd).send = some v)
    (conns : Pipes ℤ (Buffer bufSize)) (d : ℤ) :
    State.stream { s with clients := Function.update s.clients fd v, conns := conns } d =
      s.stream d := by
  obtain ⟨w, -, rfl⟩ := send_some hv
  unfold State.stream
  dsimp only
  by_cases hd : d = fd
  · subst hd
    rw [Function.update_self]
    rfl
  · rw [Function.update_of_ne hd]

end Course

/-! ### The invariant -/

/-- Holds in every reachable state. -/
structure Inv (s : State) : Prop where
  server : ChatServer.Inv s.server
  fifo : s.conns.Fifo
  typed : ∀ fd, List.Forall₂ Holds (s.conns.pushed fd) (s.clients fd).typed
  sending : ∀ fd w, (s.clients fd).pc = .send w → Holds (s.clients fd).buffer w
  shows : ∀ fd, (s.clients fd).Shows
  good : ∀ fd, ∀ x ∈ s.stream fd, ∃ w, Holds x.2 w
  senders : ∀ fd, ∀ x ∈ s.stream fd, x.1 < s.server.handlers.length
  hand : ∀ (k : ℕ) h, s.server.handlers[k]? = some h →
    inHand h ++ nonQuit (s.conns.waiting h.server) <:+ nonQuit (s.conns.pushed h.server)
  heard : ∀ (k i : ℕ) fd h, s.server.handlers[k]? = some h →
    s.server.globals.group_queue[i]? = some fd →
      s.course k i fd h <:+ nonQuit (s.conns.pushed h.server)
  unheard : ∀ fd, fd ∉ s.server.globals.group_queue → s.stream fd = []

theorem inv_init (b : ℤ → Buffer bufSize × Buffer bufSize) : Inv (system b).init where
  server := ChatServer.inv_init
  fifo := Pipes.Fifo.empty
  typed _ := List.Forall₂.nil
  sending _ _ h := absurd h (by simp [system])
  shows _ := rfl
  good _ _ h := absurd h List.not_mem_nil
  senders _ _ h := absurd h List.not_mem_nil
  hand k h hk := absurd hk (by simp [system, ChatServer.server])
  heard k _ _ h hk := absurd hk (by simp [system, ChatServer.server])
  unheard _ _ := rfl

/-- What waits in a connection are the last frames that were sent on it. -/
theorem Inv.waiting_suffix {s : State} (hi : Inv s) (fd : ℤ) :
    nonQuit (s.conns.waiting fd) <:+ nonQuit (s.conns.pushed fd) := by
  rw [← hi.fifo fd, nonQuit_append]
  exact List.suffix_append _ _

section Step

variable {s : State}

/-- A step of the server that receives nothing. -/
theorem inv_server (hi : Inv s) {a : ChatServer.Action} {t : ChatServer.State}
    (ha : ∀ k r, a ≠ .recv k r) (hs : ChatServer.server.step s.server a = some t) :
    Inv (s.serve a t) := by
  have hqueue := ChatServer.queue_grows hi.server hs
  have hit := ChatServer.inv_step hi.server hs
  have hhand : ∀ (k : ℕ) h, t.handlers[k]? = some h →
      inHand h ++ nonQuit (s.conns.waiting h.server) <:+ nonQuit (s.conns.pushed h.server) := by
    intro k h' hk
    rcases handler_step hi.server hs ha hk with ⟨h, hk, hserver, hsame | hnone⟩ | ⟨-, hnone⟩
    · rw [hsame, hserver]
      exact hi.hand k h hk
    · rw [hnone]
      exact hi.waiting_suffix _
    · rw [hnone]
      exact hi.waiting_suffix _
  have hlen := handlers_grow hs
  refine ⟨hit, hi.fifo, hi.typed, hi.sending, hi.shows, fun fd x hx => ?_, fun fd x hx => ?_, hhand,
    fun k i fd h' hk hfd => ?_, fun fd hfd => ?_⟩
  · rw [stream_serve] at hx
    rcases List.mem_append.mp hx with hx | hx
    · exact hi.good fd x hx
    · obtain ⟨-, h, hk, hmem⟩ := mem_sends hs hx
      have hpushed := (hi.hand _ h hk).subset (List.mem_append_left _ hmem)
      obtain ⟨w, -, hw⟩ := exists_word (hi.typed _) (List.mem_filter.mp hpushed).1
      exact ⟨w, hw⟩
  · rw [stream_serve] at hx
    rcases List.mem_append.mp hx with hx | hx
    · exact (hi.senders fd x hx).trans_le hlen
    · obtain ⟨-, h, hk, -⟩ := mem_sends hs hx
      exact (List.getElem?_eq_some_iff.mp hk).1.trans_le hlen
  · -- a sender or a receiver that was not there before
    have hnew : Pipes.cameFrom k (s.stream fd) = [] → sendsTo fd k s.server a = [] →
        (s.serve a t).course k i fd h' <:+ nonQuit (s.conns.pushed h'.server) := by
      intro hnone hsend
      rw [course_serve_eq, hnone, hsend, List.nil_append, List.nil_append]
      rcases owed_eq h' i with howed | howed
      · rw [howed]
        exact hi.waiting_suffix _
      · rw [howed]
        exact hhand k h' hk
    rcases handler_step hi.server hs ha hk with ⟨h, hks, hserver, -⟩ | ⟨hklen, -⟩
    · by_cases hin : fd ∈ s.server.globals.group_queue
      · obtain ⟨j, hj⟩ := List.mem_iff_getElem?.mp hin
        have hjt := ChatServer.queue_keeps hi.server hj hs
        obtain rfl : j = i := by
          have hlt := (List.getElem?_eq_some_iff.mp hjt).1
          exact (List.getElem?_inj hlt hit.queue_nodup).mp (hjt.trans hfd.symm)
        obtain ⟨g, hg, -, hcourse⟩ := course_serve hi.server ha hs hks hj
        obtain rfl := Option.some.inj (hg.symm.trans hk)
        rw [hcourse, hserver]
        exact hi.heard k j fd h hks hj
      · refine hnew ?_ (ChatServer.sendsTo_nil hs hin)
        rw [hi.unheard fd hin]
        rfl
    · refine hnew ?_ ?_
      · refine List.eq_nil_iff_forall_not_mem.mpr fun f hf => ?_
        have := hi.senders fd _ (Pipes.mem_cameFrom.mp hf)
        omega
      · rw [← cameFrom_sends_eq]
        refine List.eq_nil_iff_forall_not_mem.mpr fun f hf => ?_
        obtain ⟨-, h, hks, -⟩ := mem_sends hs (Pipes.mem_cameFrom.mp hf)
        have := (List.getElem?_eq_some_iff.mp hks).1
        omega
  · have hold : fd ∉ s.server.globals.group_queue := fun hmem => hfd (hqueue.subset hmem)
    rw [stream_serve, hi.unheard fd hold, List.nil_append]
    refine List.eq_nil_iff_forall_not_mem.mpr fun x hx => ?_
    exact hold (mem_sends hs hx).1

/-- A handler takes the next frame of its client in. -/
theorem inv_recv (hi : Inv s) {k : ℕ} {g : SocketHandler} {f : Buffer bufSize}
    {conns : Pipes ℤ (Buffer bufSize)} {t : ChatServer.State} (hg : s.server.handlers[k]? = some g)
    (hpull : s.conns.pull g.server = some (f, conns))
    (hs : ChatServer.server.step s.server (.recv k (.data f.bytes)) = some t) :
    Inv { s with server := t, conns := conns } := by
  obtain ⟨hpushed, -, hself, -⟩ := Pipes.pull_some hpull
  have hit := ChatServer.inv_step hi.server hs
  have hlen := handlers_grow hs
  obtain ⟨hpc, ht⟩ := recv_step hg hs
  have hold : ∀ {j : ℕ} {h' : SocketHandler}, t.handlers[j]? = some h' →
      ∃ h, s.server.handlers[j]? = some h := fun {j h'} hj =>
    ⟨_, List.getElem?_eq_getElem (by
      have := (List.getElem?_eq_some_iff.mp hj).1
      rwa [ht, List.length_set] at this)⟩
  refine ⟨hit, hi.fifo.pull hpull, hpushed ▸ hi.typed, hi.sending, hi.shows, hi.good,
    fun fd x hx => (hi.senders fd x hx).trans_le hlen, fun j h' hj => ?_, fun j i fd h' hj hfd => ?_,
    ht ▸ hi.unheard⟩
  · dsimp only at hj ⊢
    rw [hpushed]
    rw [ht] at hj
    by_cases hjk : j = k
    · subst hjk
      rw [getElem?_set_of_some hg] at hj
      obtain rfl := Option.some.inj hj
      have hno : inHand g = [] := by rw [inHand, hpc]
      have hnow := hi.hand j g hg
      rw [hno, List.nil_append, hself, ← List.singleton_append, nonQuit_append, nonQuit_one] at hnow
      exact hnow
    · rw [getElem?_set_of_ne hjk] at hj
      rw [waiting_other hi.server hg hpull hj hjk]
      exact hi.hand j h' hj
  · obtain ⟨h, hjs⟩ := hold hj
    have hfds : s.server.globals.group_queue[i]? = some fd := by
      rw [ht] at hfd
      exact hfd
    obtain ⟨g', hj', hserver, hcourse⟩ := course_recv hi.server hg hpull hs hjs
    obtain rfl := Option.some.inj (hj'.symm.trans hj)
    rw [hcourse, hpushed, hserver]
    exact hi.heard j i fd h hjs hfds

/-- A statement of a client that leaves what was sent to it, and what it has sent. -/
theorem inv_client (hi : Inv s) {fd : ℤ} {v : Client ℕ} {queue : List (ℕ × Buffer bufSize)}
    (htyped : v.typed = (s.clients fd).typed)
    (hstream : v.got ++ v.hand ++ queue = s.stream fd) (hshows : v.Shows)
    (hsending : ∀ w, v.pc = .send w → Holds v.buffer w) :
    Inv { s with
      clients := Function.update s.clients fd v
      toClient := Function.update s.toClient fd queue } := by
  set u : State := { s with
    clients := Function.update s.clients fd v
    toClient := Function.update s.toClient fd queue } with hu
  have hsame : ∀ d, u.stream d = s.stream d := stream_update hstream
  refine ⟨hi.server, hi.fifo, ?_, ?_, ?_, fun d => ?_, fun d => ?_, hi.hand,
    fun k i d h hk hd => ?_, fun d hd => ?_⟩
  · refine forall_update (P := fun d u => List.Forall₂ Holds (s.conns.pushed d) u.typed) hi.typed ?_
    rw [htyped]
    exact hi.typed fd
  · exact forall_update (P := fun _ u => ∀ w, u.pc = .send w → Holds u.buffer w) hi.sending hsending
  · exact forall_update (P := fun _ u => u.Shows) hi.shows hshows
  · rw [hsame]
    exact hi.good d
  · rw [hsame]
    exact hi.senders d
  · rw [State.course, hsame]
    exact hi.heard k i d h hk hd
  · rw [hsame]
    exact hi.unheard d hd

theorem inv_call (hi : Inv s) {fd : ℤ} {c : Call} {v : Client ℕ}
    (hc : (s.clients fd).call c = some v) :
    Inv { s with clients := Function.update s.clients fd v } := by
  have hgood : ∀ x ∈ (s.clients fd).hand, ∃ w, Holds x.2 w := fun x hx =>
    hi.good fd x (List.mem_append_left _ (List.mem_append_right _ hx))
  obtain ⟨htyped, hgot⟩ := call_stream hc
  have hstream : v.got ++ v.hand ++ s.toClient fd = s.stream fd := by
    rw [hgot]
    rfl
  have := inv_client hi htyped hstream (call_shows hc hgood (hi.shows fd))
    (call_sending hc (hi.sending fd))
  rwa [Function.update_eq_self] at this

theorem inv_receive (hi : Inv s) {fd : ℤ} {x : ℕ × Buffer bufSize} {r : List (ℕ × Buffer bufSize)}
    {v : Client ℕ} (hfd : s.toClient fd = x :: r) (hv : (s.clients fd).receive .tcp x = some v) :
    Inv { s with
      clients := Function.update s.clients fd v
      toClient := Function.update s.toClient fd r } := by
  obtain ⟨htyped, -, -, -, hpc, hbuffer, hshows⟩ := receive_some hv
  refine inv_client hi htyped (receive_stream hfd hv) (hshows (hi.shows fd)) fun w hw => ?_
  rw [hbuffer]
  exact hi.sending fd w (hpc ▸ hw)

/-- A client's frame goes into its connection. -/
theorem inv_send (hi : Inv s) {fd : ℤ} {v : Client ℕ} (hv : (s.clients fd).send = some v) :
    Inv { s with
      clients := Function.update s.clients fd v
      conns := s.conns.push fd (s.clients fd).buffer } := by
  have hstream := stream_send hv (s.conns.push fd (s.clients fd).buffer)
  obtain ⟨w, hpc, rfl⟩ := send_some hv
  have hholds := hi.sending fd w hpc
  set b := (s.clients fd).buffer with hb
  set v : Client ℕ := { s.clients fd with pc := .test, typed := (s.clients fd).typed ++ [w] } with hv'
  set u : State := { s with
    clients := Function.update s.clients fd v
    conns := s.conns.push fd b } with hu
  have hother : ∀ d, d ≠ fd → u.clients d = s.clients d := fun d hd => Function.update_of_ne hd _ _
  have hself : u.clients fd = v := Function.update_self _ _ _
  have hsame : ∀ d, u.stream d = s.stream d := hstream
  -- the frame is the last one sent and the last one waiting
  have hpush : ∀ d, ∃ new, u.conns.pushed d = s.conns.pushed d ++ new ∧
      u.conns.waiting d = s.conns.waiting d ++ new := by
    intro d
    by_cases hd : d = fd
    · subst hd
      exact ⟨[b], Function.update_self _ _ _, Function.update_self _ _ _⟩
    · exact ⟨[], by rw [List.append_nil]; exact Function.update_of_ne hd _ _,
        by rw [List.append_nil]; exact Function.update_of_ne hd _ _⟩
  have hsuffix : ∀ d (l : List (Buffer bufSize)),
      l ++ nonQuit (s.conns.waiting d) <:+ nonQuit (s.conns.pushed d) →
      l ++ nonQuit (u.conns.waiting d) <:+ nonQuit (u.conns.pushed d) := by
    rintro d l ⟨p, hp⟩
    obtain ⟨new, hpushed, hwaiting⟩ := hpush d
    refine ⟨p, ?_⟩
    rw [hpushed, hwaiting, nonQuit_append, nonQuit_append, ← hp]
    simp only [List.append_assoc]
  refine ⟨hi.server, hi.fifo.push fd b, fun d => ?_, fun d => ?_, fun d => ?_, fun d => ?_, fun d => ?_,
    fun k h hk => hsuffix _ _ (hi.hand k h hk), fun k i d h hk hd => ?_, fun d hd => ?_⟩
  · by_cases hd : d = fd
    · subst hd
      rw [hself, show u.conns.pushed d = s.conns.pushed d ++ [b] from Function.update_self _ _ _]
      exact List.rel_append (hi.typed d) (List.Forall₂.cons hholds List.Forall₂.nil)
    · rw [hother d hd, show u.conns.pushed d = _ from Function.update_of_ne hd _ _]
      exact hi.typed d
  · exact forall_update (P := fun _ u => ∀ w, u.pc = .send w → Holds u.buffer w) hi.sending
      (fun w hw => absurd hw (by simp [hv'])) d
  · refine forall_update (P := fun _ u => u.Shows) hi.shows ?_ d
    have hold := hi.shows fd
    unfold Client.Shows at hold ⊢
    rw [hpc] at hold
    exact hold
  · rw [hsame]
    exact hi.good d
  · rw [hsame]
    exact hi.senders d
  · have hold := hi.heard k i d h hk hd
    rw [State.course] at hold
    rw [State.course, hsame]
    exact hsuffix _ _ hold
  · rw [hsame]
    exact hi.unheard d hd

/-- The end of the server's process changes nothing that is sent, waits or is shown. -/
theorem inv_kill (hi : Inv s) : Inv s.kill :=
  ⟨⟨hi.server.opened_nodup, hi.server.opened_eq, hi.server.queue, hi.server.count, hi.server.handlers⟩,
    hi.fifo, hi.typed, hi.sending, hi.shows, hi.good, hi.senders, hi.hand, hi.heard, hi.unheard⟩

theorem inv_step (hi : Inv s) {a : Action} {t : State} (h : step s a = some t) : Inv t := by
  cases step_move h with
  | server a t hne ht => exact inv_server hi hne ht
  | recv k g f conns t hg hpull ht => exact inv_recv hi hg hpull ht
  | sigpipe => exact inv_kill hi
  | call fd c v hv => exact inv_call hi hv
  | send fd v hv => exact inv_send hi hv
  | receive fd x r v hfd hv => exact inv_receive hi hfd hv

end Step

/-! ### The results -/

theorem Inv.screens {s : State} (hi : Inv s) : Screens s where
  shows := hi.shows
  heard k i fd h hk hfd := by
    rw [← said_texts (hi.typed h.server)]
    exact (hi.heard k i fd h hk hfd).map _
  unheard := hi.unheard

/-- **The screens of the TCP chat**, in every state of every run of any clients. -/
theorem chat_screens (b : ℤ → Buffer bufSize × Buffer bufSize) (as : List Action) :
    (system b).Always Screens as :=
  (System.always_of_step (inv_init b) (fun _ _ _ hi h => inv_step hi h) as).imp fun _ => Inv.screens

end Fssn.Tcp.Chat
