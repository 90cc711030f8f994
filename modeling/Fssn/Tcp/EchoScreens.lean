import Fssn.ChatClient
import Fssn.Lib.Variant
import Fssn.Tcp.EchoServer

/-!
# Fssn.Tcp.EchoScreens — the multithreaded TCP echo from keyboard to screen

The clients with two threads (`lec-03-prg-07`) around the multithreaded echo server
(`lec-03-prg-06`).  Connections keep the order of the frames, and every `recv` returns a whole one.  A
client that has sent `quit` closes its connection, and a `send` of what it had typed before may then end
the server with `SIGPIPE` (the step `sigpipe`) or succeed; no other `send` fails.

* `echo_screens`: a client shows the first words that it has typed itself, in order, and no others.
* `echo_delivers`: when nothing is left to be passed on and the server runs, a client that has not typed
  `quit` has shown all its words, and things do come to such a rest.  While nobody has typed `quit`, the
  server runs on.
-/

namespace Fssn.Tcp.EchoScreens

open Fssn.Lib ChatClient
open ChatServer (MainPc)
open EchoServer (SocketHandler Globals)
open EchoSession (Word)

/-! ### What the server has in hand -/

/-- The frame that a handler has received and is going to send back. -/
def inHand (h : SocketHandler) : List (Buffer bufSize) :=
  match h.pc with
  | .compare => if isQuit h.buffer.bytes then [] else [h.buffer]
  | .echo => [h.buffer]
  | .send => [h.buffer]
  | _ => []

/-- The steps that a handler has to take before it receives again, or asks the operator, and the
client because of it. -/
def handlerLoad (h : SocketHandler) : ℕ :=
  match h.pc with
  | .compare => 5
  | .echo => 4
  | .send => 3
  | .decrement => 4
  | .report => 3
  | .test => 2
  | .prompt => 1
  | .exit => 1
  | _ => 0

/-- Going from `h` to `h'`, a handler sends the frames `fs` of those in its hand. -/
structure Passes (g : Globals) (h : SocketHandler) (g' : Globals) (h' : SocketHandler)
    (fs : List (Buffer bufSize)) : Prop where
  server : h'.server = h.server
  echoed : g'.echoed = g.echoed ++ fs.map (Prod.mk h.server)
  hand : inHand h = fs ++ inHand h'

theorem statement_passes {g g' : Globals} {h h' : SocketHandler}
    (hs : EchoServer.statement g h = some (g', h')) :
    ∃ fs, Passes g h g' h' fs ∧ handlerLoad h' + 2 * fs.length < handlerLoad h := by
  have hnone : ∀ {g₁ : Globals} {h₁ : SocketHandler}, h₁.server = h.server →
      g₁.echoed = g.echoed → inHand h = inHand h₁ → handlerLoad h₁ < handlerLoad h →
      ∃ fs, Passes g h g₁ h₁ fs ∧ handlerLoad h₁ + 2 * fs.length < handlerLoad h :=
    fun hserver hechoed hhand hload =>
      ⟨[], ⟨hserver, hechoed.trans (List.append_nil _).symm, hhand⟩, hload⟩
  unfold EchoServer.statement at hs
  split at hs
  case h_1 => exact absurd hs (by simp)
  case h_2 hpc =>
    cases hs
    by_cases hq : isQuit h.buffer.bytes = true
    · exact hnone rfl rfl (by simp [inHand, hpc, hq]) (by simp [handlerLoad, hpc, hq])
    · exact hnone rfl rfl (by simp [inHand, hpc, hq]) (by simp [handlerLoad, hpc, hq])
  case h_4 hpc =>
    -- the frame leaves the hand
    cases hs
    refine ⟨[h.buffer], ⟨rfl, rfl, ?_⟩, ?_⟩
    · by_cases hexit : h.isExit = true
      · simp [inHand, hpc, hexit]
      · simp [inHand, hpc, hexit]
    · by_cases hexit : h.isExit = true
      · simp [handlerLoad, hpc, hexit]
      · simp [handlerLoad, hpc, hexit]
  case h_7 hpc =>
    split_ifs at hs
    · cases hs
      exact hnone rfl rfl (by simp [inHand, hpc]) (by simp [handlerLoad, hpc])
    · cases hs
      exact hnone rfl rfl (by simp [inHand, hpc]) (by simp [handlerLoad, hpc])
  case h_9 => exact absurd hs (by simp)
  case h_11 => exact absurd hs (by simp)
  all_goals
    rename_i hpc
    cases hs
    exact hnone rfl rfl (by simp [inHand, hpc]) (by simp [handlerLoad, hpc])

section Server

variable {s t : EchoServer.State} {k : ℕ}

/-- The statement of a running server. -/
theorem run_some (hs : EchoServer.server.step s (.run k) = some t) :
    ∃ h h' g', s.handlers[k]? = some h ∧ EchoServer.statement s.globals h = some (g', h') ∧
      t = { s with globals := g', handlers := s.handlers.set k h' } := by
  change EchoServer.step s (.run k) = some t at hs
  unfold EchoServer.step at hs
  split_ifs at hs
  obtain ⟨h, hk, hs⟩ := Option.bind_eq_some_iff.mp hs
  obtain ⟨⟨g', h'⟩, hst, rfl⟩ := Option.map_eq_some_iff.mp hs
  exact ⟨h, h', g', hk, hst, rfl⟩

/-- A step of one handler, the operator's answer included. -/
theorem thread_passes {a : EchoServer.Action} (ha : a = .run k ∨ ∃ Yn, a = .answer k Yn)
    (hs : EchoServer.server.step s a = some t) :
    ∃ h h' g' fs, s.handlers[k]? = some h ∧ Passes s.globals h g' h' fs ∧
      t = { s with globals := g', handlers := s.handlers.set k h' } := by
  rcases ha with rfl | ⟨Yn, rfl⟩
  · obtain ⟨h, h', g', hk, hst, ht⟩ := run_some hs
    obtain ⟨fs, hpass, -⟩ := statement_passes hst
    exact ⟨h, h', g', fs, hk, hpass, ht⟩
  · change EchoServer.step s (.answer k Yn) = some t at hs
    unfold EchoServer.step at hs
    split_ifs at hs
    obtain ⟨h, hk, hs⟩ := Option.bind_eq_some_iff.mp hs
    split_ifs at hs with hpc hy
    · cases hs
      exact ⟨h, { h with Yn := Yn, pc := .exit }, s.globals, [], hk,
        ⟨rfl, (List.append_nil _).symm, by simp [inHand, hpc]⟩, rfl⟩
    · cases hs
      exact ⟨h, { h with Yn := Yn, isExit := true, pc := .finished }, s.globals, [], hk,
        ⟨rfl, (List.append_nil _).symm, by simp [inHand, hpc]⟩, rfl⟩

theorem accept_echoed {csock : ℤ} {sin_port : UInt16}
    (hs : EchoServer.server.step s (.accept csock sin_port) = some t) :
    t.globals.echoed = s.globals.echoed := by
  change EchoServer.step s (.accept csock sin_port) = some t at hs
  unfold EchoServer.step at hs
  split_ifs at hs
  dsimp only at hs
  split at hs
  · split_ifs at hs
    exact Option.some.inj hs ▸ rfl
  · exact absurd hs (by simp)

end Server

/-! ### One connection -/

def frames (l : List TextFrame) : List (Buffer bufSize) := l.map TextFrame.toBuffer

/-- What was sent back on the connection of a handler, what is in its hand, and what waits for it. -/
def course (s : EchoServer.State) (h : SocketHandler) : List (Buffer bufSize) :=
  Pipes.cameFrom h.server s.globals.echoed ++ inHand h ++
    nonQuit (frames (s.conns.waiting h.server))

/-- All frames that the clients have sent are on their course, and nothing else. -/
structure Echo (s : EchoServer.State) : Prop where
  inv : EchoServer.Inv s
  opened_nodup : s.opened.Nodup
  opened_eq : s.opened = s.handlers.map SocketHandler.server ++ s.main.pending
  course : ∀ (k : ℕ) h, s.handlers[k]? = some h →
    course s h = nonQuit (frames (s.conns.pushed h.server))
  unheard : ∀ fd, fd ∉ s.handlers.map SocketHandler.server →
    Pipes.cameFrom fd s.globals.echoed = [] ∧ Pipes.cameFrom fd s.conns.pulled = []

theorem echo_init : Echo EchoServer.server.init where
  inv := EchoServer.inv_init
  opened_nodup := List.nodup_nil
  opened_eq := rfl
  course k h hk := absurd hk (by simp [EchoServer.server])
  unheard _ _ := ⟨rfl, rfl⟩

section Echo

variable {s t : EchoServer.State} {k : ℕ} {h : SocketHandler}

theorem Echo.servers_nodup (he : Echo s) : (s.handlers.map SocketHandler.server).Nodup :=
  (List.nodup_append.mp (he.opened_eq ▸ he.opened_nodup)).1

/-- Different handlers have different connections. -/
theorem Echo.server_ne (he : Echo s) {j : ℕ} {g : SocketHandler} (hk : s.handlers[k]? = some h)
    (hj : s.handlers[j]? = some g) (hne : j ≠ k) : g.server ≠ h.server := fun heq =>
  hne (index_eq_of_nodup he.servers_nodup hj hk heq)

/-- A frame that a client sends is the last one on its course. -/
theorem echo_push (he : Echo s) (fd : ℤ) (f : TextFrame) :
    Echo { s with conns := s.conns.push fd f } := by
  refine ⟨⟨he.inv.fifo.push fd f, he.inv.count, fun h hh => ?_⟩, he.opened_nodup, he.opened_eq,
    fun k h hk => ?_, he.unheard⟩
  · exact (he.inv.handlers h hh).mono fun d g hg => EchoServer.sent_push hg fd f
  · have hold := he.course k h hk
    unfold EchoScreens.course at hold ⊢
    dsimp only
    by_cases hfd : h.server = fd
    · subst hfd
      rw [show (s.conns.push h.server f).waiting h.server = s.conns.waiting h.server ++ [f] from
          Function.update_self _ _ _,
        show (s.conns.push h.server f).pushed h.server = s.conns.pushed h.server ++ [f] from
          Function.update_self _ _ _]
      unfold frames at hold ⊢
      rw [List.map_append, List.map_append, nonQuit_append, nonQuit_append, ← List.append_assoc, hold]
    · rw [show (s.conns.push fd f).waiting h.server = s.conns.waiting h.server from
          Function.update_of_ne hfd _ _,
        show (s.conns.push fd f).pushed h.server = s.conns.pushed h.server from
          Function.update_of_ne hfd _ _]
      exact hold

/-- A handler takes the next frame in its hand. -/
theorem echo_recv (he : Echo s) {f : TextFrame} {conns : Pipes ℤ TextFrame}
    (hk : s.handlers[k]? = some h) (hpc : h.pc = .recv)
    (hpull : s.conns.pull h.server = some (f, conns))
    (hit : EchoServer.Inv { s with
      conns := conns
      handlers := s.handlers.set k { h with buffer := f.toBuffer, pc := .compare } }) :
    Echo { s with
      conns := conns
      handlers := s.handlers.set k { h with buffer := f.toBuffer, pc := .compare } } := by
  obtain ⟨hpushed, hpulled, hself, hother⟩ := Pipes.pull_some hpull
  have hservers := map_set_eq (f := SocketHandler.server)
    (b := { h with buffer := f.toBuffer, pc := .compare }) hk rfl
  refine ⟨hit, he.opened_nodup, ?_, fun j g hj => ?_, fun fd hfd => ?_⟩
  · rw [hservers]
    exact he.opened_eq
  · unfold EchoScreens.course
    dsimp only at hj ⊢
    rw [hpushed]
    by_cases hjk : j = k
    · subst hjk
      rw [getElem?_set_of_some hk] at hj
      obtain rfl := Option.some.inj hj
      have hold := he.course j h hk
      have hnone : inHand h = [] := by rw [inHand, hpc]
      have hwait : nonQuit (frames (s.conns.waiting h.server)) =
          nonQuit [f.toBuffer] ++ nonQuit (frames (conns.waiting h.server)) := by
        rw [hself, ← nonQuit_append]
        rfl
      rw [EchoScreens.course, hnone, List.append_nil, hwait, nonQuit_one, ← List.append_assoc] at hold
      exact hold
    · rw [getElem?_set_of_ne hjk] at hj
      rw [hother _ (he.server_ne hk hj hjk)]
      exact he.course j g hj
  · rw [hservers] at hfd
    have hne : h.server ≠ fd := by
      rintro rfl
      exact hfd (List.mem_map_of_mem (List.mem_of_getElem? hk))
    dsimp only
    rw [hpulled, Pipes.cameFrom_append, Pipes.cameFrom_of_ne hne, List.append_nil]
    exact he.unheard fd hfd

/-- A handler passes on what it has in hand. -/
theorem echo_thread (he : Echo s) {h' : SocketHandler} {g' : Globals} {fs : List (Buffer bufSize)}
    (hk : s.handlers[k]? = some h) (hpass : Passes s.globals h g' h' fs)
    (hit : EchoServer.Inv { s with globals := g', handlers := s.handlers.set k h' }) :
    Echo { s with globals := g', handlers := s.handlers.set k h' } := by
  have hservers := map_set_eq (f := SocketHandler.server) hk hpass.server
  have hself : Pipes.cameFrom h.server g'.echoed = Pipes.cameFrom h.server s.globals.echoed ++ fs := by
    rw [hpass.echoed, Pipes.cameFrom_append, Pipes.cameFrom_tagged]
  have hother : ∀ fd, fd ≠ h.server →
      Pipes.cameFrom fd g'.echoed = Pipes.cameFrom fd s.globals.echoed := by
    intro fd hfd
    rw [hpass.echoed, Pipes.cameFrom_append, Pipes.cameFrom_tagged_of_ne (Ne.symm hfd),
      List.append_nil]
  refine ⟨hit, he.opened_nodup, ?_, fun j g hj => ?_, fun fd hfd => ?_⟩
  · rw [hservers]
    exact he.opened_eq
  · unfold EchoScreens.course
    dsimp only at hj ⊢
    by_cases hjk : j = k
    · subst hjk
      rw [getElem?_set_of_some hk] at hj
      obtain rfl := Option.some.inj hj
      have hold := he.course j h hk
      unfold EchoScreens.course at hold
      rw [hpass.hand] at hold
      rw [hpass.server, hself, List.append_assoc _ fs]
      exact hold
    · rw [getElem?_set_of_ne hjk] at hj
      rw [hother _ (he.server_ne hk hj hjk)]
      exact he.course j g hj
  · rw [hservers] at hfd
    have hne : fd ≠ h.server := by
      rintro rfl
      exact hfd (List.mem_map_of_mem (List.mem_of_getElem? hk))
    dsimp only
    rw [hother fd hne]
    exact he.unheard fd hfd

/-- The server passes frames on. -/
theorem echo_step (he : Echo s) {a : EchoServer.Action} (hs : EchoServer.server.step s a = some t) :
    Echo t := by
  have hit := EchoServer.inv_step he.inv hs
  cases EchoServer.step_move hs with
  | accept csock sin_port g' hnum hmain hnew =>
    have hechoed : g'.echoed = s.globals.echoed := accept_echoed hs
    have hopened := he.opened_eq
    rw [hmain, MainPc.pending, List.append_nil] at hopened
    refine ⟨hit, ?_, congrArg (· ++ [csock]) hopened, fun k h hk => ?_, fun fd hfd => ?_⟩
    · refine List.nodup_append.mpr ⟨he.opened_nodup, List.nodup_singleton _, fun x hx y hy heq => ?_⟩
      exact hnew (List.mem_singleton.mp hy ▸ heq ▸ hx)
    · have hold := he.course k h hk
      unfold EchoScreens.course at hold ⊢
      dsimp only
      rw [hechoed]
      exact hold
    · dsimp only
      rw [hechoed]
      exact he.unheard fd hfd
  | acceptFailed => exact he
  | count csock hmain =>
    have hopened := he.opened_eq
    rw [hmain] at hopened
    exact ⟨hit, he.opened_nodup, hopened, he.course, he.unheard⟩
  | create csock this_id buffer hmain =>
    have hopened := he.opened_eq
    rw [hmain] at hopened
    refine ⟨hit, he.opened_nodup, ?_, fun k h hk => ?_, fun fd hfd => ?_⟩
    · rw [hopened, List.map_append]
      exact (List.append_nil _).symm
    · dsimp only at hk
      by_cases hlt : k < s.handlers.length
      · rw [List.getElem?_append_left hlt] at hk
        exact he.course k h hk
      · rw [List.getElem?_append_right (Nat.le_of_not_lt hlt)] at hk
        obtain rfl := List.mem_singleton.mp (List.mem_of_getElem? hk)
        -- nothing of the connection was received yet
        have hnew : csock ∉ s.handlers.map SocketHandler.server := fun hmem =>
          (List.nodup_append.mp (hopened ▸ he.opened_nodup)).2.2 csock hmem csock
            List.mem_cons_self rfl
        obtain ⟨hechoed, hpulled⟩ := he.unheard csock hnew
        have hfifo := he.inv.fifo csock
        rw [hpulled, List.nil_append] at hfifo
        show Pipes.cameFrom csock s.globals.echoed ++ [] ++ nonQuit (frames (s.conns.waiting csock)) = _
        rw [hechoed, hfifo]
        rfl
    · rw [List.map_append] at hfd
      exact he.unheard fd fun hmem => hfd (List.mem_append_left _ hmem)
  | clientSend fd f => exact echo_push he fd f
  | recv k h f conns hk hpc hpull => exact echo_recv he hk hpc hpull hit
  | run a k h h' g' ha hk hpc heff =>
    obtain ⟨h₁, h₁', g₁, fs, hk₁, hpass, ht⟩ := thread_passes ha hs
    rw [ht] at hit ⊢
    exact echo_thread he hk₁ hpass hit

end Echo

/-! ### Clients around the server -/

/-- The server and the clients by the descriptors of their connections in the server. -/
structure State where
  server : EchoServer.State
  clients : ℤ → Client Unit

inductive Action
  | server (a : EchoServer.Action)
  | sigpipe (k : ℕ)
  | call (fd : ℤ) (c : Call)
  | send (fd : ℤ)
  | receive (fd : ℤ)

/-- What was sent back on the connection and the client has not received. -/
def State.toClient (s : State) (fd : ℤ) : List (Buffer bufSize) :=
  (Pipes.cameFrom fd s.server.globals.echoed).drop
    ((s.clients fd).got ++ (s.clients fd).hand).length

/-- The echo after the server's process has ended. -/
def State.kill (s : State) : State :=
  { s with server := { s.server with globals := { s.server.globals with exited := true } } }

def step (s : State) : Action → Option State
  | .server (.clientSend _ _) => none
  | .server a => (EchoServer.server.step s.server a).map fun t => { s with server := t }
  | .sigpipe k =>
    match s.server.handlers[k]? with
    | some h =>
      if s.server.globals.exited = false ∧ h.pc = .send ∧ (s.clients h.server).closed then some s.kill
      else none
    | none => none
  | .call fd c => ((s.clients fd).call c).map fun v =>
      { s with clients := Function.update s.clients fd v }
  | .send fd => (s.clients fd).send.bind fun v =>
      -- `cin >> buffer` has left a NUL in the buffer
      if h : 0 ∈ (s.clients fd).buffer.bytes then
        some {
          server := { s.server with conns := s.server.conns.push fd ⟨(s.clients fd).buffer, h⟩ }
          clients := Function.update s.clients fd v }
      else none
  | .receive fd =>
    match s.toClient fd with
    | [] => none
    | f :: _ => ((s.clients fd).receive .tcp ((), f)).map fun v =>
        { s with clients := Function.update s.clients fd v }

/-- The programs before the first client is accepted; `b` is what the stacks of the clients hold. -/
def system (b : ℤ → Buffer bufSize × Buffer bufSize) : System State Action where
  init := ⟨EchoServer.server.init, fun fd => ⟨(b fd).1, .activate, [], (b fd).2, .recv, [], []⟩⟩
  step := step

/-- A step, with what it needs. -/
inductive Move (s : State) : Action → State → Prop
  | server (a : EchoServer.Action) (t : EchoServer.State)
      (ht : EchoServer.server.step s.server a = some t) (ha : ∀ fd f, a ≠ .clientSend fd f) :
      Move s (.server a) { s with server := t }
  | sigpipe (k : ℕ) (h : SocketHandler) (hrun : s.server.globals.exited = false)
      (hk : s.server.handlers[k]? = some h) (hpc : h.pc = .send)
      (hleft : (s.clients h.server).pc = .left) : Move s (.sigpipe k) s.kill
  | call (fd : ℤ) (c : Call) (v : Client Unit) (hv : (s.clients fd).call c = some v) :
      Move s (.call fd c) { s with clients := Function.update s.clients fd v }
  | send (fd : ℤ) (v : Client Unit) (f : TextFrame) (hf : f.toBuffer = (s.clients fd).buffer)
      (hv : (s.clients fd).send = some v) :
      Move s (.send fd) {
        server := { s.server with conns := s.server.conns.push fd f }
        clients := Function.update s.clients fd v }
  | receive (fd : ℤ) (f : Buffer bufSize) (r : List (Buffer bufSize)) (v : Client Unit)
      (hfd : s.toClient fd = f :: r) (hv : (s.clients fd).receive .tcp ((), f) = some v) :
      Move s (.receive fd) { s with clients := Function.update s.clients fd v }

theorem step_move {s t : State} {a : Action} (h : step s a = some t) : Move s a t := by
  unfold step at h
  split at h
  · exact absurd h (by simp)
  · rename_i a hne
    obtain ⟨t, ht, rfl⟩ := Option.map_eq_some_iff.mp h
    exact .server a t ht fun fd f heq => hne fd f heq
  · split at h
    · rename_i g hk
      split_ifs at h with hif
      cases h
      exact .sigpipe _ g hif.1 hk hif.2.1 ((closed_iff _).mp hif.2.2)
    · exact absurd h (by simp)
  · obtain ⟨v, hv, rfl⟩ := Option.map_eq_some_iff.mp h
    exact .call _ _ v hv
  · obtain ⟨v, hv, h⟩ := Option.bind_eq_some_iff.mp h
    split_ifs at h with hnul
    obtain rfl := Option.some.inj h
    exact .send _ v ⟨_, hnul⟩ rfl hv
  · split at h
    · exact absurd h (by simp)
    · rename_i f r hfd
      obtain ⟨v, hv, rfl⟩ := Option.map_eq_some_iff.mp h
      exact .receive _ f r v hfd hv

/-! ### The law -/

/-- The texts that a client has shown. -/
def shown (v : Client Unit) : List Bytes := v.got.map fun x => text x.2

/-- The screens around the echo server. -/
structure Screens (s : State) : Prop where
  shows : ∀ fd, (s.clients fd).Shows
  /-- A client is shown the first words that it has typed. -/
  own : ∀ fd, shown (s.clients fd) <+: (said (s.clients fd).typed).map Word.text

/-- The steps that pass on what was typed; the answer of the operator is none of them. -/
def Delivers : Action → Prop
  | .server (.run _) => True
  | .server (.recv _) => True
  | .sigpipe _ => True
  | .call _ .print => True
  | .receive _ => True
  | _ => False

/-- No client that has a handler has typed `quit`. -/
def Staying (s : State) : Prop :=
  ∀ fd ∈ s.server.handlers.map SocketHandler.server,
    ∀ w ∈ (s.clients fd).typed, w.text ≠ ascii "quit"

structure Delivery (b : ℤ → Buffer bufSize × Buffer bufSize) (s : State) : Prop where
  /-- At rest, a client with a handler that has not typed `quit` has shown all its words. -/
  heard : s.server.globals.exited = false → (system b).Quiet Delivers s →
    ∀ h ∈ s.server.handlers, (∀ w ∈ (s.clients h.server).typed, w.text ≠ ascii "quit") →
      shown (s.clients h.server) = (s.clients h.server).typed.map Word.text
  /-- There is a rest, and every way to it is bounded. -/
  rests : ∃ n, ∀ as t, (∀ a ∈ as, Delivers a) → (system b).exec s as = some t → as.length ≤ n ∧
    ∃ bs u, (∀ a ∈ bs, Delivers a) ∧ (system b).exec t bs = some u ∧ (system b).Quiet Delivers u
  /-- While nobody has typed `quit`, nothing that is passed on ends the server. -/
  runs : Staying s → ∀ as t, (∀ a ∈ as, Delivers a) → (system b).exec s as = some t →
    t.server.globals.exited = s.server.globals.exited

/-! ### The invariant -/

/-- The frames that a client has received. -/
def received (v : Client Unit) : List (Buffer bufSize) := (v.got ++ v.hand).map Prod.snd

/-- Holds in every reachable state. -/
structure Inv (s : State) : Prop where
  echo : Echo s.server
  typed : ∀ fd, List.Forall₂ Holds (frames (s.server.conns.pushed fd)) (s.clients fd).typed
  sending : ∀ fd w, (s.clients fd).pc = .send w → Holds (s.clients fd).buffer w
  leaving : ∀ fd, (s.clients fd).Leaving
  shows : ∀ fd, (s.clients fd).Shows
  received : ∀ fd, received (s.clients fd) <+: Pipes.cameFrom fd s.server.globals.echoed

theorem inv_init (b : ℤ → Buffer bufSize × Buffer bufSize) : Inv (system b).init where
  echo := echo_init
  typed _ := List.Forall₂.nil
  sending _ _ h := absurd h (by simp [system])
  leaving _ := ⟨fun h => absurd h (by simp [system]), fun h => absurd h (by simp [system])⟩
  shows _ := rfl
  received _ := List.nil_prefix

/-- What was sent back to a client are the first words that it has typed. -/
theorem Inv.echoed_texts {s : State} (hi : Inv s) (fd : ℤ) :
    (Pipes.cameFrom fd s.server.globals.echoed).map text <+:
      (said (s.clients fd).typed).map Word.text := by
  rw [← said_texts (hi.typed fd)]
  by_cases hfd : fd ∈ s.server.handlers.map SocketHandler.server
  · obtain ⟨h, hh, rfl⟩ := List.mem_map.mp hfd
    obtain ⟨k, hk⟩ := List.mem_iff_getElem?.mp hh
    rw [← hi.echo.course k h hk, course, List.append_assoc]
    exact (List.prefix_append _ _).map text
  · rw [(hi.echo.unheard fd hfd).1]
    exact List.nil_prefix

/-- A frame that was sent back holds a word. -/
theorem Inv.holds {s : State} (hi : Inv s) {fd : ℤ} {f : Buffer bufSize}
    (hf : f ∈ Pipes.cameFrom fd s.server.globals.echoed) : ∃ w, Holds f w := by
  have hfd : fd ∈ s.server.handlers.map SocketHandler.server := by
    by_contra hno
    rw [(hi.echo.unheard fd hno).1] at hf
    exact absurd hf List.not_mem_nil
  obtain ⟨h, hh, rfl⟩ := List.mem_map.mp hfd
  obtain ⟨k, hk⟩ := List.mem_iff_getElem?.mp hh
  have hmem : f ∈ course s.server h :=
    List.mem_append_left _ (List.mem_append_left _ hf)
  rw [hi.echo.course k h hk] at hmem
  obtain ⟨w, -, hw⟩ := exists_word (hi.typed h.server) (List.mem_filter.mp hmem).1
  exact ⟨w, hw⟩

section Step

variable {s t : State}

/-- Nothing that was sent back is taken back. -/
theorem echoed_grows {s t : EchoServer.State} {a : EchoServer.Action}
    (hs : EchoServer.server.step s a = some t) (fd : ℤ) :
    Pipes.cameFrom fd s.globals.echoed <+: Pipes.cameFrom fd t.globals.echoed := by
  cases EchoServer.step_move hs with
  | accept csock sin_port g' => rw [show g'.echoed = s.globals.echoed from accept_echoed hs]
  | run a k h h' g' ha hk hpc heff =>
    obtain ⟨h₁, h₁', g₁, fs, hk₁, hpass, ht⟩ := thread_passes ha hs
    rw [ht, hpass.echoed, Pipes.cameFrom_append]
    exact List.prefix_append _ _
  | _ => exact List.prefix_refl _

/-- Only clients put frames into their connections. -/
theorem pushed_keeps {s t : EchoServer.State} {a : EchoServer.Action}
    (hs : EchoServer.server.step s a = some t) (ha : ∀ fd f, a ≠ .clientSend fd f) :
    t.conns.pushed = s.conns.pushed := by
  cases EchoServer.step_move hs with
  | clientSend fd f => exact absurd rfl (ha fd f)
  | recv k h f conns hk hpc hpull => exact (Pipes.pull_some hpull).1
  | _ => rfl

theorem inv_server (hi : Inv s) {a : EchoServer.Action} {t : EchoServer.State}
    (hs : EchoServer.server.step s.server a = some t) (ha : ∀ fd f, a ≠ .clientSend fd f) :
    Inv { s with server := t } := by
  refine ⟨echo_step hi.echo hs, ?_, hi.sending, hi.leaving, hi.shows, fun fd => ?_⟩
  · rw [pushed_keeps hs ha]
    exact hi.typed
  · exact (hi.received fd).trans (echoed_grows hs fd)

/-- A statement of a client that sends nothing. -/
theorem inv_client (hi : Inv s) {fd : ℤ} {v : Client Unit} (htyped : v.typed = (s.clients fd).typed)
    (hsending : ∀ w, v.pc = .send w → Holds v.buffer w) (hleaving : v.Leaving) (hshows : v.Shows)
    (hreceived : received v <+: Pipes.cameFrom fd s.server.globals.echoed) :
    Inv { s with clients := Function.update s.clients fd v } := by
  refine ⟨hi.echo, ?_, ?_, ?_, ?_, ?_⟩
  · refine forall_update (P := fun d u =>
      List.Forall₂ Holds (frames (s.server.conns.pushed d)) u.typed) hi.typed ?_
    rw [htyped]
    exact hi.typed fd
  · exact forall_update (P := fun _ u => ∀ w, u.pc = .send w → Holds u.buffer w) hi.sending hsending
  · exact forall_update (P := fun _ u => u.Leaving) hi.leaving hleaving
  · exact forall_update (P := fun _ u => u.Shows) hi.shows hshows
  · exact forall_update (P := fun d u => received u <+: Pipes.cameFrom d s.server.globals.echoed)
      hi.received hreceived

theorem inv_call (hi : Inv s) {fd : ℤ} {c : Call} {v : Client Unit}
    (hv : (s.clients fd).call c = some v) :
    Inv { s with clients := Function.update s.clients fd v } := by
  obtain ⟨htyped, hstream⟩ := call_stream hv
  have hgood : ∀ x ∈ (s.clients fd).hand, ∃ w, Holds x.2 w := fun x hx =>
    hi.holds ((hi.received fd).subset (List.mem_map_of_mem (List.mem_append_right _ hx)))
  refine inv_client hi htyped (call_sending hv (hi.sending fd)) (call_leaving hv (hi.leaving fd))
    (call_shows hv hgood (hi.shows fd)) ?_
  rw [received, hstream]
  exact hi.received fd

/-- What a client has received and what waits for it is what was sent back. -/
theorem received_toClient {fd : ℤ}
    (h : received (s.clients fd) <+: Pipes.cameFrom fd s.server.globals.echoed) :
    received (s.clients fd) ++ s.toClient fd = Pipes.cameFrom fd s.server.globals.echoed := by
  obtain ⟨rest, hrest⟩ := h
  have hlen : (received (s.clients fd)).length =
      ((s.clients fd).got ++ (s.clients fd).hand).length := List.length_map _
  rw [State.toClient, ← hlen, ← hrest, List.drop_left]

theorem inv_receive (hi : Inv s) {fd : ℤ} {f : Buffer bufSize} {r : List (Buffer bufSize)}
    {v : Client Unit} (hfd : s.toClient fd = f :: r)
    (hv : (s.clients fd).receive .tcp ((), f) = some v) :
    Inv { s with clients := Function.update s.clients fd v } := by
  obtain ⟨htyped, hhand, hgot, hhand', hpc, hbuffer, hshows⟩ := receive_some hv
  refine inv_client hi htyped ?_ ?_ (hshows (hi.shows fd)) ?_
  · rw [hpc, hbuffer]
    exact hi.sending fd
  · rw [Client.Leaving, hpc, hbuffer, htyped]
    exact hi.leaving fd
  · rw [← received_toClient (hi.received fd), hfd, received, received, hgot, hhand', hhand,
      List.append_nil, List.map_append]
    exact ⟨r, List.append_assoc _ _ _⟩

/-- A client's frame goes into its connection. -/
theorem inv_send (hi : Inv s) {fd : ℤ} {v : Client Unit} {f : TextFrame}
    (hf : f.toBuffer = (s.clients fd).buffer) (hv : (s.clients fd).send = some v) :
    Inv {
      server := { s.server with conns := s.server.conns.push fd f }
      clients := Function.update s.clients fd v } := by
  obtain ⟨w, hpc, rfl⟩ := send_some hv
  have hholds : Holds f.toBuffer w := hf ▸ hi.sending fd w hpc
  refine ⟨echo_push hi.echo fd f, fun d => ?_, ?_, ?_, ?_, ?_⟩
  · dsimp only
    by_cases hd : d = fd
    · subst hd
      rw [Function.update_self, show (s.server.conns.push d f).pushed d =
        s.server.conns.pushed d ++ [f] from Function.update_self _ _ _, frames, List.map_append]
      exact List.rel_append (hi.typed d) (List.Forall₂.cons hholds .nil)
    · rw [Function.update_of_ne hd, show (s.server.conns.push fd f).pushed d =
        s.server.conns.pushed d from Function.update_of_ne hd _ _]
      exact hi.typed d
  · exact forall_update (P := fun _ u => ∀ w, u.pc = .send w → Holds u.buffer w) hi.sending
      fun w hw => absurd hw (by simp)
  · refine forall_update (P := fun _ u => u.Leaving) hi.leaving ⟨fun _ => ⟨w, ?_, hf ▸ hholds⟩, ?_⟩
    · exact List.mem_append_right _ List.mem_cons_self
    · exact fun hleft => absurd hleft (by simp)
  · refine forall_update (P := fun _ u => u.Shows) hi.shows ?_
    have hs := hi.shows fd
    unfold Client.Shows at hs ⊢
    rw [hpc] at hs
    exact hs
  · exact forall_update (P := fun d u => received u <+: Pipes.cameFrom d s.server.globals.echoed)
      hi.received (hi.received fd)

/-- The end of the server's process changes nothing that is sent, waits or is shown. -/
theorem inv_kill (hi : Inv s) : Inv s.kill where
  echo := ⟨⟨hi.echo.inv.fifo, hi.echo.inv.count, hi.echo.inv.handlers⟩, hi.echo.opened_nodup,
    hi.echo.opened_eq, hi.echo.course, hi.echo.unheard⟩
  typed := hi.typed
  sending := hi.sending
  leaving := hi.leaving
  shows := hi.shows
  received := hi.received

theorem inv_step (hi : Inv s) {a : Action} (h : step s a = some t) : Inv t := by
  cases step_move h with
  | server a t ht ha => exact inv_server hi ht ha
  | sigpipe => exact inv_kill hi
  | call fd c v hv => exact inv_call hi hv
  | send fd v f hf hv => exact inv_send hi hf hv
  | receive fd f r v hfd hv => exact inv_receive hi hfd hv

end Step

/-- **The screens of the multithreaded TCP echo**, in every state of every run of any clients. -/
theorem echo_screens (b : ℤ → Buffer bufSize × Buffer bufSize) (as : List Action) :
    (system b).Always Screens as := by
  refine (System.always_of_step (inv_init b) (fun _ _ _ hi h => inv_step hi h) as).imp fun s hi => ?_
  refine ⟨hi.shows, fun fd => ?_⟩
  have hshown : shown (s.clients fd) <+: (received (s.clients fd)).map text := by
    rw [received, List.map_append, List.map_append, List.map_map]
    exact List.prefix_append _ _
  exact (hshown.trans ((hi.received fd).map text)).trans (hi.echoed_texts fd)

/-! ### What there is to pass on -/

/-- The steps for what waits on the connection of a client. -/
def connLoad (s : State) (fd : ℤ) : ℕ :=
  6 * (s.server.conns.waiting fd).length +
    (2 * (s.toClient fd).length + (s.clients fd).hand.length)

/-- A server that runs may end once. -/
def State.alive (s : State) : ℕ := if s.server.globals.exited then 0 else 1

def State.load (s : State) : ℕ :=
  (s.server.handlers.map handlerLoad).sum +
    ((s.server.handlers.map SocketHandler.server).map (connLoad s)).sum

section Load

variable {s : State}

/-- What was sent back on a connection that is not empty was sent by a handler. -/
theorem Inv.mem_servers (hi : Inv s) {fd : ℤ}
    (h : Pipes.cameFrom fd s.server.globals.echoed ≠ []) :
    fd ∈ s.server.handlers.map SocketHandler.server :=
  by_contra fun hno => h (hi.echo.unheard fd hno).1

/-- A handler's statement: the frames it sends are two steps each for the client. -/
theorem load_run (hi : Inv s) {k : ℕ} {u : EchoServer.State}
    (hu : EchoServer.server.step s.server (.run k) = some u) :
    State.load { s with server := u } < s.load := by
  obtain ⟨h, h', g', hk, hst, rfl⟩ := run_some hu
  obtain ⟨fs, hpass, hdown⟩ := statement_passes hst
  set t : State := { s with
    server := { s.server with globals := g', handlers := s.server.handlers.set k h' } } with ht
  have hechoed : ∀ fd, Pipes.cameFrom fd t.server.globals.echoed =
      Pipes.cameFrom fd s.server.globals.echoed ++ Pipes.cameFrom fd (fs.map (Prod.mk h.server)) := by
    intro fd
    rw [← Pipes.cameFrom_append, ← hpass.echoed]
  have hto : ∀ fd, t.toClient fd =
      s.toClient fd ++ Pipes.cameFrom fd (fs.map (Prod.mk h.server)) := by
    intro fd
    refine (List.append_right_inj (received (s.clients fd))).mp ?_
    have hgrow := (hi.received fd).trans (hechoed fd ▸ List.prefix_append _ _)
    rw [← List.append_assoc, received_toClient (hi.received fd), ← hechoed]
    exact received_toClient (s := t) hgrow
  have hself : connLoad t h.server = connLoad s h.server + 2 * fs.length := by
    rw [connLoad, connLoad, hto, Pipes.cameFrom_tagged, List.length_append]
    have hwait : t.server.conns = s.server.conns := rfl
    have hclients : t.clients = s.clients := rfl
    rw [hwait, hclients]
    omega
  have hother : ∀ fd, fd ≠ h.server → connLoad t fd = connLoad s fd := by
    intro fd hfd
    rw [connLoad, connLoad, hto, Pipes.cameFrom_tagged_of_ne (Ne.symm hfd), List.append_nil]
  have hhandlers := sum_map_set (f := handlerLoad) (b := h') hk
  have hconns := sum_map_of_ne hi.echo.servers_nodup
    (List.mem_map_of_mem (List.mem_of_getElem? hk)) hother
  have hservers : t.server.handlers.map SocketHandler.server = _ := map_set_eq hk hpass.server
  have hload : t.load = ((s.server.handlers.set k h').map handlerLoad).sum +
      ((s.server.handlers.map SocketHandler.server).map (connLoad t)).sum := by
    rw [State.load, hservers]
  rw [hload, State.load]
  omega

/-- A waiting frame costs what it costs in the hand of the handler, and the `recv`. -/
theorem load_recv (hi : Inv s) {k : ℕ} {u : EchoServer.State}
    (hu : EchoServer.server.step s.server (.recv k) = some u) :
    State.load { s with server := u } < s.load := by
  cases EchoServer.step_move hu with
  | run a k h h' g' ha => exact absurd ha (by simp)
  | recv k h f conns hk hpc hpull =>
    obtain ⟨-, -, hwait, hother⟩ := Pipes.pull_some hpull
    set h' : SocketHandler := { h with buffer := f.toBuffer, pc := .compare } with hh'
    set t : State := { s with server := { s.server with
      conns := conns
      handlers := s.server.handlers.set k h' } } with ht
    have hself : connLoad s h.server = connLoad t h.server + 6 := by
      have hconns : t.server.conns = conns := rfl
      have hto : t.toClient h.server = s.toClient h.server := rfl
      have hclients : t.clients = s.clients := rfl
      rw [connLoad, connLoad, hwait, List.length_cons, hconns, hto, hclients]
      omega
    have hsame : ∀ fd, fd ≠ h.server → connLoad t fd = connLoad s fd := by
      intro fd hfd
      have hto : t.toClient fd = s.toClient fd := rfl
      rw [connLoad, connLoad, show t.server.conns.waiting fd = _ from hother fd hfd, hto]
    have hhandlers := sum_map_set (f := handlerLoad) (b := h') hk
    have hold : handlerLoad h = 0 := by rw [handlerLoad, hpc]
    have hnew : handlerLoad h' = 5 := rfl
    have hconns := sum_map_of_ne hi.echo.servers_nodup
      (List.mem_map_of_mem (List.mem_of_getElem? hk)) hsame
    have hservers : t.server.handlers.map SocketHandler.server = _ := map_set_eq hk rfl
    have hload : t.load = ((s.server.handlers.set k h').map handlerLoad).sum +
        ((s.server.handlers.map SocketHandler.server).map (connLoad t)).sum := by
      rw [State.load, hservers]
    rw [hload, State.load]
    omega

/-- What one client has to take lowers the load of its connection. -/
theorem load_client (hi : Inv s) {fd : ℤ} {v : Client Unit}
    (hfd : fd ∈ s.server.handlers.map SocketHandler.server)
    (hlt : 2 * (State.toClient { s with clients := Function.update s.clients fd v } fd).length +
      v.hand.length < 2 * (s.toClient fd).length + (s.clients fd).hand.length) :
    State.load { s with clients := Function.update s.clients fd v } < s.load := by
  set t : State := { s with clients := Function.update s.clients fd v } with ht
  have hself : t.clients fd = v := Function.update_self _ _ _
  have hother : ∀ d, d ≠ fd → connLoad t d = connLoad s d := by
    intro d hd
    have hclient : t.clients d = s.clients d := Function.update_of_ne hd _ _
    have hto : t.toClient d = s.toClient d := by
      rw [State.toClient, hclient]
      rfl
    rw [connLoad, connLoad, hto, hclient]
  have hone : connLoad t fd < connLoad s fd := by
    rw [connLoad, connLoad, hself]
    exact Nat.add_lt_add_left hlt _
  have hsum := sum_map_of_ne hi.echo.servers_nodup hfd hother
  rw [State.load, State.load, show t.server = s.server from rfl]
  omega

theorem load_receive (hi : Inv s) {fd : ℤ} {f : Buffer bufSize} {r : List (Buffer bufSize)}
    {v : Client Unit} (hfd : s.toClient fd = f :: r)
    (hv : (s.clients fd).receive .tcp ((), f) = some v) :
    State.load { s with clients := Function.update s.clients fd v } < s.load := by
  obtain ⟨-, hhand, hgot, hhand', -⟩ := receive_some hv
  have hit := inv_receive hi hfd hv
  have hold := received_toClient (hi.received fd)
  have hnew := received_toClient (hit.received fd)
  set t : State := { s with clients := Function.update s.clients fd v } with ht
  have hself : t.clients fd = v := Function.update_self _ _ _
  have hto : t.toClient fd = r := by
    refine (List.append_right_inj (received v)).mp ?_
    rw [hself] at hnew
    rw [hnew, show t.server = s.server from rfl, ← hold, hfd, received, received, hgot, hhand', hhand,
      List.append_nil, List.map_append, List.append_assoc]
    rfl
  refine load_client hi (hi.mem_servers ?_) ?_
  · rw [← hold, hfd]
    exact List.append_ne_nil_of_right_ne_nil _ (List.cons_ne_nil f r)
  · rw [hto, hfd, hhand, hhand']
    simp only [List.length_cons, List.length_nil]
    omega

theorem load_print (hi : Inv s) {fd : ℤ} {v : Client Unit} (hv : (s.clients fd).call .print = some v) :
    State.load { s with clients := Function.update s.clients fd v } < s.load := by
  obtain ⟨hhand, hhand', -⟩ := print_some hv
  have hto : State.toClient { s with clients := Function.update s.clients fd v } fd =
      s.toClient fd := by
    rw [State.toClient, State.toClient]
    dsimp only
    rw [Function.update_self, (call_stream hv).2]
  refine load_client hi (hi.mem_servers fun hnil => hhand ?_) ?_
  · have hpre := hi.received fd
    rw [hnil, List.prefix_nil, received, List.map_eq_nil_iff, List.append_eq_nil_iff] at hpre
    exact hpre.2
  · rw [hto, hhand', List.length_nil]
    have hpos := List.length_pos_of_ne_nil hhand
    omega

end Load

/-- A step of the server is one of a server that runs. -/
theorem alive_le {s : State} {a : EchoServer.Action} {u : EchoServer.State}
    (hu : EchoServer.server.step s.server a = some u) :
    State.alive { s with server := u } ≤ s.alive := by
  have hbefore : s.alive = 1 := if_neg (by simp [EchoServer.not_exited hu])
  rw [hbefore, State.alive]
  split_ifs
  · exact Nat.zero_le 1
  · exact le_rfl

theorem variant (b : ℤ → Buffer bufSize × Buffer bufSize) :
    (system b).Variant Delivers Inv fun s => s.load + s.alive where
  keeps _ _ _ hi _ h := inv_step hi h
  down s a t hi ha h := by
    cases step_move h with
    | server a u hu _ =>
      have halive := alive_le hu
      cases a with
      | run k => exact Nat.add_lt_add_of_lt_of_le (load_run hi hu) halive
      | recv k => exact Nat.add_lt_add_of_lt_of_le (load_recv hi hu) halive
      | _ => exact absurd ha (by simp [Delivers])
    | sigpipe k h hrun =>
      have hload : s.kill.load = s.load := rfl
      have hbefore : s.alive = 1 := if_neg (by simp [hrun])
      have hafter : s.kill.alive = 0 := rfl
      omega
    | call fd c v hv =>
      cases c with
      | print => exact Nat.add_lt_add_right (load_print hi hv) s.alive
      | _ => exact absurd ha (by simp [Delivers])
    | send => exact absurd ha (by simp [Delivers])
    | receive fd f r v hfd hv => exact Nat.add_lt_add_right (load_receive hi hfd hv) s.alive

/-! ### At rest -/

section Rest

variable {b : ℤ → Buffer bufSize × Buffer bufSize} {s : State}

/-- A handler's statement that is not enabled. -/
theorem statement_none {g : Globals} {h : SocketHandler} (hnone : EchoServer.statement g h = none) :
    h.pc = .recv ∨ h.pc.quitting = true := by
  unfold EchoServer.statement at hnone
  split at hnone
  case h_1 hpc => exact Or.inl hpc
  case h_7 => split_ifs at hnone
  case h_9 hpc => exact Or.inr (by rw [hpc]; rfl)
  case h_11 hpc => exact Or.inr (by rw [hpc]; rfl)
  all_goals exact absurd hnone (by simp)

/-- A client that stays has shown all that was sent back to it. -/
theorem quiet_client (hi : Inv s) (hq : (system b).Quiet Delivers s) {fd : ℤ}
    (hpc : (s.clients fd).pc ≠ .left) :
    (s.clients fd).got.map Prod.snd = Pipes.cameFrom fd s.server.globals.echoed := by
  have hrpc : (s.clients fd).rpc = .recv :=
    print_none (Option.map_eq_none_iff.mp (hq (.call fd .print) trivial)) hpc
  have hall := received_toClient (hi.received fd)
  have hto : s.toClient fd = [] := by
    cases hto : s.toClient fd with
    | nil => rfl
    | cons f r =>
      have hnone : step s (.receive fd) = none := hq (.receive fd) trivial
      simp only [step, hto, Option.map_eq_none_iff] at hnone
      exact absurd hnone (receive_none hrpc hpc _)
  rw [hto, List.append_nil, received, Client.hand, hrpc, List.append_nil] at hall
  exact hall

/-- A handler that has received no `quit` has sent back all that its client has sent. -/
theorem quiet_handler (hi : Inv s) (hrun : s.server.globals.exited = false)
    (hq : (system b).Quiet Delivers s) {k : ℕ} {h : SocketHandler}
    (hk : s.server.handlers[k]? = some h) (hno : h.pc.quitting = false) :
    Pipes.cameFrom h.server s.server.globals.echoed =
      nonQuit (frames (s.server.conns.pushed h.server)) := by
  have hpc : h.pc = .recv := by
    have hnone := Option.map_eq_none_iff.mp (hq (.server (.run k)) trivial)
    change EchoServer.step s.server (.run k) = none at hnone
    unfold EchoServer.step at hnone
    rw [if_neg (by simp [hrun])] at hnone
    simp only [hk, Option.bind_some, Option.map_eq_none_iff] at hnone
    exact (statement_none hnone).resolve_right (by simp [hno])
  have hwait : s.server.conns.waiting h.server = [] := by
    have hnone := Option.map_eq_none_iff.mp (hq (.server (.recv k)) trivial)
    change EchoServer.step s.server (.recv k) = none at hnone
    unfold EchoServer.step at hnone
    rw [if_neg (by simp [hrun])] at hnone
    simp only [hk, Option.bind_some, hpc, if_true, Option.map_eq_none_iff] at hnone
    cases hw : s.server.conns.waiting h.server with
    | nil => rfl
    | cons f r => exact absurd hnone (by simp [Pipes.pull, hw])
  have hcourse := hi.echo.course k h hk
  rw [course, hwait, inHand, hpc, List.append_nil] at hcourse
  exact (List.append_nil _).symm.trans hcourse

end Rest

/-! ### The server runs on -/

section Staying

variable {s t : State}

/-- A handler whose client has not typed `quit` has received none. -/
theorem Inv.not_quitting (hi : Inv s) {h : SocketHandler} (hh : h ∈ s.server.handlers)
    (hstay : ∀ w ∈ (s.clients h.server).typed, w.text ≠ ascii "quit") : h.pc.quitting = false := by
  by_contra hquit
  -- a handler is behind its comparison only for a `quit` of its client
  obtain ⟨f, hf, htext⟩ := (hi.echo.inv.handlers h hh).quit (by simpa using hquit)
  obtain ⟨w, hw, hholds⟩ := exists_word (hi.typed h.server) (List.mem_map_of_mem hf)
  exact hstay w hw (hholds.text.symm.trans htext)

theorem Inv.not_left (hi : Inv s) {fd : ℤ}
    (hstay : ∀ w ∈ (s.clients fd).typed, w.text ≠ ascii "quit") : (s.clients fd).pc ≠ .left := by
  intro hleft
  obtain ⟨w, hw, hquit⟩ := (hi.leaving fd).2 hleft
  exact hstay w hw hquit

end Staying

theorem said_eq_self {ws : List Word} (h : ∀ w ∈ ws, w.text ≠ ascii "quit") : said ws = ws :=
  List.filter_eq_self.mpr fun w hw => decide_eq_true (h w hw)

theorem Inv.heard {b : ℤ → Buffer bufSize × Buffer bufSize} {s : State} (hi : Inv s)
    (hrun : s.server.globals.exited = false) (hq : (system b).Quiet Delivers s) {h : SocketHandler}
    (hh : h ∈ s.server.handlers) (hstay : ∀ w ∈ (s.clients h.server).typed, w.text ≠ ascii "quit") :
    shown (s.clients h.server) = (s.clients h.server).typed.map Word.text := by
  obtain ⟨k, hk⟩ := List.mem_iff_getElem?.mp hh
  have hpc := hi.not_left hstay
  have hno := hi.not_quitting hh hstay
  calc shown (s.clients h.server)
      = ((s.clients h.server).got.map Prod.snd).map text := by rw [List.map_map]; rfl
    _ = (nonQuit (frames (s.server.conns.pushed h.server))).map text := by
        rw [quiet_client hi hq hpc, quiet_handler hi hrun hq hk hno]
    _ = (said (s.clients h.server).typed).map Word.text := said_texts (hi.typed h.server)
    _ = (s.clients h.server).typed.map Word.text := by rw [said_eq_self hstay]

end Fssn.Tcp.EchoScreens
