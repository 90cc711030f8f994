import Fssn.Lib.Variant
import Fssn.Tcp.Chat

/-!
# Fssn.Tcp.ChatDelivery — what is typed in the TCP chat is shown

The steps of the chat that pass on what was typed (`Delivers`): the statements of the handlers, their
`recv`s, and those of the clients' `ReceiveHandler`s.  In any order they come to rest, as there is so
much to pass on and no more (`State.load`).  `chat_delivers`: at rest, while the server runs, a client
has shown every word that another one has typed since the client was entered into `group_queue`, in
order and once.  A send to a client that has quit may end the server (`sigpipe`); as long as none has,
the server runs on.

A client that has sent `quit` sends nothing behind it (`Quits`), so a handler that has left its loop
has left nothing on its connection.
-/

namespace Fssn.Tcp.Chat

open Fssn.Lib ChatClient
open ChatServer (SocketHandler sendsBy sendsTo)
open EchoSession (Word)

/-- The steps that pass on what was typed. -/
def Delivers : Action → Prop
  | .server (.run _) => True
  | .recv _ => True
  | .sigpipe _ => True
  | .call _ .print => True
  | .receive _ => True
  | _ => False

/-- No client that has a handler has left. -/
def Staying (s : State) : Prop :=
  ∀ fd ∈ s.server.handlers.map SocketHandler.server, (s.clients fd).pc ≠ .left

/-- From `s` on, whatever else happens and in whatever order. -/
structure Delivery (b : ℤ → Buffer bufSize × Buffer bufSize) (s : State) : Prop where
  /-- At rest, a client in `group_queue` has shown what was on its way to it and what was typed since. -/
  heard : ∀ mid t, (system b).exec s mid = some t → t.server.exited = false →
    (system b).Quiet Delivers t → ∀ (k i : ℕ) fd h, s.server.handlers[k]? = some h →
      s.server.globals.group_queue[i]? = some fd → (t.clients fd).pc ≠ .left →
        ∃ ws, (t.clients h.server).typed = (s.clients h.server).typed ++ ws ∧
          (Pipes.cameFrom k (t.clients fd).got).map text =
            (s.course k i fd h).map text ++ (said ws).map Word.text
  /-- There is a rest, and every way to it is bounded. -/
  rests : ∃ n, ∀ as t, (∀ a ∈ as, Delivers a) → (system b).exec s as = some t → as.length ≤ n ∧
    ∃ bs u, (∀ a ∈ bs, Delivers a) ∧ (system b).exec t bs = some u ∧ (system b).Quiet Delivers u
  /-- While no client that has a handler has left, nothing that is passed on ends the server. -/
  runs : Staying s → ∀ as t, (∀ a ∈ as, Delivers a) → (system b).exec s as = some t →
    t.server.exited = s.server.exited

/-! ### Behind a `quit` -/

/-- The client has sent `quit`. -/
def Quitting (v : Client ℕ) : Prop :=
  v.pc = .left ∨ v.pc = .test ∧ isQuit v.buffer.bytes = true

/-- The handler has received `quit`. -/
def Closing (h : SocketHandler) : Prop :=
  h.pc = .finished ∨ h.pc = .compare ∧ isQuit h.buffer.bytes = true

structure Quits (s : State) : Prop where
  last : ∀ fd, ∀ f ∈ (s.conns.pushed fd).dropLast, isQuit f.bytes = false
  quitting : ∀ fd, (∃ f ∈ s.conns.pushed fd, isQuit f.bytes = true) → Quitting (s.clients fd)
  closing : ∀ (k : ℕ) h, s.server.handlers[k]? = some h → Closing h →
    s.conns.waiting h.server = [] ∧ ∃ f ∈ s.conns.pushed h.server, isQuit f.bytes = true

theorem Quitting.call {v v' : Client ℕ} {c : Call} (h : Quitting v) (hc : v.call c = some v') :
    Quitting v' := by
  unfold Client.call at hc
  split at hc
  · rename_i hpc
    rcases h with h | ⟨h, -⟩ <;> exact absurd (hpc.symm.trans h) (by simp)
  · rename_i hpc
    rcases h with h | ⟨h, -⟩ <;> exact absurd (hpc.symm.trans h) (by simp)
  · rename_i hpc
    rcases h with h | ⟨-, hq⟩
    · exact absurd (hpc.symm.trans h) (by simp)
    · rw [if_pos hq] at hc
      exact Option.some.inj hc ▸ Or.inl rfl
  · exact absurd hc (by simp)
  · exact Option.some.inj hc ▸ h
  · exact absurd hc (by simp)

section Server

variable {s t : ChatServer.State} {a : ChatServer.Action} {k : ℕ} {h : SocketHandler}

/-- A step that receives nothing: a handler that closes has closed before. -/
theorem closing_step (hi : ChatServer.Inv s) (hs : ChatServer.server.step s a = some t)
    (ha : ∀ k r, a ≠ .recv k r) (hk : t.handlers[k]? = some h) (hc : Closing h) :
    ∃ g, s.handlers[k]? = some g ∧ g.server = h.server ∧ Closing g := by
  have hold : s.handlers[k]? = some h → ∃ g, s.handlers[k]? = some g ∧ g.server = h.server ∧
      Closing g := fun hk => ⟨h, hk, rfl, hc⟩
  cases ChatServer.step_move hs with
  | accept => exact hold hk
  | acceptFailed => exact hold hk
  | count => exact hold hk
  | console => exact hold hk
  | create csock buffer hmain =>
    dsimp only at hk
    by_cases hlt : k < s.handlers.length
    · rw [List.getElem?_append_left hlt] at hk
      exact hold hk
    · rw [List.getElem?_append_right (by omega), List.getElem?_singleton] at hk
      split_ifs at hk with hz
      rw [← Option.some.inj hk] at hc
      exact absurd hc (by simp [Closing, SocketHandler.create])
  | recv j r => exact absurd rfl (ha j r)
  | run j g g' G hj he =>
    dsimp only at hk
    by_cases hkj : k = j
    · subst hkj
      rw [getElem?_set_of_some hj] at hk
      obtain rfl := Option.some.inj hk
      have hok := hi.handlers g (List.mem_of_getElem? hj)
      cases he with
      | quit hpc hq => exact ⟨g, hj, rfl, Or.inr ⟨hpc, hq⟩⟩
      | sent i last hpc =>
        have hexit : g.isExit = false := by
          rw [hok.exit, hpc]
          rfl
        exact absurd hc (by simp [Closing, hexit])
      | erase hpc => exact absurd hpc hok.no_erase
      | push => exact absurd hc (by simp [Closing])
      | print => exact absurd hc (by simp [Closing])
      | bound => exact absurd hc (by simp [Closing])
      | send => exact absurd hc (by simp [Closing])
    · rw [getElem?_set_of_ne hkj] at hk
      exact hold hk

end Server

section Step

variable {s : State}

theorem quits_recv (hi : Inv s) (hq : Quits s) {k : ℕ} {g : SocketHandler} {f : Buffer bufSize}
    {conns : Pipes ℤ (Buffer bufSize)} {t : ChatServer.State} (hg : s.server.handlers[k]? = some g)
    (hpull : s.conns.pull g.server = some (f, conns))
    (hs : ChatServer.server.step s.server (.recv k (.data f.bytes)) = some t) :
    Quits { s with server := t, conns := conns } := by
  obtain ⟨hpushed, -, hself, -⟩ := Pipes.pull_some hpull
  obtain ⟨-, rfl⟩ := recv_step hg hs
  refine ⟨hpushed ▸ hq.last, hpushed ▸ hq.quitting, fun j h hj hc => ?_⟩
  dsimp only at hj ⊢
  by_cases hjk : j = k
  · subst hjk
    rw [getElem?_set_of_some hg] at hj
    obtain rfl := Option.some.inj hj
    have hquit : isQuit f.bytes = true := by simpa [Closing] using hc
    have hsent : s.conns.pushed g.server =
        Pipes.cameFrom g.server s.conns.pulled ++ f :: conns.waiting g.server := by
      rw [← hself, hi.fifo]
    refine ⟨?_, f, ?_, hquit⟩
    · -- behind the `quit` there is nothing
      by_contra hne
      refine absurd (hq.last g.server f ?_) (by simp [hquit])
      rw [hsent, List.dropLast_append_of_ne_nil (by simp), List.dropLast_cons_of_ne_nil hne]
      exact List.mem_append_right _ List.mem_cons_self
    · rw [hpushed, hsent]
      exact List.mem_append_right _ List.mem_cons_self
  · rw [getElem?_set_of_ne hjk] at hj
    rw [waiting_other hi.server hg hpull hj hjk, hpushed]
    exact hq.closing j h hj hc

theorem quits_send (hq : Quits s) {fd : ℤ} {v : Client ℕ} (hv : (s.clients fd).send = some v) :
    Quits { s with
      clients := Function.update s.clients fd v
      conns := s.conns.push fd (s.clients fd).buffer } := by
  obtain ⟨w, hpc, rfl⟩ := send_some hv
  have hnone : ¬ Quitting (s.clients fd) := by simp [Quitting, hpc]
  have hold : ∀ f ∈ s.conns.pushed fd, isQuit f.bytes = false := fun f hf =>
    Bool.eq_false_iff.mpr fun h => hnone (hq.quitting fd ⟨f, hf, h⟩)
  refine ⟨fun d f hf => ?_, fun d hf => ?_, fun k h hk hc => ?_⟩
  · by_cases hd : d = fd
    · subst hd
      rw [show Pipes.pushed _ d = s.conns.pushed d ++ [(s.clients d).buffer] from
        Function.update_self _ _ _, List.dropLast_concat] at hf
      exact hold f hf
    · rw [show Pipes.pushed _ d = s.conns.pushed d from Function.update_of_ne hd _ _] at hf
      exact hq.last d f hf
  · by_cases hd : d = fd
    · subst hd
      rw [show State.clients _ d = _ from Function.update_self _ _ _]
      obtain ⟨f, hf, hquit⟩ := hf
      rw [show Pipes.pushed _ d = s.conns.pushed d ++ [(s.clients d).buffer] from
        Function.update_self _ _ _] at hf
      rcases List.mem_append.mp hf with hf | hf
      · exact absurd (hold f hf) (by simp [hquit])
      · exact Or.inr ⟨rfl, List.mem_singleton.mp hf ▸ hquit⟩
    · rw [show State.clients _ d = s.clients d from Function.update_of_ne hd _ _]
      rw [show Pipes.pushed _ d = s.conns.pushed d from Function.update_of_ne hd _ _] at hf
      exact hq.quitting d hf
  · have hne : h.server ≠ fd := by
      rintro rfl
      exact hnone (hq.quitting _ (hq.closing k h hk hc).2)
    rw [show Pipes.waiting _ h.server = s.conns.waiting h.server from Function.update_of_ne hne _ _,
      show Pipes.pushed _ h.server = s.conns.pushed h.server from Function.update_of_ne hne _ _]
    exact hq.closing k h hk hc

theorem quits_client (hq : Quits s) {fd : ℤ} {v : Client ℕ} (queue : List (ℕ × Buffer bufSize))
    (hv : Quitting (s.clients fd) → Quitting v) :
    Quits { s with
      clients := Function.update s.clients fd v
      toClient := Function.update s.toClient fd queue } := by
  refine ⟨hq.last, fun d hf => ?_, hq.closing⟩
  by_cases hd : d = fd
  · subst hd
    rw [show State.clients _ d = v from Function.update_self _ _ _]
    exact hv (hq.quitting d hf)
  · rw [show State.clients _ d = s.clients d from Function.update_of_ne hd _ _]
    exact hq.quitting d hf

theorem quits_step (hi : Inv s) (hq : Quits s) {a : Action} {t : State} (h : step s a = some t) :
    Quits t := by
  cases step_move h with
  | server a t hne ht =>
    refine ⟨hq.last, hq.quitting, fun k h hk hc => ?_⟩
    obtain ⟨g, hg, hserver, hc⟩ := closing_step hi.server ht hne hk hc
    rw [← hserver]
    exact hq.closing k g hg hc
  | recv k g f conns t hg hpull ht => exact quits_recv hi hq hg hpull ht
  | sigpipe => exact ⟨hq.last, hq.quitting, hq.closing⟩
  | call fd c v hv =>
    have := quits_client hq (s.toClient fd) fun hquit => hquit.call hv
    rwa [Function.update_eq_self] at this
  | send fd v hv => exact quits_send hq hv
  | receive fd x r v hfd hv =>
    obtain ⟨-, -, -, -, hpc, hbuffer, -⟩ := receive_some hv
    refine quits_client hq _ fun hquit => ?_
    rw [Quitting, hpc, hbuffer]
    exact hquit

end Step

/-- What holds in every reachable state. -/
structure Steady (s : State) : Prop where
  inv : Inv s
  bound : ChatServer.BoundOk s.server
  quits : Quits s

theorem boundOk_step {s t : State} (hi : Inv s) (hb : ChatServer.BoundOk s.server) {a : Action}
    (h : step s a = some t) : ChatServer.BoundOk t.server := by
  cases step_move h with
  | server a t _ ht => exact ChatServer.boundOk_step hi.server hb ht
  | recv k g f conns t _ _ ht => exact ChatServer.boundOk_step hi.server hb ht
  | _ => exact hb

theorem Steady.step {s t : State} (hs : Steady s) {a : Action} (h : step s a = some t) : Steady t :=
  ⟨inv_step hs.inv h, boundOk_step hs.inv hs.bound h, quits_step hs.inv hs.quits h⟩

/-! ### What there is to pass on -/

/-- The steps that a handler has to take, and the clients because of it, for the frame in its hand
when there are `n` handlers. -/
def handlerLoad (n : ℕ) (h : SocketHandler) : ℕ :=
  match h.pc with
  | .pushBack => 1
  | .compare => 3 * n + 3
  | .bound => 3 * n + 2
  | .sending i last => 3 * (last - i) + 1
  | _ => 0

/-- The steps for what waits on the connections of a client. -/
def clientLoad (s : State) (fd : ℤ) : ℕ :=
  (3 * s.server.handlers.length + 4) * (s.conns.waiting fd).length +
    (2 * (s.toClient fd).length + (s.clients fd).hand.length)

def State.load (s : State) : ℕ :=
  (s.server.handlers.map (handlerLoad s.server.handlers.length)).sum +
    ((s.server.handlers.map SocketHandler.server).map (clientLoad s)).sum

/-- A server that runs may end once. -/
def State.alive (s : State) : ℕ := if s.server.exited then 0 else 1

section Server

variable {s t : ChatServer.State} {a : ChatServer.Action} {k : ℕ} {h : SocketHandler}

/-- Statements and receives of handlers start no others. -/
theorem servers_step (hi : ChatServer.Inv s) (hs : ChatServer.server.step s a = some t)
    (ha : (∃ k, a = .run k) ∨ ∃ k r, a = .recv k r) :
    t.handlers.map SocketHandler.server = s.handlers.map SocketHandler.server := by
  have hit := ChatServer.inv_step hi hs
  have hsame : t.opened = s.opened ∧ t.main = s.main := by
    rcases ha with ⟨k, rfl⟩ | ⟨k, r, rfl⟩
    · cases ChatServer.step_move hs with
      | run => exact ⟨rfl, rfl⟩
    · cases ChatServer.step_move hs with
      | recv => exact ⟨rfl, rfl⟩
  have hopened := hit.opened_eq
  rw [hsame.1, hsame.2, hi.opened_eq] at hopened
  exact (List.append_cancel_right hopened).symm

theorem queue_length_le (hi : ChatServer.Inv s) :
    s.globals.group_queue.length ≤ s.handlers.length := by
  rw [hi.queue.length_eq, ChatServer.pushedServers, List.length_map]
  exact List.length_filter_le _ _

theorem mem_servers (hi : ChatServer.Inv s) {fd : ℤ} (hfd : fd ∈ s.globals.group_queue) :
    fd ∈ s.handlers.map SocketHandler.server := by
  obtain ⟨h, hh, rfl, -⟩ := (hi.mem_queue fd).mp hfd
  exact List.mem_map_of_mem hh

theorem sends_of_pc (hk : s.handlers[k]? = some h) (hpc : ∀ i last, h.pc ≠ .sending i last) :
    sends s (.run k) = [] := by
  have hnone : sendsBy k s (.run k) = [] := by simp only [sendsBy, hk, if_true]
  rw [sends, hnone]
  rfl

/-- A statement of a handler: it is a send, which costs three, or it brings the handler on. -/
theorem run_load (hi : ChatServer.Inv s) (hs : ChatServer.server.step s (.run k) = some t) (n : ℕ)
    (hn : s.globals.group_queue.length ≤ n) :
    (sends s (.run k) = [] ∧
      (t.handlers.map (handlerLoad n)).sum < (s.handlers.map (handlerLoad n)).sum) ∨
    ∃ fd f, fd ∈ s.globals.group_queue ∧ sends s (.run k) = [(fd, k, f)] ∧
      (t.handlers.map (handlerLoad n)).sum + 3 = (s.handlers.map (handlerLoad n)).sum := by
  cases ChatServer.step_move hs with
  | run _ h h' g' hk he =>
    have hsum := sum_map_set (f := handlerLoad n) (b := h') hk
    have hlocal : (∀ i last, h.pc ≠ .sending i last) → handlerLoad n h' < handlerLoad n h →
        sends s (.run k) = [] ∧
          ((s.handlers.set k h').map (handlerLoad n)).sum < (s.handlers.map (handlerLoad n)).sum :=
      fun hpc hlt => ⟨sends_of_pc hk hpc, by omega⟩
    cases he with
    | push hpc => exact Or.inl (hlocal (by simp [hpc]) (by simp [handlerLoad, hpc]))
    | quit hpc hq => exact Or.inl (hlocal (by simp [hpc]) (by simp [handlerLoad, hpc]))
    | print hpc hq => exact Or.inl (hlocal (by simp [hpc]) (by simp [handlerLoad, hpc]))
    | bound hpc =>
      refine Or.inl (hlocal (by simp [hpc]) ?_)
      simp only [handlerLoad, hpc]
      omega
    | send i last fd hpc hlt hfd =>
      refine Or.inr ⟨fd, h.buffer, List.mem_of_getElem? hfd, ?_, ?_⟩
      · simp only [sends, sendsBy, hk, hpc, if_true, if_pos hlt, hfd]
        rfl
      · have hold : handlerLoad n h = 3 * (last - i) + 1 := by simp only [handlerLoad, hpc]
        have hnew : handlerLoad n { h with
            targets := h.targets ++ [fd], pc := .sending (i + 1) last } = 3 * (last - (i + 1)) + 1 := rfl
        dsimp only
        omega
    | sent i last hpc hge =>
      have hexit : h.isExit = false := by
        rw [(hi.handlers h (List.mem_of_getElem? hk)).exit, hpc]
        rfl
      refine Or.inl ⟨?_, ?_⟩
      · simp only [sends, sendsBy, hk, hpc, if_true, if_neg hge]
        rfl
      · have hold : handlerLoad n h = 3 * (last - i) + 1 := by simp only [handlerLoad, hpc]
        have hnew : handlerLoad n { h with pc := if h.isExit then .eraseBound else .recv } = 0 := by
          simp [handlerLoad, hexit]
        dsimp only
        omega
    | erase hpc => exact absurd hpc (hi.handlers h (List.mem_of_getElem? hk)).no_erase

end Server

section Load

variable {s t : State}

theorem clientLoad_of_eq {fd : ℤ} (hlen : t.server.handlers.length = s.server.handlers.length)
    (hwait : t.conns.waiting fd = s.conns.waiting fd) (hto : t.toClient fd = s.toClient fd)
    (hhand : (t.clients fd).hand = (s.clients fd).hand) : clientLoad t fd = clientLoad s fd := by
  rw [clientLoad, clientLoad, hlen, hwait, hto, hhand]

/-- What one client has to take lowers the load of its connections. -/
theorem load_client (hi : Inv s) {fd : ℤ} (hfd : fd ∈ s.server.handlers.map SocketHandler.server)
    (hserver : t.server = s.server) (hother : ∀ d, d ≠ fd → clientLoad t d = clientLoad s d)
    (hlt : clientLoad t fd < clientLoad s fd) : t.load < s.load := by
  have hsum := sum_map_of_ne hi.server.servers_nodup hfd hother
  rw [State.load, State.load, hserver]
  omega

theorem load_run (hi : Inv s) {k : ℕ} {u : ChatServer.State}
    (hu : ChatServer.server.step s.server (.run k) = some u) :
    (s.serve (.run k) u).load < s.load := by
  have hservers := servers_step hi.server hu (Or.inl ⟨k, rfl⟩)
  have hlen : u.handlers.length = s.server.handlers.length := by
    have := congrArg List.length hservers
    rwa [List.length_map, List.length_map] at this
  have hload : (s.serve (.run k) u).load = (u.handlers.map (handlerLoad s.server.handlers.length)).sum +
      ((s.server.handlers.map SocketHandler.server).map (clientLoad (s.serve (.run k) u))).sum := by
    rw [State.load, ← hlen, ← hservers]
    rfl
  rw [hload, State.load]
  rcases run_load hi.server hu _ (queue_length_le hi.server) with ⟨hnone, hlt⟩ | ⟨fd, f, hfd, hone, heq⟩
  · have hsame : clientLoad (s.serve (.run k) u) = clientLoad s := by
      funext fd
      refine clientLoad_of_eq hlen rfl ?_ rfl
      rw [State.serve, hnone]
      exact List.append_nil _
    rw [hsame]
    omega
  · have hto : ∀ d, (s.serve (.run k) u).toClient d = s.toClient d ++ Pipes.cameFrom d [(fd, k, f)] := by
      intro d
      rw [← hone]
      rfl
    have hother : ∀ d, d ≠ fd → clientLoad (s.serve (.run k) u) d = clientLoad s d := fun d hd =>
      clientLoad_of_eq hlen rfl
        (by rw [hto, Pipes.cameFrom_of_ne (Ne.symm hd), List.append_nil]) rfl
    have hsum := sum_map_of_ne hi.server.servers_nodup (mem_servers hi.server hfd) hother
    have hself : clientLoad (s.serve (.run k) u) fd = clientLoad s fd + 2 := by
      have hclients : (s.serve (.run k) u).clients = s.clients := rfl
      have hconns : (s.serve (.run k) u).conns = s.conns := rfl
      have hlen' : (s.serve (.run k) u).server.handlers.length = s.server.handlers.length := hlen
      rw [clientLoad, clientLoad, hto, Pipes.cameFrom_self, List.length_append, hclients, hconns,
        hlen', List.length_singleton]
      omega
    omega

theorem load_recv (hi : Inv s) {k : ℕ} {g : SocketHandler} {f : Buffer bufSize}
    {conns : Pipes ℤ (Buffer bufSize)} {u : ChatServer.State} (hg : s.server.handlers[k]? = some g)
    (hpull : s.conns.pull g.server = some (f, conns))
    (hu : ChatServer.server.step s.server (.recv k (.data f.bytes)) = some u) :
    State.load { s with server := u, conns := conns } < s.load := by
  obtain ⟨-, -, hself, hother⟩ := Pipes.pull_some hpull
  obtain ⟨hpc, rfl⟩ := recv_step hg hu
  set n := s.server.handlers.length with hn
  set g' : SocketHandler := { g with buffer := f, pc := .compare } with hg'
  set t : State := { s with
    server := { s.server with handlers := s.server.handlers.set k g' }, conns := conns } with ht
  have hlen : t.server.handlers.length = n := List.length_set
  have hload : t.load = ((s.server.handlers.set k g').map (handlerLoad n)).sum +
      ((s.server.handlers.map SocketHandler.server).map (clientLoad t)).sum := by
    rw [State.load, hlen, show t.server.handlers.map SocketHandler.server = _ from map_set_eq hg rfl]
  have hhandlers := sum_map_set (f := handlerLoad n) (b := g') hg
  have hold : handlerLoad n g = 0 := by rw [handlerLoad, hpc]
  have hnew : handlerLoad n g' = 3 * n + 3 := rfl
  have hclients := sum_map_of_ne (f := clientLoad s) (g := clientLoad t) hi.server.servers_nodup
    (List.mem_map_of_mem (List.mem_of_getElem? hg)) fun d hd =>
      clientLoad_of_eq hlen (hother d hd) rfl rfl
  -- a waiting frame costs what it costs in the hand of the handler, and the `recv`
  have hone : clientLoad s g.server = clientLoad t g.server + (3 * n + 4) := by
    have hconns : t.conns = conns := rfl
    have hto : t.toClient = s.toClient := rfl
    have hshown : t.clients = s.clients := rfl
    rw [clientLoad, clientLoad, hlen, hself, List.length_cons, Nat.mul_succ, hconns, hto, hshown, ← hn]
    omega
  rw [hload, State.load, ← hn]
  omega

/-- What is on its way to a client is on its way to a handler's one. -/
theorem mem_servers_of_stream (hi : Inv s) {fd : ℤ} (h : s.stream fd ≠ []) :
    fd ∈ s.server.handlers.map SocketHandler.server :=
  mem_servers hi.server (by_contra fun hno => h (hi.unheard fd hno))

theorem load_print (hi : Inv s) {fd : ℤ} {v : Client ℕ} (hv : (s.clients fd).call .print = some v) :
    State.load { s with clients := Function.update s.clients fd v } < s.load := by
  obtain ⟨hhand, hhand', -⟩ := print_some hv
  set t : State := { s with clients := Function.update s.clients fd v } with ht
  have hself : t.clients fd = v := Function.update_self _ _ _
  have hlt : clientLoad t fd < clientLoad s fd := by
    have hpos := List.length_pos_of_ne_nil hhand
    rw [clientLoad, clientLoad, hself, hhand', List.length_nil]
    exact Nat.add_lt_add_left (Nat.add_lt_add_left hpos _) _
  have hfd : fd ∈ s.server.handlers.map SocketHandler.server := by
    refine mem_servers_of_stream hi fun hnil => hhand ?_
    exact (List.append_eq_nil_iff.mp (List.append_eq_nil_iff.mp hnil).1).2
  exact load_client hi hfd rfl (fun d hd => clientLoad_of_eq rfl rfl rfl
    (by rw [show t.clients d = s.clients d from Function.update_of_ne hd _ _])) hlt

theorem load_receive (hi : Inv s) {fd : ℤ} {x : ℕ × Buffer bufSize} {r : List (ℕ × Buffer bufSize)}
    {v : Client ℕ} (hfd : s.toClient fd = x :: r) (hv : (s.clients fd).receive .tcp x = some v) :
    State.load { s with
      clients := Function.update s.clients fd v
      toClient := Function.update s.toClient fd r } < s.load := by
  obtain ⟨-, hhand, -, hhand', -⟩ := receive_some hv
  set t : State := { s with
    clients := Function.update s.clients fd v
    toClient := Function.update s.toClient fd r } with ht
  have hself : t.clients fd = v := Function.update_self _ _ _
  have hto : t.toClient fd = r := Function.update_self _ _ _
  have hlt : clientLoad t fd < clientLoad s fd := by
    rw [clientLoad, clientLoad, hself, hto, hhand, hhand', hfd]
    simp only [List.length_cons, List.length_nil]
    refine Nat.add_lt_add_left ?_ _
    omega
  have hmem : fd ∈ s.server.handlers.map SocketHandler.server := by
    refine mem_servers_of_stream hi fun hnil => ?_
    exact absurd (List.append_eq_nil_iff.mp hnil).2 (by simp [hfd])
  exact load_client hi hmem rfl (fun d hd => clientLoad_of_eq rfl rfl (Function.update_of_ne hd _ _)
    (by rw [show t.clients d = s.clients d from Function.update_of_ne hd _ _])) hlt

end Load

theorem exited_step {s t : ChatServer.State} {a : ChatServer.Action}
    (hs : ChatServer.server.step s a = some t) (ha : (∃ k, a = .run k) ∨ ∃ k r, a = .recv k r) :
    t.exited = s.exited := by
  rcases ha with ⟨k, rfl⟩ | ⟨k, r, rfl⟩
  · cases ChatServer.step_move hs with
    | run => rfl
  · cases ChatServer.step_move hs with
    | recv => rfl

theorem alive_eq {s t : State} (h : t.server.exited = s.server.exited) : t.alive = s.alive := by
  rw [State.alive, State.alive, h]

theorem variant (b : ℤ → Buffer bufSize × Buffer bufSize) :
    (system b).Variant Delivers Steady fun s => s.load + s.alive where
  keeps _ _ _ hs _ h := hs.step h
  down s a t hs ha h := by
    cases step_move h with
    | server a u _ hu =>
      cases a with
      | run k =>
        have halive : (s.serve (.run k) u).alive = s.alive :=
          alive_eq (exited_step hu (Or.inl ⟨k, rfl⟩))
        have := load_run hs.inv hu
        omega
      | _ => exact absurd ha (by simp [Delivers])
    | recv k g f conns u hg hpull hu =>
      have halive : State.alive { s with server := u, conns := conns } = s.alive :=
        alive_eq (exited_step hu (Or.inr ⟨k, _, rfl⟩))
      have := load_recv hs.inv hg hpull hu
      omega
    | sigpipe k x hrun =>
      have hload : s.kill.load = s.load := rfl
      have hbefore : s.alive = 1 := if_neg (by simp [hrun])
      have hafter : s.kill.alive = 0 := rfl
      omega
    | call fd c v hv =>
      cases c with
      | print => exact Nat.add_lt_add_right (load_print hs.inv hv) s.alive
      | _ => exact absurd ha (by simp [Delivers])
    | send => exact absurd ha (by simp [Delivers])
    | receive fd x r v hfd hv => exact Nat.add_lt_add_right (load_receive hs.inv hfd hv) s.alive

/-! ### At rest -/

section Rest

variable {b : ℤ → Buffer bufSize × Buffer bufSize} {s : State}

/-- A client that has not left has shown all that was sent to it. -/
theorem quiet_client (hq : (system b).Quiet Delivers s) {fd : ℤ} (hpc : (s.clients fd).pc ≠ .left) :
    (s.clients fd).hand = [] ∧ s.toClient fd = [] := by
  have hrpc : (s.clients fd).rpc = .recv :=
    print_none (Option.map_eq_none_iff.mp (hq (.call fd .print) trivial)) hpc
  refine ⟨by rw [Client.hand, hrpc], ?_⟩
  cases hto : s.toClient fd with
  | nil => rfl
  | cons x r =>
    have hnone : step s (.receive fd) = none := hq (.receive fd) trivial
    simp only [step, hto, Option.map_eq_none_iff] at hnone
    exact absurd hnone (receive_none hrpc hpc x)

/-- A handler's statement that is not enabled. -/
theorem statement_none {g : ChatServer.Globals} {h : SocketHandler}
    (hnone : ChatServer.statement g h = none) : h.pc = .recv ∨ h.pc = .finished ∨
      (∃ i last, h.pc = .sending i last ∧ i < last ∧ g.group_queue[i]? = none) ∨
      h.pc = .eraseBound ∨ ∃ i last, h.pc = .erasing i last := by
  unfold ChatServer.statement at hnone
  split at hnone
  · exact absurd hnone (by simp)
  · exact Or.inl ‹_›
  · split_ifs at hnone
  · exact absurd hnone (by simp)
  · rename_i i last hpc
    split_ifs at hnone with hlt
    exact Or.inr (Or.inr (Or.inl ⟨i, last, hpc, hlt, Option.map_eq_none_iff.mp hnone⟩))
  · exact absurd hnone (by simp)
  · rename_i i last hpc
    exact Or.inr (Or.inr (Or.inr (Or.inr ⟨i, last, hpc⟩)))
  · exact Or.inr (Or.inl ‹_›)

/-- A handler has nothing in hand, and nothing waits for it. -/
theorem quiet_handler (hs : Steady s) (hrun : s.server.exited = false)
    (hq : (system b).Quiet Delivers s) {k : ℕ} {h : SocketHandler}
    (hk : s.server.handlers[k]? = some h) :
    (∀ i, h.owed i = []) ∧ s.conns.waiting h.server = [] := by
  have hmem := List.mem_of_getElem? hk
  have hpc : h.pc = .recv ∨ h.pc = .finished := by
    have hnone := Option.map_eq_none_iff.mp (hq (.server (.run k)) trivial)
    change ChatServer.step s.server (.run k) = none at hnone
    unfold ChatServer.step at hnone
    rw [if_neg (by simp [hrun])] at hnone
    simp only [hk, Option.bind_some, Option.map_eq_none_iff] at hnone
    rcases statement_none hnone with hpc | hpc | ⟨i, last, hpc, hlt, hfd⟩ | hpc | hpc
    · exact Or.inl hpc
    · exact Or.inr hpc
    · have hle := hs.bound h hmem i last hpc
      exact absurd (List.getElem?_eq_none_iff.mp hfd) (by omega)
    · exact absurd (Or.inl hpc) (hs.inv.server.handlers h hmem).no_erase
    · exact absurd (Or.inr hpc) (hs.inv.server.handlers h hmem).no_erase
  refine ⟨fun i => ?_, ?_⟩
  · rcases hpc with hpc | hpc <;> rw [SocketHandler.owed, hpc]
  · rcases hpc with hpc | hpc
    · have hnone : step s (.recv k) = none := hq (.recv k) trivial
      simp only [step, hk, Option.bind_some] at hnone
      cases hw : s.conns.waiting h.server with
      | nil => rfl
      | cons f r =>
        simp only [Pipes.pull, hw, Option.bind_some, Option.map_eq_none_iff] at hnone
        change ChatServer.step s.server (.recv k (.data f.bytes)) = none at hnone
        unfold ChatServer.step at hnone
        rw [if_neg (by simp [hrun])] at hnone
        simp only [hk, Option.bind_some, hpc, if_true] at hnone
        exact absurd hnone (by simp)
    · exact (hs.quits.closing k h hk (Or.inl hpc)).1

end Rest

/-! ### The server runs on -/

section Staying

variable {s t : State}

end Staying

/-! ### What is typed since -/

section Typed

variable {s t : State} {k i : ℕ} {fd : ℤ} {h : SocketHandler}

/-- An entry of `group_queue` stays where it is. -/
theorem queue_keeps {a : Action} (hi : Inv s) (hfd : s.server.globals.group_queue[i]? = some fd)
    (hs : step s a = some t) : t.server.globals.group_queue[i]? = some fd := by
  cases step_move hs with
  | server a u _ hu => exact ChatServer.queue_keeps hi.server hfd hu
  | recv k g f conns u _ _ hu => exact ChatServer.queue_keeps hi.server hfd hu
  | _ => exact hfd

end Typed

end Fssn.Tcp.Chat
