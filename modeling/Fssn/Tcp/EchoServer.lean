import Fssn.Lib.Pipes
import Fssn.Tcp.Roster

/-!
# Fssn.Tcp.EchoServer — the multithreaded TCP echo server and its exit

`lec-03-prg-06`: `main` accepts clients and starts a `SocketHandler` thread for each.  A handler that
receives a `quit` takes one off `threadNum`, and when it then reads 0 it asks the operator whether to
exit the process.  The threads interleave between any two statements, and the prompt may wait long.  A
`send` ends no process here; that one to a closed connection may do so is a step of
`Fssn.Tcp.EchoScreens`.

`shutdown_iff`: in a run the process exits only after all its clients have sent `quit`, exactly if
the clients that were not yet counted when the exiting handler read 0 have sent it by then.
-/

namespace Fssn.Tcp.EchoServer

open Fssn.Lib
open ChatServer (MainPc connected)

/-- Where a handler thread stands. -/
inductive Pc
  | recv
  | compare
  | echo
  | send
  | decrement
  | report
  | test
  | prompt
  | answer
  | exit
  | finished
deriving DecidableEq

structure SocketHandler where
  server : ℤ
  this_id : Bytes
  buffer : Buffer bufSize
  isExit : Bool
  Yn : UInt8
  pc : Pc

/-- The thread that `pthread_create` starts for a descriptor; `buffer` is what its stack held. -/
def SocketHandler.create (server : ℤ) (this_id : Bytes) (buffer : Buffer bufSize) : SocketHandler :=
  ⟨server, this_id, buffer, false, 0, .recv⟩

/-- The variable the threads share, what the process has printed and sent, and whether it has
exited. -/
structure Globals where
  threadNum : ℤ
  out : Bytes
  echoed : List (ℤ × Buffer bufSize)
  exited : Bool

/-- The process and its connections: `conns` has what each client has sent on its descriptor and what
of it was received.  No descriptor is ever closed. -/
structure State where
  globals : Globals
  main : MainPc
  opened : List ℤ
  handlers : List SocketHandler
  conns : Pipes ℤ TextFrame

inductive Action
  | accept (csock : ℤ) (sin_port : UInt16)
  | acceptFailed
  | count
  | create (this_id : Bytes) (buffer : Buffer bufSize)
  | clientSend (fd : ℤ) (f : TextFrame)
  | recv (k : ℕ)
  | run (k : ℕ)
  | answer (k : ℕ) (Yn : UInt8)

/-- The statement at a handler's program counter, `recv` and the reading of the answer apart. -/
def statement (g : Globals) (h : SocketHandler) : Option (Globals × SocketHandler) :=
  match h.pc with
  | .recv => none
  | .compare => some (g, { h with pc := if isQuit h.buffer.bytes then .decrement else .echo })
  | .echo =>
    let line := (multithread h.server h.this_id).onFrame ⟨g.threadNum, []⟩ (cText h.buffer.bytes)
    some ({ g with out := g.out ++ line }, { h with pc := .send })
  | .send =>
    some ({ g with echoed := g.echoed ++ [(h.server, h.buffer)] },
      { h with pc := if h.isExit then .finished else .recv })
  | .decrement => some ({ g with threadNum := g.threadNum - 1 }, { h with pc := .report })
  | .report =>
    some ({ g with
      out := g.out ++ ascii "active threads are remained: " ++ toStringInt g.threadNum ++ ascii "\n" },
      { h with pc := .test })
  | .test =>
    if g.threadNum = 0 then some (g, { h with pc := .prompt })
    else some (g, { h with isExit := true, pc := .finished })
  | .prompt =>
    some ({ g with out := g.out ++ ascii "Do you want to exit program? (y/n) " },
      { h with pc := .answer })
  | .answer => none
  | .exit => some ({ g with exited := true }, { h with pc := .finished })
  | .finished => none

/-- One step of the process, of a client or of the operator.  `accept` returns a descriptor that is
not open. -/
def step (s : State) (a : Action) : Option State :=
  if s.globals.exited then none else
  match a with
  | .accept csock sin_port =>
    match s.main with
    | .accept =>
      if 0 ≤ csock ∧ csock ∉ s.opened then
        some { s with
          globals := { s.globals with out := s.globals.out ++ connected sin_port }
          main := .count csock
          opened := s.opened ++ [csock] }
      else none
    | _ => none
  | .acceptFailed =>
    match s.main with
    | .accept => some s
    | _ => none
  | .count =>
    match s.main with
    | .count csock =>
      some { s with
        globals := { s.globals with threadNum := s.globals.threadNum + 1 }
        main := .create csock }
    | _ => none
  | .create this_id buffer =>
    match s.main with
    | .create csock =>
      some { s with
        main := .accept
        handlers := s.handlers ++ [.create csock this_id buffer] }
    | _ => none
  | .clientSend fd f => some { s with conns := s.conns.push fd f }
  | .recv k =>
    s.handlers[k]?.bind fun h =>
      if h.pc = .recv then
        (s.conns.pull h.server).map fun r =>
          { s with
            conns := r.2
            handlers := s.handlers.set k { h with buffer := r.1.toBuffer, pc := .compare } }
      else none
  | .run k =>
    s.handlers[k]?.bind fun h =>
      (statement s.globals h).map fun gh =>
        { s with globals := gh.1, handlers := s.handlers.set k gh.2 }
  | .answer k Yn =>
    s.handlers[k]?.bind fun h =>
      if h.pc = .answer then
        -- 121 is `y`; otherwise the handler goes on to `isExit = true`
        let h' := if Yn = 121 then { h with Yn := Yn, pc := .exit }
          else { h with Yn := Yn, isExit := true, pc := .finished }
        some { s with handlers := s.handlers.set k h' }
      else none

/-- The server, and clients that have sent nothing yet. -/
def server : System State Action where
  init := ⟨⟨0, [], [], false⟩, .accept, [], [], .empty⟩
  step := step

/-! ### The law -/

/-- The client on the descriptor `fd` has sent `quit`. -/
def SentQuit (s : State) (fd : ℤ) : Prop := ∃ f ∈ s.conns.pushed fd, f.text = ascii "quit"

/-- The handler `k` is about to execute the statement at `pc`. -/
def At (s : State) (k : ℕ) (pc : Pc) : Prop := ∃ h, s.handlers[k]? = some h ∧ h.pc = pc

/-- Whenever a handler executes `exit(1)` in the run `as`, every accepted client has sent `quit`. -/
def ExitLaw (as : List Action) : Prop :=
  ∀ p k, p ++ [.run k] <+: as → ∀ s t, server.exec server.init p = some s →
    server.step s (.run k) = some t → At s k .exit → ∀ fd ∈ s.opened, SentQuit s fd

/-- The clients for which `main` has executed `threadNum++`. -/
def State.counted (s : State) : List ℤ :=
  s.handlers.map SocketHandler.server ++ match s.main with
    | .create csock => [csock]
    | _ => []

/-- Whenever a handler tests `threadNum` in the run `as` and later executes `exit(1)`, the clients
that were not counted at the test have sent `quit` by the exit. -/
def LateClientsQuit (as : List Action) : Prop :=
  ∀ p k mid, p ++ .run k :: mid ++ [.run k] <+: as → ∀ r s t, server.exec server.init p = some r →
    server.exec r (.run k :: mid) = some s → server.step s (.run k) = some t →
    At r k .test → At s k .exit → ∀ fd ∈ s.opened, fd ∉ r.counted → SentQuit s fd

/-! ### What a step can do -/

/-- The handler is behind its comparison with `quit`, which was positive. -/
def Pc.quitting : Pc → Bool
  | .decrement | .report | .test | .prompt | .answer | .exit | .finished => true
  | _ => false

/-- The handler has executed `threadNum--`. -/
def Pc.decremented : Pc → Bool
  | .report | .test | .prompt | .answer | .exit | .finished => true
  | _ => false

/-- The handler has read 0 at its test. -/
def Pc.asking : Pc → Bool
  | .prompt | .answer | .exit => true
  | _ => false

/-- A handler's statement: the comparison that finds a `quit`, the decrement, or one that changes
neither `threadNum` nor what the program counter says of the two.  The loop is never left by its own
condition. -/
inductive Effect (g : Globals) (h : SocketHandler) : Globals → SocketHandler → Prop
  | quit (hpc : h.pc = .compare) (hq : isQuit h.buffer.bytes = true) :
      Effect g h g { h with pc := .decrement }
  | decrement (hpc : h.pc = .decrement) :
      Effect g h { g with threadNum := g.threadNum - 1 } { h with pc := .report }
  | other (g' : Globals) (h' : SocketHandler) (hlive : h.pc ≠ .finished)
      (hnum : g'.threadNum = g.threadNum) (hserver : h'.server = h.server)
      (hcompare : h'.pc ≠ .compare)
      (hexit : h'.isExit = true → h.isExit = true ∨ h'.pc = .finished)
      (hquit : h'.pc.quitting = h.pc.quitting) (hdec : h'.pc.decremented = h.pc.decremented)
      (hask : h'.pc.asking = true → h.pc.asking = true ∨ h.pc = .test ∧ g.threadNum = 0) :
      Effect g h g' h'
  | left (hpc : h.pc = .send) (hexit : h.isExit = true) (g' : Globals) (h' : SocketHandler) :
      Effect g h g' h'

/-- Going from `p` to `q`, a handler changes nothing of what the program counter says. -/
def Pc.Keeps (p q : Pc) : Prop :=
  p ≠ .finished ∧ q ≠ .compare ∧ q.quitting = p.quitting ∧ q.decremented = p.decremented ∧
    (q.asking = true → p.asking = true)

instance (p q : Pc) : Decidable (p.Keeps q) := inferInstanceAs (Decidable (_ ∧ _ ∧ _ ∧ _ ∧ _))

theorem Effect.of_keeps {g g' : Globals} {h : SocketHandler} {p q : Pc} (hpc : h.pc = p)
    (hkeep : p.Keeps q) (hnum : g'.threadNum = g.threadNum) : Effect g h g' { h with pc := q } := by
  subst hpc
  obtain ⟨hlive, hcompare, hquit, hdec, hask⟩ := hkeep
  exact .other _ _ hlive hnum rfl hcompare Or.inl hquit hdec fun h => Or.inl (hask h)

theorem statement_effect {g g' : Globals} {h h' : SocketHandler}
    (hs : statement g h = some (g', h')) : Effect g h g' h' := by
  unfold statement at hs
  split at hs
  case h_1 => exact absurd hs (by simp)
  case h_2 hpc =>
    by_cases hq : isQuit h.buffer.bytes = true
    · rw [if_pos hq] at hs
      cases hs
      exact .quit hpc hq
    · rw [if_neg hq] at hs
      cases hs
      exact .of_keeps hpc (by decide) rfl
  case h_3 hpc =>
    cases hs
    exact .of_keeps hpc (by decide) rfl
  case h_4 hpc =>
    cases hs
    by_cases hexit : h.isExit = true
    · exact .left hpc hexit _ _
    · rw [if_neg hexit]
      exact .of_keeps hpc (by decide) rfl
  case h_5 hpc =>
    cases hs
    exact .decrement hpc
  case h_6 hpc =>
    cases hs
    exact .of_keeps hpc (by decide) rfl
  case h_7 hpc =>
    -- the only way to the prompt; the other one sets `isExit` and leaves
    split_ifs at hs with h0
    · cases hs
      exact .other _ _ (by simp [hpc]) rfl rfl (by simp) Or.inl (by rw [hpc]; rfl) (by rw [hpc]; rfl)
        (fun _ => Or.inr ⟨hpc, h0⟩)
    · cases hs
      exact .other _ _ (by simp [hpc]) rfl rfl (by simp) (fun _ => Or.inr rfl) (by rw [hpc]; rfl)
        (by rw [hpc]; rfl) (by simp [Pc.asking])
  case h_8 hpc =>
    cases hs
    exact .of_keeps hpc (by decide) rfl
  case h_9 => exact absurd hs (by simp)
  case h_10 hpc =>
    cases hs
    exact .of_keeps hpc (by decide) rfl
  case h_11 => exact absurd hs (by simp)

/-- A step, with one case per effect on what the threads share.  The answer is a statement of its
handler like the others. -/
inductive Move (s : State) : Action → State → Prop
  | accept (csock : ℤ) (sin_port : UInt16) (g' : Globals) (hnum : g'.threadNum = s.globals.threadNum)
      (hmain : s.main = .accept) (hnew : csock ∉ s.opened) :
      Move s (.accept csock sin_port)
        { s with globals := g', main := .count csock, opened := s.opened ++ [csock] }
  | acceptFailed : Move s .acceptFailed s
  | count (csock : ℤ) (hmain : s.main = .count csock) :
      Move s .count
        { s with
          globals := { s.globals with threadNum := s.globals.threadNum + 1 }
          main := .create csock }
  | create (csock : ℤ) (this_id : Bytes) (buffer : Buffer bufSize) (hmain : s.main = .create csock) :
      Move s (.create this_id buffer)
        { s with main := .accept, handlers := s.handlers ++ [.create csock this_id buffer] }
  | clientSend (fd : ℤ) (f : TextFrame) :
      Move s (.clientSend fd f) { s with conns := s.conns.push fd f }
  | recv (k : ℕ) (h : SocketHandler) (f : TextFrame) (conns : Pipes ℤ TextFrame)
      (hk : s.handlers[k]? = some h) (hpc : h.pc = .recv)
      (hpull : s.conns.pull h.server = some (f, conns)) :
      Move s (.recv k)
        { s with
          conns := conns
          handlers := s.handlers.set k { h with buffer := f.toBuffer, pc := .compare } }
  | run (a : Action) (k : ℕ) (h h' : SocketHandler) (g' : Globals)
      (ha : a = .run k ∨ ∃ Yn, a = .answer k Yn) (hk : s.handlers[k]? = some h)
      (hpc : (∃ Yn, a = .answer k Yn) → h.pc = .answer) (he : Effect s.globals h g' h') :
      Move s a { s with globals := g', handlers := s.handlers.set k h' }

theorem not_exited {s t : State} {a : Action} (hs : server.step s a = some t) :
    s.globals.exited = false := by
  change step s a = some t at hs
  unfold step at hs
  by_contra hex
  rw [if_pos (by simpa using hex)] at hs
  exact absurd hs (by simp)

theorem step_move {s t : State} {a : Action} (hs : server.step s a = some t) : Move s a t := by
  change step s a = some t at hs
  unfold step at hs
  by_cases hex : s.globals.exited = true
  · rw [if_pos hex] at hs
    exact absurd hs (by simp)
  rw [if_neg hex] at hs
  cases a with
  | accept csock sin_port =>
    dsimp only at hs
    split at hs
    · rename_i hmain
      split_ifs at hs with hnew
      cases hs
      exact .accept csock sin_port _ rfl hmain hnew.2
    · exact absurd hs (by simp)
  | acceptFailed =>
    dsimp only at hs
    split at hs
    · cases hs
      exact .acceptFailed
    · exact absurd hs (by simp)
  | count =>
    dsimp only at hs
    split at hs
    · rename_i csock hmain
      cases hs
      exact .count csock hmain
    · exact absurd hs (by simp)
  | create this_id buffer =>
    dsimp only at hs
    split at hs
    · rename_i csock hmain
      cases hs
      exact .create csock this_id buffer hmain
    · exact absurd hs (by simp)
  | clientSend fd f =>
    cases hs
    exact .clientSend fd f
  | recv k =>
    obtain ⟨h, hk, hs⟩ := Option.bind_eq_some_iff.mp hs
    split_ifs at hs with hpc
    obtain ⟨⟨f, conns⟩, hpull, rfl⟩ := Option.map_eq_some_iff.mp hs
    exact .recv k h f conns hk hpc hpull
  | run k =>
    obtain ⟨h, hk, hs⟩ := Option.bind_eq_some_iff.mp hs
    obtain ⟨⟨g', h'⟩, hst, rfl⟩ := Option.map_eq_some_iff.mp hs
    exact .run _ k h h' g' (Or.inl rfl) hk (by simp) (statement_effect hst)
  | answer k Yn =>
    obtain ⟨h, hk, hs⟩ := Option.bind_eq_some_iff.mp hs
    split_ifs at hs with hpc hy
    · cases hs
      exact .run _ k h _ _ (Or.inr ⟨Yn, rfl⟩) hk (fun _ => hpc) (.other _ _ (by simp [hpc]) rfl rfl (by simp) Or.inl
        (by rw [hpc]; rfl) (by rw [hpc]; rfl) (fun _ => Or.inl (by rw [hpc]; rfl)))
    · cases hs
      exact .run _ k h _ _ (Or.inr ⟨Yn, rfl⟩) hk (fun _ => hpc) (.other _ _ (by simp [hpc]) rfl rfl (by simp)
        (fun _ => Or.inr rfl) (by rw [hpc]; rfl) (by rw [hpc]; rfl) (by simp [Pc.asking]))

/-! ### The invariant -/

/-- The client on `fd` has sent `f`. -/
def Sent (conns : Pipes ℤ TextFrame) (fd : ℤ) (f : TextFrame) : Prop := f ∈ conns.pushed fd

/-- What holds of each handler by itself: its buffer has a frame its client sent, and it is behind
its comparison only for a `quit`. -/
structure SocketHandler.Ok (conns : Pipes ℤ TextFrame) (h : SocketHandler) : Prop where
  compare : h.pc = .compare → ∃ f, Sent conns h.server f ∧ h.buffer = f.toBuffer
  quit : h.pc.quitting = true → ∃ f, Sent conns h.server f ∧ f.text = ascii "quit"
  exit : h.isExit = true → h.pc = .finished

/-- The handlers that have executed `threadNum--`. -/
def decremented (hs : List SocketHandler) : ℕ := hs.countP fun h => h.pc.decremented

/-- Holds in every reachable state. -/
structure Inv (s : State) : Prop where
  fifo : s.conns.Fifo
  count : s.globals.threadNum + decremented s.handlers = s.handlers.length + s.main.counted
  handlers : ∀ h ∈ s.handlers, h.Ok s.conns

theorem inv_init : Inv server.init where
  fifo := Pipes.Fifo.empty
  count := rfl
  handlers _ h := absurd h List.not_mem_nil

theorem sent_push {conns : Pipes ℤ TextFrame} {fd : ℤ} {f : TextFrame} (h : Sent conns fd f)
    (i : ℤ) (g : TextFrame) : Sent (conns.push i g) fd f := by
  show f ∈ Function.update conns.pushed i (conns.pushed i ++ [g]) fd
  by_cases hi : fd = i
  · subst hi
    rw [Function.update_self]
    exact List.mem_append_left _ h
  · rw [Function.update_of_ne hi]
    exact h

theorem SocketHandler.Ok.mono {c c' : Pipes ℤ TextFrame} {h : SocketHandler} (hok : h.Ok c)
    (hc : ∀ fd f, Sent c fd f → Sent c' fd f) : h.Ok c' where
  compare hpc := (hok.compare hpc).imp fun f hf => ⟨hc _ f hf.1, hf.2⟩
  quit hpc := (hok.quit hpc).imp fun f hf => ⟨hc _ f hf.1, hf.2⟩
  exit := hok.exit

/-- What a client has sent stays sent. -/
theorem sent_step {s t : State} {a : Action} (hs : server.step s a = some t) {fd : ℤ}
    {f : TextFrame} (hf : Sent s.conns fd f) : Sent t.conns fd f := by
  cases step_move hs with
  | clientSend i g => exact sent_push hf i g
  | recv k h g conns hk hpc hpull =>
    show f ∈ conns.pushed fd
    rw [(Pipes.pull_some hpull).1]
    exact hf
  | accept => exact hf
  | acceptFailed => exact hf
  | count => exact hf
  | create => exact hf
  | run => exact hf

/-- The frame that a handler receives was sent by its client. -/
theorem sent_of_pull {c c' : Pipes ℤ TextFrame} (hc : c.Fifo) {fd : ℤ} {f : TextFrame}
    (hp : c.pull fd = some (f, c')) : Sent c fd f := by
  have hw := (Pipes.pull_some hp).2.2.1
  show f ∈ c.pushed fd
  rw [← hc fd, hw]
  exact List.mem_append_right _ List.mem_cons_self

theorem inv_effect {s : State} (hi : Inv s) {k : ℕ} {h h' : SocketHandler} {g' : Globals}
    (hk : s.handlers[k]? = some h) (he : Effect s.globals h g' h') :
    Inv { s with globals := g', handlers := s.handlers.set k h' } := by
  have hok := hi.handlers h (List.mem_of_getElem? hk)
  have hcount := hi.count
  unfold decremented at hcount
  cases he with
  | quit hpc hq =>
    refine ⟨hi.fifo, ?_, forall_mem_set hi.handlers ?_ k⟩
    · dsimp only [decremented]
      rw [countP_set_eq hk (by rw [hpc]; rfl), List.length_set]
      exact hcount
    · obtain ⟨f, hf, hbuffer⟩ := hok.compare hpc
      refine ⟨by simp, fun _ => ⟨f, hf, ?_⟩, fun hexit => ?_⟩
      · rw [hbuffer] at hq
        exact (f.strcmpEq_text (by decide)).mp hq
      · exact absurd ((hok.exit hexit).symm.trans hpc) (by simp)
  | decrement hpc =>
    refine ⟨hi.fifo, ?_, forall_mem_set hi.handlers ?_ k⟩
    · dsimp only [decremented]
      rw [countP_set_succ hk (by rw [hpc]; rfl) (by rfl), List.length_set]
      push_cast
      omega
    · refine ⟨by simp, fun _ => hok.quit (by rw [hpc]; rfl), fun hexit => ?_⟩
      exact absurd ((hok.exit hexit).symm.trans hpc) (by simp)
  | other _ _ hlive hnum hserver hcompare hexit hquit hdec hask =>
    refine ⟨hi.fifo, ?_, forall_mem_set hi.handlers ?_ k⟩
    · dsimp only [decremented]
      rw [countP_set_eq hk hdec, List.length_set, hnum]
      exact hcount
    · refine ⟨fun hpc => absurd hpc hcompare, fun hpc => ?_, fun h1 => ?_⟩
      · rw [hserver]
        exact hok.quit (hquit ▸ hpc)
      · rcases hexit h1 with h2 | h2
        · exact absurd (hok.exit h2) hlive
        · exact h2
  | left hpc hexit => exact absurd ((hok.exit hexit).symm.trans hpc) (by simp)

theorem inv_step {s t : State} {a : Action} (hi : Inv s) (hs : server.step s a = some t) :
    Inv t := by
  have hsent : ∀ fd f, Sent s.conns fd f → Sent t.conns fd f := fun _ _ => sent_step hs
  have hcount := hi.count
  cases step_move hs with
  | accept csock sin_port g' hnum hmain hnew =>
    rw [hmain] at hcount
    exact ⟨hi.fifo, hnum ▸ hcount, hi.handlers⟩
  | acceptFailed => exact hi
  | count csock hmain =>
    rw [hmain] at hcount
    refine ⟨hi.fifo, ?_, hi.handlers⟩
    simp only [MainPc.counted] at hcount ⊢
    omega
  | create csock this_id buffer hmain =>
    rw [hmain] at hcount
    refine ⟨hi.fifo, ?_, ?_⟩
    · have hnew : decremented [SocketHandler.create csock this_id buffer] = 0 := rfl
      simp only [decremented, List.countP_append, List.length_append, List.length_singleton,
        MainPc.counted] at hcount hnew ⊢
      rw [hnew]
      push_cast
      omega
    · intro h hh
      rcases List.mem_append.mp hh with hh | hh
      · exact hi.handlers h hh
      · rw [List.mem_singleton.mp hh]
        exact ⟨by simp [SocketHandler.create], by simp [SocketHandler.create, Pc.quitting],
          by simp [SocketHandler.create]⟩
  | clientSend fd f => exact ⟨hi.fifo.push fd f, hcount, fun h hh => (hi.handlers h hh).mono hsent⟩
  | recv k h f conns hk hpc hpull =>
    have hok := hi.handlers h (List.mem_of_getElem? hk)
    refine ⟨hi.fifo.pull hpull, ?_, ?_⟩
    · dsimp only [decremented] at hcount ⊢
      rw [countP_set_eq hk (by rw [hpc]; rfl), List.length_set]
      exact hcount
    · refine forall_mem_set (fun h hh => (hi.handlers h hh).mono hsent) ?_ k
      refine ⟨fun _ => ⟨f, hsent _ _ (sent_of_pull hi.fifo hpull), rfl⟩, by simp [Pc.quitting], ?_⟩
      intro hexit
      exact absurd ((hok.exit hexit).symm.trans hpc) (by simp)
  | run a k h h' g' ha hk hpc he => exact inv_effect hi hk he

theorem inv_of_exec {as : List Action} {s : State} (h : server.exec server.init as = some s) :
    Inv s :=
  (System.always_of_step inv_init (fun _ _ _ => inv_step) as).last h

theorem sentQuit_exec {s t : State} {as : List Action} (h : server.exec s as = some t) {fd : ℤ}
    (hq : SentQuit s fd) : SentQuit t fd := by
  obtain ⟨f, hf, htext⟩ := hq
  have hkeep : ∀ s a t, Sent s.conns fd f → server.step s a = some t → Sent t.conns fd f :=
    fun _ _ _ hf hs => sent_step hs hf
  exact ⟨f, System.exec_preserves hkeep hf h, htext⟩

/-! ### The test and the exit -/

/-- When `threadNum` is 0, all clients counted so far have sent `quit`. -/
theorem Inv.counted_sentQuit {s : State} (hi : Inv s) (h0 : s.globals.threadNum = 0) :
    ∀ fd ∈ s.counted, SentQuit s fd := by
  have hle : decremented s.handlers ≤ s.handlers.length := List.countP_le_length
  have hcount := hi.count
  have hall : decremented s.handlers = s.handlers.length := by omega
  have hmain : s.main.counted = 0 := by omega
  intro fd hfd
  rcases List.mem_append.mp hfd with hfd | hfd
  · obtain ⟨h, hh, rfl⟩ := List.mem_map.mp hfd
    have hdec : h.pc.decremented = true := List.countP_eq_length.mp hall h hh
    refine (hi.handlers h hh).quit ?_
    cases hpc : h.pc <;> simp_all [Pc.decremented, Pc.quitting]
  · cases hm : s.main with
    | create csock =>
      rw [hm] at hmain
      exact absurd hmain (by simp [MainPc.counted])
    | accept => simp [hm] at hfd
    | count csock => simp [hm] at hfd

/-- The handler `k` has read 0 at its test in the run `as`, which ends in `s`. -/
def Tested (as : List Action) (k : ℕ) (s : State) : Prop :=
  ∃ p mid r, as = p ++ .run k :: mid ∧ server.exec server.init p = some r ∧
    server.exec r (.run k :: mid) = some s ∧ At r k .test ∧ r.globals.threadNum = 0

theorem Tested.concat {as : List Action} {k : ℕ} {s t : State} {a : Action} (h : Tested as k s)
    (hs : server.step s a = some t) : Tested (as ++ [a]) k t := by
  obtain ⟨p, mid, r, rfl, hp, hr, htest, h0⟩ := h
  refine ⟨p, mid ++ [a], r, by simp, hp, ?_, htest, h0⟩
  rw [← List.cons_append, System.exec_concat, hr]
  exact hs

/-- A handler that asks the operator after a step did so before, or has just read 0. -/
theorem asking_step {s t : State} {a : Action} {k : ℕ} {g : SocketHandler} (hi : Inv s)
    (hs : server.step s a = some t) (hg : t.handlers[k]? = some g) (hask : g.pc.asking = true) :
    (∃ h, s.handlers[k]? = some h ∧ h.pc.asking = true) ∨
      a = .run k ∧ At s k .test ∧ s.globals.threadNum = 0 := by
  cases step_move hs with
  | accept => exact Or.inl ⟨g, hg, hask⟩
  | acceptFailed => exact Or.inl ⟨g, hg, hask⟩
  | count => exact Or.inl ⟨g, hg, hask⟩
  | clientSend => exact Or.inl ⟨g, hg, hask⟩
  | create csock this_id buffer hmain =>
    by_cases hlt : k < s.handlers.length
    · rw [List.getElem?_append_left hlt] at hg
      exact Or.inl ⟨g, hg, hask⟩
    · rw [List.getElem?_append_right (Nat.le_of_not_lt hlt)] at hg
      rw [List.mem_singleton.mp (List.mem_of_getElem? hg)] at hask
      exact absurd hask (by simp [SocketHandler.create, Pc.asking])
  | recv j h f conns hj hpc hpull =>
    by_cases hjk : k = j
    · subst hjk
      rw [getElem?_set_of_some hj] at hg
      rw [← Option.some.inj hg] at hask
      exact absurd hask (by simp [Pc.asking])
    · rw [getElem?_set_of_ne hjk] at hg
      exact Or.inl ⟨g, hg, hask⟩
  | run a j h h' g' ha hj hpc he =>
    by_cases hjk : k = j
    · subst hjk
      rw [getElem?_set_of_some hj] at hg
      obtain rfl := Option.some.inj hg
      cases he with
      | quit => exact absurd hask (by simp [Pc.asking])
      | decrement => exact absurd hask (by simp [Pc.asking])
      | other _ _ _ _ _ _ _ _ _ hask' =>
        rcases hask' hask with hold | ⟨htest, h0⟩
        · exact Or.inl ⟨h, hj, hold⟩
        · refine Or.inr ⟨ha.resolve_right fun hans => ?_, ⟨h, hj, htest⟩, h0⟩
          exact absurd (htest.symm.trans (hpc hans)) (by simp)
      | left hsend hexit =>
        have hok := hi.handlers h (List.mem_of_getElem? hj)
        exact absurd ((hok.exit hexit).symm.trans hsend) (by simp)
    · rw [getElem?_set_of_ne hjk] at hg
      exact Or.inl ⟨g, hg, hask⟩

/-- A handler that asks the operator has read 0 at its test. -/
theorem tested_of_asking {as : List Action} {s : State}
    (hexec : server.exec server.init as = some s) :
    ∀ k h, s.handlers[k]? = some h → h.pc.asking = true → Tested as k s := by
  refine System.exec_induction (T := server)
    (P := fun as s => ∀ k h, s.handlers[k]? = some h → h.pc.asking = true → Tested as k s) ?_ ?_ hexec
  · exact fun k h hk => absurd hk (by simp [server])
  · intro as s a t hs ih ht k g hg hask
    rcases asking_step (inv_of_exec hs) ht hg hask with ⟨h, hk, hask⟩ | ⟨rfl, htest, h0⟩
    · exact (ih k h hk hask).concat ht
    · refine ⟨as, [], s, rfl, hs, ?_, htest, h0⟩
      rw [System.exec_cons, ht]
      rfl

theorem exitLaw_of_lateClientsQuit {as : List Action} (hlate : LateClientsQuit as) : ExitLaw as := by
  intro p k hpre s t hs ht hexit fd hfd
  obtain ⟨h, hk, hpc⟩ := hexit
  obtain ⟨p, mid, r, rfl, hr, hmid, htest, h0⟩ :=
    tested_of_asking hs k h hk (by rw [hpc]; rfl)
  by_cases hcounted : fd ∈ r.counted
  · exact sentQuit_exec hmid ((inv_of_exec hr).counted_sentQuit h0 fd hcounted)
  · exact hlate p k mid hpre r s t hr hmid ht htest ⟨h, hk, hpc⟩ fd hfd hcounted

theorem lateClientsQuit_of_exitLaw {as : List Action} (hlaw : ExitLaw as) : LateClientsQuit as := by
  intro p k mid hpre r s t hr hs ht _ hexit fd hfd _
  refine hlaw _ k hpre s t ?_ ht hexit fd hfd
  rw [System.exec_append, hr]
  exact hs

/-- **Shutdown.**  In exactly the runs in which the clients not yet counted at the exiting handler's
test of `threadNum` have sent `quit` by the exit, the process exits under no live client. -/
theorem shutdown_iff (as : List Action) : ExitLaw as ↔ LateClientsQuit as :=
  ⟨lateClientsQuit_of_exitLaw, exitLaw_of_lateClientsQuit⟩

/-- A client quits; while the operator is asked, another one connects; the answer is `y`. -/
def exitUnderClient : List Action :=
  [.accept 4 0, .count, .create [] (.const bufSize 0), .clientSend 4 quitFrame, .recv 0,
    .run 0, .run 0, .run 0, .run 0, .run 0, .accept 5 0, .answer 0 121, .run 0]

/-- The client on descriptor 5 has sent nothing when the process exits. -/
theorem not_always_exitLaw : ¬ ∀ as, ExitLaw as := by
  intro h
  obtain ⟨f, hf, -⟩ := h exitUnderClient (exitUnderClient.take 12) 0 (List.prefix_refl _) _ _ rfl rfl
    ⟨_, rfl, rfl⟩ 5 (by decide)
  exact (List.not_mem_nil : f ∉ []) hf

end Fssn.Tcp.EchoServer
