import Mathlib.Data.List.Nodup
import Fssn.Lib.Threads
import Fssn.Tcp.ChatServer

/-!
# Fssn.Tcp.Roster — whom the TCP chat server's group_queue holds

`Inv` holds in every reachable state: `group_queue` has the descriptors of all handlers that have
executed their `push_back`, those that have processed `quit` included, because `goto FINISH` jumps
over the loop that erases.
-/

namespace Fssn.Tcp.ChatServer

open Fssn.Lib

/-- The handler has executed its `push_back`. -/
def SocketHandler.pushed (h : SocketHandler) : Bool := decide (h.pc ≠ .pushBack)

/-! ### Replacing one handler -/

section Replace

variable {hs : List SocketHandler} {h g : SocketHandler} {k : ℕ}

/-- The descriptors of the handlers that have executed their `push_back`. -/
def pushedServers (hs : List SocketHandler) : List ℤ :=
  (hs.filter SocketHandler.pushed).map SocketHandler.server

theorem pushedServers_set (hk : hs[k]? = some h) (hserver : g.server = h.server)
    (hpushed : g.pushed = h.pushed) : pushedServers (hs.set k g) = pushedServers hs := by
  obtain ⟨l, r, rfl, hset⟩ := exists_replace hk
  unfold pushedServers
  rw [hset, List.filter_append, List.filter_append, List.filter_cons, List.filter_cons, hpushed]
  split <;> simp [hserver]

theorem pushedServers_push (hk : hs[k]? = some h) (hserver : g.server = h.server)
    (hold : h.pushed = false) (hnew : g.pushed = true) :
    (pushedServers hs ++ [h.server]).Perm (pushedServers (hs.set k g)) := by
  obtain ⟨l, r, rfl, hset⟩ := exists_replace hk
  unfold pushedServers
  rw [hset, List.filter_append, List.filter_append, List.filter_cons_of_neg (by simp [hold]),
    List.filter_cons_of_pos hnew, List.map_append, List.map_append, List.map_cons, hserver]
  exact (List.perm_append_singleton _ _).trans List.perm_middle.symm

/-- The number of handlers that have processed a `quit`. -/
def quitters (hs : List SocketHandler) : ℕ := hs.countP SocketHandler.isExit

theorem quitters_set (hk : hs[k]? = some h) (hexit : g.isExit = h.isExit) :
    quitters (hs.set k g) = quitters hs :=
  countP_set_eq hk hexit

theorem quitters_quit (hk : hs[k]? = some h) (hold : h.isExit = false) (hnew : g.isExit = true) :
    quitters (hs.set k g) = quitters hs + 1 :=
  countP_set_succ hk hold hnew

end Replace

/-! ### The invariant -/

/-- The descriptor that `main` holds for a handler it has not started. -/
def MainPc.pending : MainPc → List ℤ
  | .accept => []
  | .count csock => [csock]
  | .create csock => [csock]

/-- The clients that `main` has counted and not started a handler for. -/
def MainPc.counted : MainPc → ℕ
  | .create _ => 1
  | _ => 0

/-- What holds of each handler by itself; the erase loop is never reached. -/
structure SocketHandler.Ok (h : SocketHandler) : Prop where
  exit : h.isExit = decide (h.pc = .finished)
  no_erase : ¬ (h.pc = .eraseBound ∨ ∃ i last, h.pc = .erasing i last)
  turns : ∀ i last, h.pc = .sending i last → h.targets.length = i ∧ i ≤ last

/-- Holds in every reachable state. -/
structure Inv (s : State) : Prop where
  opened_nodup : s.opened.Nodup
  opened_eq : s.opened = s.handlers.map SocketHandler.server ++ s.main.pending
  queue : s.globals.group_queue.Perm (pushedServers s.handlers)
  count : s.globals.threadNum + quitters s.handlers = s.handlers.length + s.main.counted
  handlers : ∀ h ∈ s.handlers, h.Ok

theorem inv_init : Inv server.init where
  opened_nodup := List.nodup_nil
  opened_eq := rfl
  queue := List.Perm.refl _
  count := rfl
  handlers _ h := absurd h List.not_mem_nil

/-- A statement that leaves the shared variables, and the new handler's `pushed` and `isExit`, as
they were keeps the invariant. -/
theorem inv_local {s : State} (hi : Inv s) {k : ℕ} {h h' : SocketHandler} {out : Bytes}
    (hk : s.handlers[k]? = some h) (hserver : h'.server = h.server) (hpushed : h'.pushed = h.pushed)
    (hexit : h'.isExit = h.isExit) (hok : h'.Ok) :
    Inv { s with
      globals := { s.globals with out := out }
      handlers := s.handlers.set k h' } where
  opened_nodup := hi.opened_nodup
  opened_eq := by
    rw [map_set_eq hk hserver]
    exact hi.opened_eq
  queue := by
    rw [pushedServers_set hk hserver hpushed]
    exact hi.queue
  count := by
    rw [quitters_set hk hexit, List.length_set]
    exact hi.count
  handlers := forall_mem_set hi.handlers hok k

theorem inv_effect {s : State} (hi : Inv s) {k : ℕ} {h h' : SocketHandler} {g' : Globals}
    (hk : s.handlers[k]? = some h) (he : Effect s.globals h g' h') :
    Inv { s with globals := g', handlers := s.handlers.set k h' } := by
  have hok := hi.handlers h (List.mem_of_getElem? hk)
  -- a handler that is not finished has not quit
  have hrun : ∀ {pc : Pc}, h.pc = pc → pc ≠ .finished → h.isExit = false := by
    intro pc hpc hne
    rw [hok.exit, hpc]
    exact decide_eq_false hne
  cases he with
  | push hpc =>
    refine ⟨hi.opened_nodup, ?_, ?_, ?_, forall_mem_set hi.handlers ?_ k⟩
    · rw [map_set_eq hk (b := { h with pc := .recv }) rfl]
      exact hi.opened_eq
    · have hold : h.pushed = false := by simp [SocketHandler.pushed, hpc]
      exact (hi.queue.append_right [h.server]).trans (pushedServers_push hk rfl hold rfl)
    · rw [quitters_set hk (g := { h with pc := .recv }) rfl, List.length_set]
      exact hi.count
    · exact ⟨hrun hpc (by simp), by simp, by simp⟩
  | quit hpc hq =>
    refine ⟨hi.opened_nodup, ?_, ?_, ?_, forall_mem_set hi.handlers ?_ k⟩
    · rw [map_set_eq hk (b := { h with isExit := true, pc := .finished }) rfl]
      exact hi.opened_eq
    · rw [pushedServers_set hk (g := { h with isExit := true, pc := .finished }) rfl
        (by simp [SocketHandler.pushed, hpc])]
      exact hi.queue
    · rw [quitters_quit hk (hrun hpc (by simp)) (g := { h with isExit := true, pc := .finished })
        rfl, List.length_set]
      have := hi.count
      dsimp only
      push_cast
      omega
    · exact ⟨rfl, by simp, by simp⟩
  | print hpc hq line =>
    refine inv_local hi hk rfl (by simp [SocketHandler.pushed, hpc]) rfl ?_
    exact ⟨hrun hpc (by simp), by simp, by simp⟩
  | bound hpc =>
    refine inv_local hi hk rfl (by simp [SocketHandler.pushed, hpc]) rfl ?_
    refine ⟨hrun hpc (by simp), by simp, ?_⟩
    rintro i last ⟨⟩
    exact ⟨rfl, Nat.zero_le _⟩
  | send i last fd hpc hlt hfd =>
    obtain ⟨hlen, -⟩ := hok.turns i last hpc
    refine inv_local hi hk rfl (by simp [SocketHandler.pushed, hpc]) rfl ?_
    refine ⟨hrun hpc (by simp), by simp, ?_⟩
    rintro _ _ ⟨⟩
    rw [List.length_append, hlen]
    exact ⟨rfl, hlt⟩
  | sent i last hpc hle =>
    have hexit := hrun hpc (by simp)
    refine inv_local hi hk rfl (by simp [SocketHandler.pushed, hpc, hexit]) rfl ?_
    refine ⟨by simp [hexit], by simp [hexit], by simp [hexit]⟩
  | erase hpc => exact absurd hpc hok.no_erase

/-- A new handler has not executed its `push_back`. -/
theorem pushedServers_create (hs : List SocketHandler) (csock : ℤ) (buffer : Buffer bufSize) :
    pushedServers (hs ++ [.create csock buffer]) = pushedServers hs := by
  have hpushed : ¬ (SocketHandler.create csock buffer).pushed = true := by
    simp [SocketHandler.create, SocketHandler.pushed]
  rw [pushedServers, List.filter_append, List.filter_cons_of_neg hpushed, List.filter_nil,
    List.append_nil]
  rfl

theorem quitters_create (hs : List SocketHandler) (csock : ℤ) (buffer : Buffer bufSize) :
    quitters (hs ++ [.create csock buffer]) = quitters hs := by
  have hexit : ¬ (SocketHandler.create csock buffer).isExit = true := by
    simp [SocketHandler.create]
  rw [quitters, List.countP_append, List.countP_cons_of_neg hexit, List.countP_nil]
  rfl

theorem inv_accept {s : State} (hi : Inv s) {csock : ℤ} {out : Bytes} (hmain : s.main = .accept)
    (hnew : csock ∉ s.opened) :
    Inv { s with
      globals := { s.globals with out := out }
      main := .count csock
      opened := s.opened ++ [csock] } := by
  have heq := hi.opened_eq
  have hcount := hi.count
  rw [hmain] at heq hcount
  refine ⟨?_, ?_, hi.queue, hcount, hi.handlers⟩
  · refine List.nodup_append.mpr ⟨hi.opened_nodup, List.nodup_singleton _, ?_⟩
    intro x hx y hy hxy
    rw [List.mem_singleton.mp hy] at hxy
    exact hnew (hxy ▸ hx)
  · dsimp only
    rw [heq, MainPc.pending, List.append_nil]
    rfl

theorem inv_create {s : State} (hi : Inv s) {csock : ℤ} {buffer : Buffer bufSize}
    (hmain : s.main = .create csock) :
    Inv { s with
      main := .accept
      handlers := s.handlers ++ [.create csock buffer] } := by
  have heq := hi.opened_eq
  have hcount := hi.count
  rw [hmain] at heq hcount
  refine ⟨hi.opened_nodup, ?_, ?_, ?_, ?_⟩
  · dsimp only
    rw [heq, List.map_append, MainPc.pending, MainPc.pending, List.append_nil]
    rfl
  · dsimp only
    rw [pushedServers_create]
    exact hi.queue
  · simp only [quitters_create, List.length_append, List.length_singleton, MainPc.counted]
      at hcount ⊢
    push_cast
    omega
  · intro h hh
    rcases List.mem_append.mp hh with hh | hh
    · exact hi.handlers h hh
    · rw [List.mem_singleton.mp hh]
      exact ⟨rfl, by simp [SocketHandler.create], by simp [SocketHandler.create]⟩

theorem inv_step {s t : State} {a : Action} (hi : Inv s) (hs : server.step s a = some t) :
    Inv t := by
  cases step_move hs with
  | accept csock sin_port out hmain hnew => exact inv_accept hi hmain hnew
  | acceptFailed => exact hi
  | count csock hmain =>
    have heq := hi.opened_eq
    have hcount := hi.count
    rw [hmain] at heq hcount
    refine ⟨hi.opened_nodup, heq, hi.queue, ?_, hi.handlers⟩
    simp only [MainPc.counted] at hcount ⊢
    omega
  | create csock buffer hmain => exact inv_create hi hmain
  | recv k r h hk hpc =>
    have hok := hi.handlers h (List.mem_of_getElem? hk)
    refine inv_local hi hk rfl (by simp [SocketHandler.pushed, hpc]) rfl ?_
    refine ⟨?_, by simp, by simp⟩
    rw [hok.exit, hpc]
    rfl
  | run k h h' g' hk he => exact inv_effect hi hk he
  | console input out exited =>
    exact ⟨hi.opened_nodup, hi.opened_eq, hi.queue, hi.count, hi.handlers⟩

/-- **The invariant of the chat server**: it holds in every state of every run. -/
theorem always_inv (as : List Action) : server.Always Inv as :=
  System.always_of_step inv_init (fun _ _ _ => inv_step) as

theorem inv_of_exec {as : List Action} {s : State} (h : server.exec server.init as = some s) :
    Inv s :=
  (always_inv as).last h

/-! ### Reading the invariant -/

section Read

variable {s : State}

theorem Inv.servers_nodup (hi : Inv s) : (s.handlers.map SocketHandler.server).Nodup := by
  have := hi.opened_nodup
  rw [hi.opened_eq] at this
  exact this.of_append_left

/-- Handlers are told apart by their descriptors. -/
theorem Inv.server_inj (hi : Inv s) {h h' : SocketHandler} (hh : h ∈ s.handlers)
    (hh' : h' ∈ s.handlers) (heq : h.server = h'.server) : h = h' :=
  List.inj_on_of_nodup_map hi.servers_nodup hh hh' heq

theorem Inv.mem_queue (hi : Inv s) (fd : ℤ) : fd ∈ s.globals.group_queue ↔
    ∃ h ∈ s.handlers, h.server = fd ∧ h.pushed = true := by
  rw [hi.queue.mem_iff, pushedServers, List.mem_map]
  constructor
  · rintro ⟨h, hh, hfd⟩
    obtain ⟨hh, hp⟩ := List.mem_filter.mp hh
    exact ⟨h, hh, hfd, hp⟩
  · rintro ⟨h, hh, hfd, hp⟩
    exact ⟨h, List.mem_filter.mpr ⟨hh, hp⟩, hfd⟩

end Read

end Fssn.Tcp.ChatServer
