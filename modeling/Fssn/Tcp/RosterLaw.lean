import Fssn.Tcp.Broadcast

/-!
# Fssn.Tcp.RosterLaw — when group_queue is the roster of the TCP chat server

`group_queue` is to hold the clients that have not quit, and a broadcast is to have as many sends as
`threadNum`, which the handler prints for it, says.  Nobody is ever erased, so the first fails as soon
as a handler processes a `quit`; and a handler prints `threadNum` before it reads the bound of its
broadcast, so the second fails when a client joins between the two.  `roster_iff`: in all other runs
both hold.
-/

namespace Fssn.Tcp.ChatServer

open Fssn.Lib

/-! ### The law -/

/-- `group_queue` holds exactly the descriptors of the handlers that have executed their `push_back`
and have not processed a `quit`, each once. -/
def RosterExact (s : State) : Prop :=
  s.globals.group_queue.Nodup ∧ ∀ fd, fd ∈ s.globals.group_queue ↔
    ∃ h ∈ s.handlers, h.server = fd ∧ h.pushed = true ∧ h.isExit = false

/-- No broadcast is at a send to a client that has quit. -/
def NoSendToQuitter (s : State) : Prop :=
  ∀ h ∈ s.handlers, ∀ i last, h.pc = .sending i last → i < last →
    ∀ fd, s.globals.group_queue[i]? = some fd → ∀ h' ∈ s.handlers, h'.server = fd → h'.isExit = false

/-- A broadcast that has left its loop's turn `i` behind has sent `i` times. -/
def SendsPerTurn (s : State) : Prop :=
  ∀ h ∈ s.handlers, ∀ i last, h.pc = .sending i last → h.targets.length = i ∧ i ≤ last

/-- Every accepted client's handler has executed its `push_back`. -/
def AllPushed (s : State) : Prop :=
  ∀ fd ∈ s.opened, ∃ h ∈ s.handlers, h.server = fd ∧ h.pushed = true

/-- The handler `k` is about to print `threadNum` for a broadcast. -/
def Prints (s : State) (k : ℕ) : Prop :=
  ∃ h, s.handlers[k]? = some h ∧ h.pc = .compare ∧ isQuit h.buffer.bytes = false

/-- After the actions `p` the handler `k` prints, in `s`, the `threadNum` of a broadcast, and after the
actions `mid` it is about to read the bound of this broadcast, in `t`.  In both states every accepted
client's handler has executed its `push_back`. -/
structure PrintToBound (p : List Action) (k : ℕ) (mid : List Action) (s t : State) : Prop where
  start : server.exec server.init p = some s
  prints : Prints s k
  pushed : AllPushed s
  waits : .run k ∉ mid
  exec : server.exec s (.run k :: mid) = some t
  pushed_bound : AllPushed t

/-- In the run `as`, the bounds of broadcasts are the numbers printed. -/
def BoundsMatch (as : List Action) : Prop :=
  ∀ p k mid s t, p ++ .run k :: mid ++ [.run k] <+: as → PrintToBound p k mid s t →
    (t.globals.group_queue.length : ℤ) = s.globals.threadNum

/-- In the run `as`, a broadcast has as many sends as the number printed says when its handler is back
at its `recv`. -/
def SendsMatch (as : List Action) : Prop :=
  ∀ p k mid rest s r t h, p ++ .run k :: mid ++ .run k :: rest <+: as → PrintToBound p k mid s r →
    Broadcast r k h rest → server.exec r (.run k :: rest) = some t → BetweenFrames k t →
      ((server.outputs (sendsBy k) r (.run k :: rest)).length : ℤ) = s.globals.threadNum

/-- The roster is right in every state of the run `as`, no broadcast in it is sent to a client that
has quit, and broadcasts have as many sends as clients they print. -/
structure RosterLaw (as : List Action) : Prop where
  roster : server.Always RosterExact as
  sends : server.Always NoSendToQuitter as
  turns : server.Always SendsPerTurn as
  bounds : BoundsMatch as
  counts : SendsMatch as

/-- No step of the run `as` processes a `quit`. -/
def QuitFree (as : List Action) : Prop :=
  ∀ p k, p ++ [.run k] <+: as → ∀ s t, server.exec server.init p = some s →
    server.step s (.run k) = some t → ∀ h, s.handlers[k]? = some h → h.pc = .compare →
      isQuit h.buffer.bytes = false

/-- The client that an action accepts. -/
def Action.accepted : Action → Option ℤ
  | .accept csock _ => some csock
  | _ => none

/-- In the run `as`, no client is accepted between a handler's `threadNum` and the bound of its
broadcast. -/
def NoJoinBetween (as : List Action) : Prop :=
  ∀ p k mid s t, p ++ .run k :: mid ++ [.run k] <+: as → PrintToBound p k mid s t →
    mid.filterMap Action.accepted = []

/-! ### Reading the law off the invariant -/

section Read

variable {s t : State}

/-- No handler has processed a `quit`. -/
def NoneQuit (s : State) : Prop := ∀ h ∈ s.handlers, h.isExit = false

/-- The roster is right exactly as long as nobody has quit. -/
theorem Inv.rosterExact_iff (hi : Inv s) : RosterExact s ↔ NoneQuit s := by
  constructor
  · rintro ⟨-, hmem⟩ h hh
    by_contra hexit
    rw [Bool.not_eq_false] at hexit
    have hok := hi.handlers h hh
    have hpc : h.pc = .finished := of_decide_eq_true (hok.exit ▸ hexit)
    have hp : h.pushed = true := by simp [SocketHandler.pushed, hpc]
    -- its descriptor was never erased
    obtain ⟨h', hh', hfd, -, hno⟩ := (hmem h.server).mp ((hi.mem_queue _).mpr ⟨h, hh, rfl, hp⟩)
    rw [hi.server_inj hh' hh hfd, hexit] at hno
    exact absurd hno (by simp)
  · intro hnone
    refine ⟨?_, fun fd => ?_⟩
    · rw [hi.queue.nodup_iff]
      exact hi.servers_nodup.sublist (List.filter_sublist.map _)
    · rw [hi.mem_queue]
      constructor
      · rintro ⟨h, hh, hfd, hp⟩
        exact ⟨h, hh, hfd, hp, hnone h hh⟩
      · rintro ⟨h, hh, hfd, hp, -⟩
        exact ⟨h, hh, hfd, hp⟩

theorem Inv.sendsPerTurn (hi : Inv s) : SendsPerTurn s :=
  fun h hh i last hpc => (hi.handlers h hh).turns i last hpc

theorem NoneQuit.noSendToQuitter (hn : NoneQuit s) : NoSendToQuitter s :=
  fun _ _ _ _ _ _ _ _ h' hh' _ => hn h' hh'

/-- When all accepted clients' handlers have pushed, `main` has no client at hand. -/
theorem Inv.pending_eq_nil (hi : Inv s) (hall : AllPushed s) : s.main.pending = [] := by
  rw [List.eq_nil_iff_forall_not_mem]
  intro fd hfd
  have hnodup := hi.opened_nodup
  have hmem : fd ∈ s.opened := by
    rw [hi.opened_eq]
    exact List.mem_append_right _ hfd
  obtain ⟨h, hh, hserver, -⟩ := hall fd hmem
  rw [hi.opened_eq] at hnodup
  exact (List.nodup_append.mp hnodup).2.2 fd (List.mem_map.mpr ⟨h, hh, hserver⟩) fd hfd rfl

theorem Inv.forall_pushed (hi : Inv s) (hall : AllPushed s) :
    ∀ h ∈ s.handlers, h.pushed = true := by
  intro h hh
  have hmem : h.server ∈ s.opened := by
    rw [hi.opened_eq]
    exact List.mem_append_left _ (List.mem_map_of_mem hh)
  obtain ⟨h', hh', hserver, hp⟩ := hall _ hmem
  rwa [hi.server_inj hh' hh hserver] at hp

theorem Inv.length_queue (hi : Inv s) (hall : AllPushed s) :
    s.globals.group_queue.length = s.handlers.length := by
  rw [hi.queue.length_eq, pushedServers, List.filter_eq_self.mpr (hi.forall_pushed hall),
    List.length_map]

theorem Inv.threadNum_eq (hi : Inv s) (hall : AllPushed s) (hn : NoneQuit s) :
    s.globals.threadNum = s.handlers.length := by
  have hcount := hi.count
  have hquit : quitters s.handlers = 0 :=
    List.countP_eq_zero.mpr fun h hh => by simp [hn h hh]
  have hmain : s.main.counted = 0 := by
    have hpend := hi.pending_eq_nil hall
    cases hm : s.main with
    | accept => rfl
    | count csock => rfl
    | create csock => rw [hm] at hpend; exact absurd hpend (by simp [MainPc.pending])
  rw [hquit, hmain] at hcount
  simpa using hcount

theorem Inv.length_opened (hi : Inv s) (hall : AllPushed s) : s.opened.length = s.handlers.length := by
  rw [hi.opened_eq, hi.pending_eq_nil hall, List.append_nil, List.length_map]

theorem opened_step {a : Action} (hs : server.step s a = some t) :
    t.opened = s.opened ++ [a].filterMap Action.accepted := by
  cases step_move hs with
  | accept => rfl
  | _ => exact (List.append_nil _).symm

/-- The descriptors that are open are those that were, and those of the clients accepted since. -/
theorem opened_exec {as : List Action} (hexec : server.exec s as = some t) :
    t.opened = s.opened ++ as.filterMap Action.accepted := by
  induction as generalizing s with
  | nil =>
    obtain rfl := Option.some.inj hexec
    exact (List.append_nil _).symm
  | cons a as ih =>
    obtain ⟨r, hr, hexec⟩ := Option.bind_eq_some_iff.mp hexec
    rw [ih hexec, opened_step hr, List.append_assoc, ← List.filterMap_append]
    rfl

end Read

/-! ### Runs without a quit -/

section Runs

variable {s t : State} {as : List Action}

theorem noneQuit_step {a : Action} (hi : Inv s) (hn : NoneQuit s) (hs : server.step s a = some t)
    (hq : ∀ k h, a = .run k → s.handlers[k]? = some h → h.pc = .compare →
      isQuit h.buffer.bytes = false) : NoneQuit t := by
  cases step_move hs with
  | accept => exact hn
  | acceptFailed => exact hn
  | count => exact hn
  | console => exact hn
  | create csock buffer hmain =>
    intro h hh
    rcases List.mem_append.mp hh with hh | hh
    · exact hn h hh
    · rw [List.mem_singleton.mp hh]
      rfl
  | recv k r h hk hpc =>
    refine forall_mem_set hn ?_ k
    exact hn h (List.mem_of_getElem? hk)
  | run k h h' g' hk he =>
    have hexit := hn h (List.mem_of_getElem? hk)
    refine forall_mem_set hn ?_ k
    cases he with
    | quit hpc hquit => exact absurd hquit (by simp [hq k h rfl hk hpc])
    | erase hpc => exact absurd hpc (hi.handlers h (List.mem_of_getElem? hk)).no_erase
    | push => exact hexit
    | print => exact hexit
    | bound => exact hexit
    | send => exact hexit
    | sent => exact hexit

theorem QuitFree.of_prefix {bs : List Action} (h : QuitFree bs) (hp : as <+: bs) : QuitFree as :=
  fun p k hpk => h p k (hpk.trans hp)

theorem noneQuit_of_quitFree (hq : QuitFree as) (hs : server.exec server.init as = some s) :
    NoneQuit s := by
  refine System.exec_induction (T := server) (P := fun as s => QuitFree as → NoneQuit s) ?_ ?_ hs hq
  · exact fun _ h hh => absurd hh List.not_mem_nil
  · intro as r a t hr ih ht hq
    refine noneQuit_step (inv_of_exec hr) (ih (hq.of_prefix (List.prefix_append as [a]))) ht ?_
    rintro k h rfl hk hpc
    exact hq as k (List.prefix_refl _) r t hr ht h hk hpc

/-- A step that processes a `quit` leaves a handler that has quit. -/
theorem not_noneQuit_of_quit {k : ℕ} {h : SocketHandler} (hs : server.step s (.run k) = some t)
    (hk : s.handlers[k]? = some h) (hpc : h.pc = .compare) (hq : isQuit h.buffer.bytes = true) :
    ¬ NoneQuit t := by
  intro hn
  cases step_move hs with
  | run _ g h' g' hg he =>
    obtain rfl := Option.some.inj (hk.symm.trans hg)
    have hexit : h'.isExit = false := hn h' (mem_set_self hg)
    cases he with
    | quit => exact absurd hexit (by simp)
    | print _ hno => exact absurd hno (by simp [hq])
    | push h1 => exact absurd (hpc.symm.trans h1) (by simp)
    | bound h1 => exact absurd (hpc.symm.trans h1) (by simp)
    | send _ _ _ h1 => exact absurd (hpc.symm.trans h1) (by simp)
    | sent _ _ h1 => exact absurd (hpc.symm.trans h1) (by simp)
    | erase h1 => simp [hpc] at h1

/-- In a run without a `quit`, the bound of a broadcast is the number printed and the clients accepted
since. -/
theorem PrintToBound.bound_eq {p mid : List Action} {k : ℕ} (h : PrintToBound p k mid s t)
    (hq : QuitFree p) : (t.globals.group_queue.length : ℤ) =
      s.globals.threadNum + (mid.filterMap Action.accepted).length := by
  have hi := inv_of_exec h.start
  have hti : Inv t := System.exec_preserves (fun _ _ _ => inv_step) hi h.exec
  have hopened := congrArg List.length (opened_exec h.exec)
  rw [List.length_append, List.filterMap_cons_none rfl] at hopened
  rw [hti.length_queue h.pushed_bound, ← hti.length_opened h.pushed_bound, hopened,
    hi.length_opened h.pushed, hi.threadNum_eq h.pushed (noneQuit_of_quitFree hq h.start)]
  push_cast
  rfl

/-- In a run without a `quit`, the bounds match exactly if nobody joins in between. -/
theorem boundsMatch_iff (hq : QuitFree as) : BoundsMatch as ↔ NoJoinBetween as := by
  have hquit : ∀ {p mid : List Action} {k : ℕ}, p ++ .run k :: mid ++ [.run k] <+: as → QuitFree p :=
    fun hpre => hq.of_prefix ((List.prefix_append _ _).trans ((List.prefix_append _ _).trans hpre))
  constructor
  · intro hbounds p k mid s t hpre h
    have heq := h.bound_eq (hquit hpre)
    rw [hbounds p k mid s t hpre h] at heq
    exact List.length_eq_zero_iff.mp (by omega)
  · intro hjoin p k mid s t hpre h
    rw [h.bound_eq (hquit hpre), hjoin p k mid s t hpre h]
    exact Int.add_zero _

/-- A broadcast that is complete has as many sends as its bound says. -/
theorem sendsMatch_of_boundsMatch (hbounds : BoundsMatch as) : SendsMatch as := by
  intro p k mid rest s r t h hpre hprint hb ht hrest
  have hri : Inv r :=
    System.exec_preserves (fun _ _ _ => inv_step) (inv_of_exec hprint.start) hprint.exec
  have hbound : p ++ .run k :: mid ++ [.run k] <+: as := by
    refine List.IsPrefix.trans ?_ hpre
    exact (List.prefix_append_right_inj _).mpr (List.cons_prefix_cons.mpr ⟨rfl, List.nil_prefix⟩)
  rw [broadcast_complete hri hb ht hrest, List.length_map]
  exact hbounds p k mid s r hbound hprint

theorem rosterLaw_of_quitFree (hq : QuitFree as) (hjoin : NoJoinBetween as) : RosterLaw as where
  roster _ hpre _ hs :=
    (inv_of_exec hs).rosterExact_iff.mpr (noneQuit_of_quitFree (hq.of_prefix hpre) hs)
  sends _ hpre _ hs := (noneQuit_of_quitFree (hq.of_prefix hpre) hs).noSendToQuitter
  turns := (always_inv as).imp fun _ => Inv.sendsPerTurn
  bounds := (boundsMatch_iff hq).mpr hjoin
  counts := sendsMatch_of_boundsMatch ((boundsMatch_iff hq).mpr hjoin)

theorem quitFree_of_rosterLaw (hlaw : RosterLaw as) : QuitFree as := by
  intro p k hpre s t hs ht h hk hpc
  by_contra hquit
  have hexec : server.exec server.init (p ++ [.run k]) = some t := by
    rw [System.exec_concat, hs]
    exact ht
  refine not_noneQuit_of_quit ht hk hpc (Bool.not_eq_false _ ▸ hquit) ?_
  exact (inv_of_exec hexec).rosterExact_iff.mp (hlaw.roster _ hpre t hexec)

end Runs

/-- **The roster law holds in exactly the runs in which no handler processes a `quit`, and in which no
client joins between the `threadNum` and the bound of a broadcast.** -/
theorem roster_iff (as : List Action) : RosterLaw as ↔ QuitFree as ∧ NoJoinBetween as := by
  constructor
  · intro hlaw
    have hq := quitFree_of_rosterLaw hlaw
    exact ⟨hq, (boundsMatch_iff hq).mp hlaw.bounds⟩
  · exact fun h => rosterLaw_of_quitFree h.1 h.2

/-- A handler prints 1, another client joins, and then the bound of the broadcast is 2. -/
def joinBetween : List Action :=
  [.accept 4 0, .count, .create (.const bufSize 0), .run 0, .recv 0 (.data (ascii "hi")), .run 0,
    .accept 5 0, .count, .create (.const bufSize 0), .run 1, .run 0]

example : ((server.exec server.init joinBetween).bind fun s => s.handlers[0]?).map
    (fun h => (h.echoed, h.pc)) = some (1, .sending 0 2) := rfl

/-- One client joins and sends `quit`. -/
def joinAndQuit : List Action :=
  [.accept 4 0, .count, .create (.const bufSize 0), .run 0, .recv 0 (.data (ascii "quit")), .run 0]

/-- After one client has quit, `group_queue` still holds it. -/
theorem not_always_rosterLaw : ¬ ∀ as, RosterLaw as := by
  intro h
  have hfree := quitFree_of_rosterLaw (h joinAndQuit)
  exact absurd (hfree (joinAndQuit.take 5) 0 (List.prefix_refl _) _ _ rfl rfl _ rfl rfl) (by decide)

end Fssn.Tcp.ChatServer
