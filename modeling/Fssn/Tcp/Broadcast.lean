import Fssn.Tcp.Roster

/-!
# Fssn.Tcp.Broadcast — whom a broadcast of the TCP chat server reaches

A handler reads the bound of its send loop once and then indexes `group_queue` between the steps of
all other threads.  `group_queue` only grows, because the loop that erases is never reached, and no
descriptor enters it twice; so `broadcast_reach`: the loop stays in range and sends its frame to the
descriptors that were in `group_queue` when it read its bound, to each once.
-/

namespace Fssn.Tcp.ChatServer

open Fssn.Lib

/-! ### The law -/

/-- The `send` in a step of the handler `k`: the descriptor and the bytes. -/
def sendsBy (k : ℕ) (s : State) (a : Action) : List (ℤ × Buffer bufSize) :=
  match a, s.handlers[k]? with
  | .run j, some h =>
    if j = k then
      match h.pc with
      | .sending i last =>
        if i < last then (s.globals.group_queue[i]?.map fun fd => (fd, h.buffer)).toList else []
      | _ => []
    else []
  | _, _ => []

/-- The next index of every broadcast is below the size of `group_queue`. -/
def InRange (s : State) : Prop :=
  ∀ h ∈ s.handlers, ∀ i last, h.pc = .sending i last → i < last → i < s.globals.group_queue.length

/-- The handler `k` is back at its `recv`, or has returned. -/
def BetweenFrames (k : ℕ) (s : State) : Prop :=
  ∃ h, s.handlers[k]? = some h ∧ (h.pc = .recv ∨ h.pc = .finished)

/-- In `s` the handler `k`, with the variables `h`, is about to read the bound of a broadcast, and
it does not get back to its `recv` before the last of the actions `mid` is taken. -/
structure Broadcast (s : State) (k : ℕ) (h : SocketHandler) (mid : List Action) : Prop where
  thread : s.handlers[k]? = some h
  bound : h.pc = .bound
  underway : ∀ m, m <+: mid → m ≠ mid → ∀ r, server.exec s (.run k :: m) = some r →
    ¬ BetweenFrames k r

/-- `group_queue` has no descriptor twice, the broadcasts index it in range, and each broadcast has
sent its frame to the first so many of the descriptors that were there when it read its bound, to
all of them when the handler is back at its `recv`, in order. -/
structure ReachLaw (as : List Action) : Prop where
  nodup : server.Always (fun s => s.globals.group_queue.Nodup) as
  inRange : server.Always InRange as
  during : ∀ p k mid, p ++ .run k :: mid <+: as → ∀ s h t, server.exec server.init p = some s →
    Broadcast s k h mid → server.exec s (.run k :: mid) = some t →
    ∃ i, server.outputs (sendsBy k) s (.run k :: mid) =
      (s.globals.group_queue.take i).map fun fd => (fd, h.buffer)
  complete : ∀ p k mid, p ++ .run k :: mid <+: as → ∀ s h t, server.exec server.init p = some s →
    Broadcast s k h mid → server.exec s (.run k :: mid) = some t → BetweenFrames k t →
    server.outputs (sendsBy k) s (.run k :: mid) =
      s.globals.group_queue.map fun fd => (fd, h.buffer)

/-! ### What a step leaves -/

variable {s t : State} {a : Action} {k : ℕ} {h : SocketHandler}

/-- `group_queue` only grows at its end. -/
theorem queue_grows (hi : Inv s) (hs : server.step s a = some t) :
    s.globals.group_queue <+: t.globals.group_queue := by
  cases step_move hs with
  | run k h h' g' hk he =>
    cases he with
    | push => exact List.prefix_append _ _
    | erase hpc => exact absurd hpc (hi.handlers h (List.mem_of_getElem? hk)).no_erase
    | quit => exact List.prefix_refl _
    | print => exact List.prefix_refl _
    | bound => exact List.prefix_refl _
    | send => exact List.prefix_refl _
    | sent => exact List.prefix_refl _
  | accept => exact List.prefix_refl _
  | acceptFailed => exact List.prefix_refl _
  | count => exact List.prefix_refl _
  | create => exact List.prefix_refl _
  | recv => exact List.prefix_refl _
  | console => exact List.prefix_refl _

/-- A handler that does not wait in `recv` is changed by its own steps only. -/
theorem handler_of_ne (hs : server.step s a = some t) (hk : s.handlers[k]? = some h)
    (hpc : h.pc ≠ .recv) (ha : a ≠ .run k) : t.handlers[k]? = some h := by
  cases step_move hs with
  | accept => exact hk
  | acceptFailed => exact hk
  | count => exact hk
  | console => exact hk
  | create => exact getElem?_append_of_some hk _
  | recv j r g hj hg =>
    have hkj : k ≠ j := by
      rintro rfl
      exact hpc (Option.some.inj (hk.symm.trans hj) ▸ hg)
    exact (getElem?_set_of_ne hkj _).trans hk
  | run j g g' _ hj =>
    have hkj : k ≠ j := by
      rintro rfl
      exact ha rfl
    exact (getElem?_set_of_ne hkj _).trans hk

theorem sendsBy_of_ne (ha : a ≠ .run k) : sendsBy k s a = [] := by
  unfold sendsBy
  split
  · rename_i j h hk
    rw [if_neg (fun hj => ha (by rw [hj]))]
  · rfl

/-- A step of a handler in the loop of a broadcast: it sends to the next entry, or it has passed
its bound and leaves the loop. -/
theorem sending_step {i last : ℕ} (hs : server.step s (.run k) = some t)
    (hk : s.handlers[k]? = some h) (hpc : h.pc = .sending i last) :
    (i < last ∧ ∃ fd, s.globals.group_queue[i]? = some fd ∧
      sendsBy k s (.run k) = [(fd, h.buffer)] ∧
      t.handlers[k]? = some { h with targets := h.targets ++ [fd], pc := .sending (i + 1) last }) ∨
    (¬ i < last ∧ sendsBy k s (.run k) = [] ∧
      t.handlers[k]? = some { h with pc := if h.isExit then .eraseBound else .recv }) := by
  have hsend : sendsBy k s (.run k) =
      if i < last then (s.globals.group_queue[i]?.map fun fd => (fd, h.buffer)).toList else [] := by
    simp only [sendsBy, hk, hpc, if_true]
  cases step_move hs with
  | run _ g h' g' hg he =>
    obtain rfl := Option.some.inj (hk.symm.trans hg)
    cases he with
    | send i' last' fd hpc' hlt hfd =>
      obtain ⟨rfl, rfl⟩ := Pc.sending.inj (hpc.symm.trans hpc')
      refine Or.inl ⟨hlt, fd, hfd, ?_, getElem?_set_of_some hk _⟩
      rw [hsend, if_pos hlt, hfd]
      rfl
    | sent i' last' hpc' hge =>
      obtain ⟨rfl, rfl⟩ := Pc.sending.inj (hpc.symm.trans hpc')
      exact Or.inr ⟨hge, hsend.trans (if_neg hge), getElem?_set_of_some hk _⟩
    | push h1 => exact absurd (hpc.symm.trans h1) (by simp)
    | quit h1 => exact absurd (hpc.symm.trans h1) (by simp)
    | print h1 => exact absurd (hpc.symm.trans h1) (by simp)
    | bound h1 => exact absurd (hpc.symm.trans h1) (by simp)
    | erase h1 => simp [hpc] at h1

/-! ### In range -/

/-- The bound of every broadcast is at most the size of `group_queue`. -/
def BoundOk (s : State) : Prop :=
  ∀ h ∈ s.handlers, ∀ i last, h.pc = .sending i last → last ≤ s.globals.group_queue.length

theorem boundOk_step (hi : Inv s) (hb : BoundOk s) (hs : server.step s a = some t) : BoundOk t := by
  have hle := (queue_grows hi hs).length_le
  have hold : ∀ h ∈ s.handlers, ∀ i last, h.pc = .sending i last →
      last ≤ t.globals.group_queue.length :=
    fun h hh i last hpc => (hb h hh i last hpc).trans hle
  cases step_move hs with
  | accept => exact hold
  | acceptFailed => exact hold
  | count => exact hold
  | console => exact hold
  | create csock buffer hmain =>
    intro h hh i last hpc
    rcases List.mem_append.mp hh with hh | hh
    · exact hold h hh i last hpc
    · rw [List.mem_singleton.mp hh] at hpc
      exact absurd hpc (by simp [SocketHandler.create])
  | recv k r h hk hpc => exact forall_mem_set hold (by simp) k
  | run k h h' g' hk he =>
    refine forall_mem_set hold ?_ k
    intro i last hpc
    cases he with
    | bound =>
      obtain ⟨-, rfl⟩ := Pc.sending.inj hpc
      exact le_rfl
    | send i' last' fd hpc' =>
      obtain ⟨-, rfl⟩ := Pc.sending.inj hpc
      exact hold h (List.mem_of_getElem? hk) i' last' hpc'
    | sent =>
      revert hpc
      dsimp only
      split <;> simp
    | push => exact absurd hpc (by simp)
    | quit => exact absurd hpc (by simp)
    | print => exact absurd hpc (by simp)
    | erase h1 => exact absurd h1 (hi.handlers h (List.mem_of_getElem? hk)).no_erase

theorem always_boundOk (as : List Action) : server.Always (fun s => Inv s ∧ BoundOk s) as :=
  System.always_of_step ⟨inv_init, fun _ hh => absurd hh List.not_mem_nil⟩
    (fun _ _ _ hs ht => ⟨inv_step hs.1 ht, boundOk_step hs.1 hs.2 ht⟩) as

theorem BoundOk.inRange (hb : BoundOk s) : InRange s :=
  fun h hh i last hpc hlt => hlt.trans_le (hb h hh i last hpc)

theorem Inv.queue_nodup (hi : Inv s) : s.globals.group_queue.Nodup := by
  rw [hi.queue.nodup_iff]
  exact hi.servers_nodup.sublist (List.filter_sublist.map _)

/-! ### One broadcast -/

/-- The broadcast of `h` that began in `s` stands at the index `i` in `t`: the entries before it are
sent, and `group_queue` still begins with the entries that were there. -/
structure Underway (s : State) (k : ℕ) (h : SocketHandler) (mid : List Action) (t : State) (i : ℕ) :
    Prop where
  thread : ∃ g, t.handlers[k]? = some g ∧ g.pc = .sending i s.globals.group_queue.length ∧
    g.buffer = h.buffer ∧ g.isExit = false
  le : i ≤ s.globals.group_queue.length
  queue : s.globals.group_queue <+: t.globals.group_queue
  sent : server.outputs (sendsBy k) s (.run k :: mid) =
    (s.globals.group_queue.take i).map fun fd => (fd, h.buffer)

/-- Reading the bound. -/
theorem underway_bound (hi : Inv s) (hk : s.handlers[k]? = some h) (hpc : h.pc = .bound)
    (ht : server.step s (.run k) = some t) : Underway s k h [] t 0 := by
  have hexit : h.isExit = false := by
    rw [(hi.handlers h (List.mem_of_getElem? hk)).exit, hpc]
    rfl
  have hsend : sendsBy k s (.run k) = [] := by simp only [sendsBy, hk, hpc, if_true]
  have hout : server.outputs (sendsBy k) s [.run k] = [] := by
    simp only [System.outputs, ht, hsend, List.append_nil]
  cases step_move ht with
  | run _ g h' g' hg he =>
    obtain rfl := Option.some.inj (hk.symm.trans hg)
    cases he with
    | bound =>
      exact ⟨⟨_, getElem?_set_of_some hk _, rfl, rfl, hexit⟩, Nat.zero_le _, List.prefix_refl _, hout⟩
    | push h1 => exact absurd (hpc.symm.trans h1) (by simp)
    | quit h1 => exact absurd (hpc.symm.trans h1) (by simp)
    | print h1 => exact absurd (hpc.symm.trans h1) (by simp)
    | send _ _ _ h1 => exact absurd (hpc.symm.trans h1) (by simp)
    | sent _ _ h1 => exact absurd (hpc.symm.trans h1) (by simp)
    | erase h1 => simp [hpc] at h1

/-- A step of the process while a broadcast is underway: it stays so, or it was the last one of the
broadcast. -/
theorem underway_step {r : State} {mid : List Action} {i : ℕ} (hr : Inv r)
    (hu : Underway s k h mid r i) (hexec : server.exec s (.run k :: mid) = some r)
    (ht : server.step r a = some t) : (∃ j, Underway s k h (mid ++ [a]) t j) ∨
      BetweenFrames k t ∧ server.outputs (sendsBy k) s (.run k :: (mid ++ [a])) =
        s.globals.group_queue.map fun fd => (fd, h.buffer) := by
  obtain ⟨⟨g, hg, hpc, hbuf, hexit⟩, hle, hqueue, hsent⟩ := hu
  have hqueue' := hqueue.trans (queue_grows hr ht)
  have hout : server.outputs (sendsBy k) s (.run k :: (mid ++ [a])) =
      ((s.globals.group_queue.take i).map fun fd => (fd, h.buffer)) ++ sendsBy k r a := by
    rw [← List.cons_append, System.outputs_concat hexec ht, hsent]
  by_cases ha : a = .run k
  · subst ha
    rcases sending_step ht hg hpc with ⟨hlt, fd, hfd, hsend, hg'⟩ | ⟨hge, hsend, hg'⟩
    · refine Or.inl ⟨i + 1, ⟨_, hg', rfl, hbuf, hexit⟩, hlt, hqueue', ?_⟩
      -- the entry at `i` is the one that was there when the bound was read
      have hfd' : s.globals.group_queue[i]? = some fd := by
        rw [← hfd]
        exact (List.prefix_iff_getElem?.mp hqueue i hlt).symm ▸ (List.getElem?_eq_getElem hlt)
      rw [hout, hsend, List.take_add_one, hfd', List.map_append, hbuf]
      rfl
    · refine Or.inr ⟨⟨_, hg', Or.inl (by rw [hexit]; rfl)⟩, ?_⟩
      rw [hout, hsend, List.append_nil, List.take_of_length_le (Nat.le_of_not_lt hge)]
  · refine Or.inl ⟨i, ⟨g, handler_of_ne ht hg (by simp [hpc]) ha, hpc, hbuf, hexit⟩, hle, hqueue', ?_⟩
    rw [hout, sendsBy_of_ne ha, List.append_nil]

/-- Where a broadcast stands after the actions `mid`: it is underway, or the handler has just got back
to its `recv`. -/
theorem broadcast_run (hi : Inv s) {mid : List Action} (hb : Broadcast s k h mid)
    (ht : server.exec s (.run k :: mid) = some t) :
    (∃ i, Underway s k h mid t i) ∨ BetweenFrames k t ∧
      server.outputs (sendsBy k) s (.run k :: mid) =
        s.globals.group_queue.map fun fd => (fd, h.buffer) := by
  induction mid using List.reverseRecOn generalizing t with
  | nil =>
    obtain ⟨r, hr, ht⟩ := Option.bind_eq_some_iff.mp ht
    obtain rfl := Option.some.inj ht
    exact Or.inl ⟨0, underway_bound hi hb.thread hb.bound hr⟩
  | append_singleton mid a ih =>
    rw [← List.cons_append] at ht
    obtain ⟨r, hr, hat⟩ := System.exec_concat_some ht
    have hb' : Broadcast s k h mid := by
      refine ⟨hb.thread, hb.bound, fun m hm hne => ?_⟩
      refine hb.underway m (hm.trans (List.prefix_append _ _)) fun heq => hne ?_
      exact absurd hm.length_le (by rw [heq]; simp)
    rcases ih hb' hr with ⟨i, hu⟩ | ⟨hrest, -⟩
    · exact underway_step (System.exec_preserves (fun _ _ _ => inv_step) hi hr) hu hr hat
    · exact absurd hrest (hb.underway mid (List.prefix_append _ _) (by simp) r hr)

/-- When the handler is back at its `recv`, its broadcast has reached all. -/
theorem broadcast_complete (hi : Inv s) {mid : List Action} (hb : Broadcast s k h mid)
    (ht : server.exec s (.run k :: mid) = some t) (hrest : BetweenFrames k t) :
    server.outputs (sendsBy k) s (.run k :: mid) =
      s.globals.group_queue.map fun fd => (fd, h.buffer) := by
  rcases broadcast_run hi hb ht with ⟨i, ⟨g, hg, hpc, -⟩, -⟩ | ⟨-, hout⟩
  · obtain ⟨g', hg', hrest⟩ := hrest
    obtain rfl := Option.some.inj (hg.symm.trans hg')
    rcases hrest with h1 | h1 <;> exact absurd (hpc.symm.trans h1) (by simp)
  · exact hout

/-- **Reach of a broadcast.** -/
theorem broadcast_reach (as : List Action) : ReachLaw as where
  nodup := (always_inv as).imp fun _ => Inv.queue_nodup
  inRange := (always_boundOk as).imp fun _ hs => hs.2.inRange
  during p k mid _ s h t hs hb ht := by
    rcases broadcast_run (inv_of_exec hs) hb ht with ⟨i, hu⟩ | ⟨-, hout⟩
    · exact ⟨i, hu.sent⟩
    · exact ⟨_, hout.trans (by rw [List.take_length])⟩
  complete _ _ _ _ _ _ _ hs hb ht hrest := broadcast_complete (inv_of_exec hs) hb ht hrest

end Fssn.Tcp.ChatServer
