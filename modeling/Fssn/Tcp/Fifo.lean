import Fssn.Lib.Pipes
import Fssn.Tcp.Broadcast

/-!
# Fssn.Tcp.Fifo — what a client of the TCP chat server is sent

A handler relays the frames that it receives one after the other, each to the whole of `group_queue`.
Seen from one descriptor in `group_queue`, a handler is a queue of at most one frame: `owed` is the
frame that it has received and has not yet sent to that descriptor.  `chat_fifo`: from the time a
descriptor is in `group_queue`, each handler sends it what the handler receives, `quit` apart, in
order, nothing twice and nothing left out, whatever the other threads do; and before that, nothing.
-/

namespace Fssn.Tcp.ChatServer

open Fssn.Lib

/-- The frame that a step of the handler `k` takes in to relay it. -/
def relays (k : ℕ) (s : State) (a : Action) : List (Buffer bufSize) :=
  match a, s.handlers[k]? with
  | .recv j r, some h =>
    if j = k ∧ ¬ isQuit (Fssn.recv h.buffer r).bytes then [Fssn.recv h.buffer r] else []
  | _, _ => []

/-- The frame that a step of the handler `k` sends to `fd`. -/
def sendsTo (fd : ℤ) (k : ℕ) (s : State) (a : Action) : List (Buffer bufSize) :=
  Pipes.cameFrom fd (sendsBy k s a)

/-- The frame that a handler has yet to send to the entry `i` of `group_queue`. -/
def SocketHandler.owed (i : ℕ) (h : SocketHandler) : List (Buffer bufSize) :=
  match h.pc with
  | .compare => if isQuit h.buffer.bytes then [] else [h.buffer]
  | .bound => [h.buffer]
  | .sending j last => if j ≤ i ∧ i < last then [h.buffer] else []
  | _ => []

def owedBy (k i : ℕ) (s : State) : List (Buffer bufSize) :=
  match s.handlers[k]? with
  | some h => h.owed i
  | none => []

/-- The handler `k` is between two frames, or is not there. -/
def Resting (k : ℕ) (s : State) : Prop :=
  ∀ h, s.handlers[k]? = some h → h.pc = .pushBack ∨ h.pc = .recv ∨ h.pc = .finished

/-- What the handlers have sent to a descriptor, from any state of the run `as` to any later one. -/
structure FifoLaw (as : List Action) : Prop where
  /-- What was owed and what comes in is what is sent and what is owed then. -/
  conserved : ∀ p mid, p ++ mid <+: as → ∀ s t, server.exec server.init p = some s →
    server.exec s mid = some t → ∀ (k i : ℕ) (fd : ℤ), s.globals.group_queue[i]? = some fd →
      owedBy k i s ++ server.outputs (relays k) s mid =
        server.outputs (sendsTo fd k) s mid ++ owedBy k i t
  /-- A handler that is between two frames has sent all that came in. -/
  settled : ∀ p mid, p ++ mid <+: as → ∀ s t, server.exec server.init p = some s →
    server.exec s mid = some t → ∀ (k : ℕ) (fd : ℤ), fd ∈ s.globals.group_queue → Resting k s →
      Resting k t → server.outputs (sendsTo fd k) s mid = server.outputs (relays k) s mid
  /-- To a descriptor that is not in `group_queue` nothing has been sent. -/
  before : ∀ p, p <+: as → ∀ s, server.exec server.init p = some s → ∀ fd,
    fd ∉ s.globals.group_queue → ∀ k, server.outputs (sendsTo fd k) server.init p = []

variable {s t : State} {a : Action} {k i : ℕ} {fd : ℤ} {h : SocketHandler}

/-! ### One step -/

theorem owedBy_some (hk : s.handlers[k]? = some h) : owedBy k i s = h.owed i := by
  rw [owedBy, hk]

/-- Steps of other threads bring nothing in, send nothing and leave what is owed. -/
theorem owedBy_other (hs : server.step s a = some t) (hrun : a ≠ .run k) (hrecv : ∀ r, a ≠ .recv k r) :
    owedBy k i t = owedBy k i s := by
  have hcreate : ∀ csock buffer, (SocketHandler.create csock buffer).owed i = [] := fun _ _ => rfl
  cases step_move hs with
  | accept => rfl
  | acceptFailed => rfl
  | count => rfl
  | console => rfl
  | create csock buffer hmain =>
    unfold owedBy
    dsimp only
    by_cases hlt : k < s.handlers.length
    · rw [List.getElem?_append_left hlt]
    · rw [List.getElem?_append_right (by omega), List.getElem?_eq_none (by omega : s.handlers.length ≤ k)]
      by_cases hz : k - s.handlers.length = 0
      · rw [hz]
        exact hcreate csock buffer
      · rw [List.getElem?_eq_none (by simp; omega)]
  | recv j r g hj hg =>
    have hkj : k ≠ j := fun heq => hrecv r (by rw [heq])
    unfold owedBy
    dsimp only
    rw [getElem?_set_of_ne hkj]
  | run j g g' _ hj =>
    have hkj : k ≠ j := fun heq => hrun (by rw [heq])
    unfold owedBy
    dsimp only
    rw [getElem?_set_of_ne hkj]

theorem relays_of_ne (ha : ∀ r, a ≠ .recv k r) : relays k s a = [] := by
  unfold relays
  split
  · rename_i j r h hk
    exact if_neg fun hj => ha r (by rw [hj.1])
  · rfl

theorem sendsTo_of_ne (ha : a ≠ .run k) : sendsTo fd k s a = [] := by
  rw [sendsTo, sendsBy_of_ne ha]
  rfl

/-- Taking a frame in. -/
theorem owedBy_recv {r : RecvResult} (hs : server.step s (.recv k r) = some t) :
    owedBy k i s ++ relays k s (.recv k r) = owedBy k i t := by
  cases step_move hs with
  | recv _ _ h hk hpc =>
    have hold : h.owed i = [] := by rw [SocketHandler.owed, hpc]
    have hin : relays k s (.recv k r) = if ¬ isQuit (Fssn.recv h.buffer r).bytes then
        [Fssn.recv h.buffer r] else [] := by simp only [relays, hk, true_and]
    rw [owedBy_some hk, hold, owedBy_some (getElem?_set_of_some hk _), List.nil_append, hin]
    dsimp only [SocketHandler.owed]
    by_cases hq : isQuit (Fssn.recv h.buffer r).bytes = true
    · rw [if_neg (by simp [hq]), if_pos hq]
    · rw [if_pos hq, if_neg hq]

theorem sendsTo_of_pc (hk : s.handlers[k]? = some h) (hpc : ∀ j last, h.pc ≠ .sending j last) :
    sendsTo fd k s (.run k) = [] := by
  have hnone : sendsBy k s (.run k) = [] := by
    simp only [sendsBy, hk, if_true]
  rw [sendsTo, hnone]
  rfl

/-- A turn of the send loop: the entry `i` is sent the frame when its turn comes, and only then. -/
theorem owedBy_sending (hi : Inv s) (hfd : s.globals.group_queue[i]? = some fd) {j last : ℕ}
    (hk : s.handlers[k]? = some h) (hpc : h.pc = .sending j last)
    (hs : server.step s (.run k) = some t) :
    owedBy k i s = sendsTo fd k s (.run k) ++ owedBy k i t := by
  have hold : owedBy k i s = if j ≤ i ∧ i < last then [h.buffer] else [] := by
    rw [owedBy_some hk, SocketHandler.owed, hpc]
  have hexit : h.isExit = false := by
    rw [(hi.handlers h (List.mem_of_getElem? hk)).exit, hpc]
    rfl
  rcases sending_step hs hk hpc with ⟨hlt, fd', hfd', hsend, hk'⟩ | ⟨hge, hsend, -⟩
  · have hnew : owedBy k i t = if j + 1 ≤ i ∧ i < last then [h.buffer] else [] := by
      rw [owedBy_some hk']
      rfl
    rw [hold, hnew, sendsTo, hsend]
    by_cases hij : i = j
    · -- its turn
      subst hij
      obtain rfl := Option.some.inj (hfd.symm.trans hfd')
      rw [if_pos ⟨le_rfl, hlt⟩, if_neg (by omega), List.append_nil, Pipes.cameFrom_self]
    · -- no descriptor is in `group_queue` twice
      have hne : fd' ≠ fd := by
        rintro rfl
        have hlen := (List.getElem?_eq_some_iff.mp hfd).1
        exact hij ((List.getElem?_inj hlen hi.queue_nodup).mp (hfd.trans hfd'.symm))
      rw [Pipes.cameFrom_of_ne hne, List.nil_append]
      by_cases hin : j ≤ i ∧ i < last
      · rw [if_pos hin, if_pos ⟨by omega, hin.2⟩]
      · rw [if_neg hin, if_neg (by omega)]
  · rw [hold, if_neg (by omega), sendsTo, hsend]
    cases step_move hs with
    | run _ g h' g' hg he =>
      obtain rfl := Option.some.inj (hk.symm.trans hg)
      rw [owedBy_some (getElem?_set_of_some hk _)]
      cases he with
      | sent => simp [SocketHandler.owed, hexit, Pipes.cameFrom]
      | send i' last' fd' h1 hlt =>
        obtain ⟨rfl, rfl⟩ := Pc.sending.inj (hpc.symm.trans h1)
        exact absurd hlt hge
      | push h1 => exact absurd (hpc.symm.trans h1) (by simp)
      | quit h1 => exact absurd (hpc.symm.trans h1) (by simp)
      | print h1 => exact absurd (hpc.symm.trans h1) (by simp)
      | bound h1 => exact absurd (hpc.symm.trans h1) (by simp)
      | erase h1 => exact absurd h1 (hi.handlers h (List.mem_of_getElem? hk)).no_erase

/-- A statement of the handler. -/
theorem owedBy_run (hi : Inv s) (hfd : s.globals.group_queue[i]? = some fd)
    (hs : server.step s (.run k) = some t) :
    owedBy k i s = sendsTo fd k s (.run k) ++ owedBy k i t := by
  have hlen := (List.getElem?_eq_some_iff.mp hfd).1
  cases step_move hs with
  | run _ h h' g' hk he =>
    by_cases hsending : ∃ j last, h.pc = .sending j last
    · obtain ⟨j, last, hpc⟩ := hsending
      exact owedBy_sending hi hfd hk hpc hs
    · rw [sendsTo_of_pc hk fun j last hpc => hsending ⟨j, last, hpc⟩, List.nil_append,
        owedBy_some hk, owedBy_some (getElem?_set_of_some hk _)]
      cases he with
      | push hpc => simp [SocketHandler.owed, hpc]
      | quit hpc hq => simp [SocketHandler.owed, hpc, hq]
      | print hpc hq => simp [SocketHandler.owed, hpc, hq]
      | bound hpc => simp [SocketHandler.owed, hpc, hlen]
      | send i last fd hpc => exact absurd ⟨i, last, hpc⟩ hsending
      | sent i last hpc => exact absurd ⟨i, last, hpc⟩ hsending
      | erase hpc => exact absurd hpc (hi.handlers h (List.mem_of_getElem? hk)).no_erase

/-- **What is owed** in any one step. -/
theorem owedBy_step (hi : Inv s) (hfd : s.globals.group_queue[i]? = some fd)
    (hs : server.step s a = some t) :
    owedBy k i s ++ relays k s a = sendsTo fd k s a ++ owedBy k i t := by
  by_cases hrun : a = .run k
  · subst hrun
    rw [relays_of_ne (by simp), List.append_nil]
    exact owedBy_run hi hfd hs
  · rw [sendsTo_of_ne hrun, List.nil_append]
    by_cases hrecv : ∃ r, a = .recv k r
    · obtain ⟨r, rfl⟩ := hrecv
      exact owedBy_recv hs
    · have hno : ∀ r, a ≠ .recv k r := fun r heq => hrecv ⟨r, heq⟩
      rw [relays_of_ne hno, List.append_nil, owedBy_other hs hrun hno]

/-! ### Runs -/

/-- An entry of `group_queue` stays where it is. -/
theorem queue_keeps (hi : Inv s) (hfd : s.globals.group_queue[i]? = some fd)
    (hs : server.step s a = some t) : t.globals.group_queue[i]? = some fd := by
  obtain ⟨r, hr⟩ := queue_grows hi hs
  rw [← hr]
  exact getElem?_append_of_some hfd r

theorem owedBy_exec {mid : List Action} (hi : Inv s) (hfd : s.globals.group_queue[i]? = some fd)
    (ht : server.exec s mid = some t) :
    owedBy k i s ++ server.outputs (relays k) s mid =
      server.outputs (sendsTo fd k) s mid ++ owedBy k i t :=
  System.outputs_conserved (I := fun s => Inv s ∧ s.globals.group_queue[i]? = some fd)
    (fun _ _ _ hs ht => ⟨inv_step hs.1 ht, queue_keeps hs.1 hs.2 ht⟩)
    (fun _ _ _ hs ht => owedBy_step hs.1 hs.2 ht) ⟨hi, hfd⟩ ht

theorem Resting.owedBy (hr : Resting k s) (i : ℕ) : owedBy k i s = [] := by
  cases hk : s.handlers[k]? with
  | none => rw [ChatServer.owedBy, hk]
  | some h =>
    rw [owedBy_some hk]
    rcases hr h hk with hpc | hpc | hpc
    all_goals rw [SocketHandler.owed, hpc]

/-- A frame goes to entries of `group_queue` only. -/
theorem sendsTo_nil (hs : server.step s a = some t) (hfd : fd ∉ s.globals.group_queue) :
    sendsTo fd k s a = [] := by
  by_cases ha : a = .run k
  · subst ha
    cases step_move hs with
    | run _ h h' g' hk he =>
      by_cases hsending : ∃ j last, h.pc = .sending j last
      · obtain ⟨j, last, hpc⟩ := hsending
        rcases sending_step hs hk hpc with ⟨-, fd', hfd', hsend, -⟩ | ⟨-, hsend, -⟩
        · rw [sendsTo, hsend]
          refine Pipes.cameFrom_of_ne ?_ _
          rintro rfl
          exact hfd (List.mem_of_getElem? hfd')
        · rw [sendsTo, hsend]
          rfl
      · exact sendsTo_of_pc hk fun j last hpc => hsending ⟨j, last, hpc⟩
  · exact sendsTo_of_ne ha

theorem sendsTo_before {p : List Action} (hs : server.exec server.init p = some s)
    (hfd : fd ∉ s.globals.group_queue) : server.outputs (sendsTo fd k) server.init p = [] := by
  induction p using List.reverseRecOn generalizing s with
  | nil => rfl
  | append_singleton p a ih =>
    obtain ⟨r, hr, hrs⟩ := System.exec_concat_some hs
    have hold : fd ∉ r.globals.group_queue := fun hmem =>
      hfd ((queue_grows (inv_of_exec hr) hrs).subset hmem)
    rw [System.outputs_concat hr hrs, ih hr hold, sendsTo_nil hrs hold]
    rfl

/-- **First in, first out**, for every handler and every descriptor. -/
theorem chat_fifo (as : List Action) : FifoLaw as where
  conserved _ _ _ _ _ hs ht _ _ _ hfd := owedBy_exec (inv_of_exec hs) hfd ht
  settled p mid _ s t hs ht k fd hfd hrs hrt := by
    obtain ⟨i, hi⟩ := List.mem_iff_getElem?.mp hfd
    have := owedBy_exec (k := k) (inv_of_exec hs) hi ht
    rwa [hrs.owedBy, hrt.owedBy, List.nil_append, List.append_nil, eq_comm] at this
  before _ _ _ hs _ hfd _ := sendsTo_before hs hfd

end Fssn.Tcp.ChatServer
