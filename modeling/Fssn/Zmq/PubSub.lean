import Fssn.Lib.Feed
import Fssn.Zmq.PushClient
import Fssn.Zmq.Relay

/-!
# Fssn.Zmq.PubSub — clients and relay together

The clients that subscribe and push (`lec-05-prg-06`, `lec-05-prg-08`, and the users of the p2p chat)
around one relay loop: what a client pushes goes through its pipe to the relay, what the relay publishes
goes to the queue of every client whose subscription has arrived and whose queue has room, and a client
polls its queue.  The loops are those of `PushClient` and `Relay`, one pass and one statement a step.

`pubSub_delivery`: all clients read one list, in which what each of them has pushed stands in its order.
`carried_on`: from wherever a run stands, what a client has pushed can still be published and shown.
-/

namespace Fssn.Zmq.PubSub

open Fssn.Lib
open PushClient (World Turn Status)

/-! ### The loops of the clients -/

/-- What a pass of a client's loop does: it shows a message, sends a status, or announces one that the
socket has refused. -/
inductive Event
  | received (message line : Bytes)
  | sent (s : Status)
  | refused (s : Status)

def Event.line : Event → Bytes
  | .received _ line => line
  | .sent s => s.line
  | .refused s => s.line

def Event.received? : Event → Option Bytes
  | .received message _ => some message
  | _ => none

def Event.pushed? : Event → Option Bytes
  | .sent s => some s.message
  | _ => none

def Event.announced? : Event → Option Bytes
  | .received _ _ => none
  | .sent s => some s.line
  | .refused s => some s.line

/-- The world of a client after an event. -/
def record (w : World) (e : Event) : World :=
  match e with
  | .received _ line => { w with out := w.out ++ line }
  | .sent s => ⟨w.queued ++ [s.message], w.announced ++ [s.line], w.out ++ s.line⟩
  | .refused s => ⟨w.queued, w.announced ++ [s.line], w.out ++ s.line⟩

/-- `zmq::poll` on the one socket: nothing arrived in time, or a message is there. -/
def Silent (t : Turn) : Prop := t.rc = 0 ∧ t.revents = 0

def Readable (t : Turn) : Prop := t.rc = 1 ∧ t.revents = 1

instance (t : Turn) : Decidable (Silent t) := inferInstanceAs (Decidable (_ ∧ _))

instance (t : Turn) : Decidable (Readable t) := inferInstanceAs (Decidable (_ ∧ _))

/-- A loop: what it prints for a message, the statuses it sends, whether a send may be refused, and its
pass, which does nothing else. -/
structure Loop where
  onMessage : Bytes → Option Bytes
  picks : Status → Prop
  nonblocking : Bool
  pass : World → Turn → Option World
  silent : ∀ w w' t, Silent t → pass w t = some w' →
    w' = w ∨ ∃ s, picks s ∧
      (w' = record w (.sent s) ∨ nonblocking = true ∧ w' = record w (.refused s))
  readable : ∀ w t m, Readable t → t.message = some m →
    pass w t = (onMessage m).map fun line => record w (.received m line)

/-- An event of a loop. -/
def Loop.Allows (L : Loop) : Event → Prop
  | .received message line => L.onMessage message = some line
  | .sent s => L.picks s
  | .refused s => L.picks s ∧ L.nonblocking = true

/-! ### The system -/

structure State (ι : Type*) where
  relay : Relay.State ι
  feed : Feed ι Bytes
  clients : ι → World

/-- A subscription arrives at the publisher, a client makes a pass, the relay receives from a client or
executes another statement; `room` says which queues take a message. -/
inductive Action (ι : Type*)
  | subscribe (c : ι)
  | pass (c : ι) (t : Turn)
  | recv (i : ι)
  | run (fresh : Bytes) (room : ι → Bool)

/-- What was appended to a list. -/
def added {α : Type*} (old new : List α) : List α := new.drop old.length

variable {ι : Type*} [DecidableEq ι]

/-- What a client has given to its PUSH socket in a pass goes into its pipe. -/
def State.after (s : State ι) (c : ι) (w : World) : State ι :=
  { s with
    relay := { s.relay with
      pipes := s.relay.pipes.pushAll c (added (s.clients c).queued w.queued) }
    clients := Function.update s.clients c w }

def step (p : Relay.Program) (loops : ι → Loop) (s : State ι) (a : Action ι) : Option (State ι) :=
  match a with
  | .subscribe c => some { s with feed := s.feed.subscribe c s.relay.published.length }
  | .pass c t =>
    if Silent t then ((loops c).pass (s.clients c) t).map (s.after c)
    else if Readable t then
      (s.feed.take c).bind fun r =>
        if t.message = some r.1 then
          ((loops c).pass (s.clients c) t).map fun w => { s.after c w with feed := r.2 }
        else none
    else none
  | .recv i => (Relay.step p s.relay (.recv i)).map fun r => { s with relay := r }
  | .run fresh room =>
    (Relay.step p s.relay (.run fresh)).map fun r =>
      { s with
        relay := r
        feed := s.feed.publishAll room (added s.relay.published r.published) }

/-- The clients and the relay, before anything was pushed. -/
def system (p : Relay.Program) (loops : ι → Loop) : System (State ι) (Action ι) where
  init := ⟨(Relay.relay p).init, .empty, fun _ => ⟨[], [], []⟩⟩
  step := step p loops

/-! ### The law -/

/-- The output of a client are the lines of events that its loop allows; the messages among them are
those it has taken off its queue, the statuses sent those it has given to its socket. -/
def Script (L : Loop) (w : World) (got : List Bytes) : Prop := ∃ es : List Event,
  (∀ e ∈ es, L.Allows e) ∧ w.out = es.flatMap Event.line ∧ es.filterMap Event.received? = got ∧
    es.filterMap Event.pushed? = w.queued ∧ es.filterMap Event.announced? = w.announced

/-- What the clients see of one another. -/
structure Delivery (p : Relay.Program) (loops : ι → Loop) (s : State ι) : Prop where
  scripts : ∀ c, Script (loops c) (s.clients c) (s.feed.got c)
  /-- One list of attributed messages: a merge of first parts of what the clients have pushed, of which
  every client has received some, in this order. -/
  order : ∃ log : List (ι × Bytes),
    (∀ i, Pipes.cameFrom i log <+: (s.clients i).queued.map p.rewritten) ∧
      ∀ c, ∃ l : List (ι × Bytes), l.Sublist log ∧ l.map Prod.snd = s.feed.got c
  agree : ∀ c d, s.feed.missed c = 0 → s.feed.missed d = 0 →
    s.feed.got c ++ s.feed.waiting c <:+ s.feed.got d ++ s.feed.waiting d ∨
      s.feed.got d ++ s.feed.waiting d <:+ s.feed.got c ++ s.feed.waiting c

/-! ### The invariant -/

/-- The relay runs as it does alone, its clients' pipes hold what the clients have pushed, and the feed
reads what it has published. -/
structure Inv (p : Relay.Program) (loops : ι → Loop) (s : State ι) : Prop where
  relay : Relay.Inv p s.relay
  pushed : ∀ c, s.relay.pipes.pushed c = (s.clients c).queued
  feed : s.feed.InOrder s.relay.published
  scripts : ∀ c, Script (loops c) (s.clients c) (s.feed.got c)

omit [DecidableEq ι] in
theorem added_append {α : Type*} (old xs : List α) : added old (old ++ xs) = xs := List.drop_left

theorem Script.nil (L : Loop) : Script L ⟨[], [], []⟩ [] := ⟨[], by simp, rfl, rfl, rfl, rfl⟩

/-- One more event. -/
theorem Script.concat {L : Loop} {w : World} {got : List Bytes} (h : Script L w got) {e : Event}
    (he : L.Allows e) : Script L (record w e) (got ++ e.received?.toList) := by
  obtain ⟨es, hes, hout, hgot, hq, hann⟩ := h
  refine ⟨es ++ [e], ?_, ?_, ?_, ?_, ?_⟩
  · exact List.forall_mem_append.mpr ⟨hes, List.forall_mem_singleton.mpr he⟩
  · rw [List.flatMap_append, List.flatMap_singleton, ← hout]
    cases e <;> rfl
  · rw [List.filterMap_append, hgot]
    cases e <;> rfl
  · rw [List.filterMap_append, hq]
    cases e with
    | received message line => exact List.append_nil _
    | sent s => rfl
    | refused s => exact List.append_nil _
  · rw [List.filterMap_append, hann]
    cases e with
    | received message line => exact List.append_nil _
    | sent s => rfl
    | refused s => rfl

variable {p : Relay.Program} {loops : ι → Loop} {s t : State ι}

theorem relay_pushAll {r : Relay.State ι} (h : Relay.Inv p r) (i : ι) (xs : List Bytes) :
    Relay.Inv p { r with pipes := r.pipes.pushAll i xs } := by
  obtain ⟨hfifo, done, cur, hpulled, hpub⟩ := h
  exact ⟨hfifo.pushAll i xs, done, cur, (Pipes.pushAll_pulled _ _ _).trans hpulled, hpub⟩

theorem relay_step {r q : Relay.State ι} {a : Relay.Action ι} (h : Relay.Inv p r)
    (hs : Relay.step p r a = some q) : Relay.Inv p q :=
  Relay.inv_step (a := a) h hs

/-- A pass of one client, seen from the relay and the other clients. -/
theorem inv_after (hi : Inv p loops s) {c : ι} {w : World} {xs : List Bytes}
    (hw : w.queued = (s.clients c).queued ++ xs) {feed : Feed ι Bytes}
    (hfeed : feed.InOrder s.relay.published) (hgot : ∀ d, d ≠ c → feed.got d = s.feed.got d)
    (hscript : Script (loops c) w (feed.got c)) :
    Inv p loops { s.after c w with feed := feed } := by
  refine ⟨relay_pushAll hi.relay _ _, fun d => ?_, hfeed, fun d => ?_⟩
  · show (s.relay.pipes.pushAll c (added (s.clients c).queued w.queued)).pushed d =
      (Function.update s.clients c w d).queued
    by_cases hd : d = c
    · subst hd
      rw [Pipes.pushAll_pushed_self, Function.update_self, hw, added_append, hi.pushed]
    · rw [Pipes.pushAll_pushed_of_ne _ hd, Function.update_of_ne hd, hi.pushed]
  · show Script (loops d) (Function.update s.clients c w d) (feed.got d)
    by_cases hd : d = c
    · subst hd
      rw [Function.update_self]
      exact hscript
    · rw [Function.update_of_ne hd, hgot d hd]
      exact hi.scripts d

omit [DecidableEq ι] in
theorem record_queued (w : World) (e : Event) :
    (record w e).queued = w.queued ++ e.pushed?.toList := by
  cases e with
  | received message line => exact (List.append_nil _).symm
  | sent s => rfl
  | refused s => exact (List.append_nil _).symm

theorem inv_silent (hi : Inv p loops s) {c : ι} {u : Turn} {w : World} (hu : Silent u)
    (hw : (loops c).pass (s.clients c) u = some w) : Inv p loops (s.after c w) := by
  rcases (loops c).silent _ _ _ hu hw with rfl | ⟨st, hst, rfl | ⟨hnb, rfl⟩⟩
  · exact inv_after hi (List.append_nil _).symm hi.feed (fun _ _ => rfl) (hi.scripts c)
  · refine inv_after hi (record_queued _ _) hi.feed (fun _ _ => rfl) ?_
    simpa [Event.received?] using (hi.scripts c).concat (e := .sent st) hst
  · refine inv_after hi (record_queued _ _) hi.feed (fun _ _ => rfl) ?_
    simpa [Event.received?] using (hi.scripts c).concat (e := .refused st) ⟨hst, hnb⟩

theorem inv_readable (hi : Inv p loops s) {c : ι} {u : Turn} {w : World} {m : Bytes}
    {feed : Feed ι Bytes} (hu : Readable u) (htake : s.feed.take c = some (m, feed))
    (hm : u.message = some m) (hw : (loops c).pass (s.clients c) u = some w) :
    Inv p loops { s.after c w with feed := feed } := by
  rw [(loops c).readable _ _ m hu hm] at hw
  obtain ⟨line, hline, rfl⟩ := Option.map_eq_some_iff.mp hw
  obtain ⟨-, -, -, hgot, hother⟩ := Feed.take_some htake
  refine inv_after hi (record_queued _ _) (hi.feed.take htake) (fun d hd => (hother d hd).2) ?_
  rw [hgot]
  exact (hi.scripts c).concat (e := .received m line) hline

/-- What a pass leaves of the clients and the subscriptions. -/
theorem pass_some {c : ι} {u : Turn} (h : (system p loops).step s (.pass c u) = some t) :
    ∃ w, (loops c).pass (s.clients c) u = some w ∧ t.clients = Function.update s.clients c w ∧
      t.feed.since = s.feed.since ∧ (Silent u ∨ Readable u ∧ u.message.isSome) := by
  change step p loops s (.pass c u) = some t at h
  rw [step] at h
  split_ifs at h with hsil hread
  · obtain ⟨w, hw, rfl⟩ := Option.map_eq_some_iff.mp h
    exact ⟨w, hw, rfl, rfl, Or.inl hsil⟩
  · obtain ⟨⟨m, feed⟩, htake, h⟩ := Option.bind_eq_some_iff.mp h
    split_ifs at h with hm
    obtain ⟨w, hw, rfl⟩ := Option.map_eq_some_iff.mp h
    exact ⟨w, hw, rfl, (Feed.take_some htake).1, Or.inr ⟨hread, hm ▸ rfl⟩⟩

/-- The relay's steps leave the clients and the subscriptions alone. -/
theorem recv_some {i : ι} (h : (system p loops).step s (.recv i) = some t) :
    t.clients = s.clients ∧ t.feed = s.feed := by
  obtain ⟨r, -, rfl⟩ := Option.map_eq_some_iff.mp h
  exact ⟨rfl, rfl⟩

theorem run_some {fresh : Bytes} {room : ι → Bool}
    (h : (system p loops).step s (.run fresh room) = some t) :
    t.clients = s.clients ∧ t.feed.since = s.feed.since := by
  obtain ⟨r, -, rfl⟩ := Option.map_eq_some_iff.mp h
  exact ⟨rfl, Feed.publishAll_since _ _⟩

theorem inv_step {a : Action ι} (hi : Inv p loops s) (h : (system p loops).step s a = some t) :
    Inv p loops t := by
  change step p loops s a = some t at h
  cases a with
  | subscribe c =>
    cases h
    exact ⟨hi.relay, hi.pushed, hi.feed.subscribe c, hi.scripts⟩
  | pass c u =>
    rw [step] at h
    split_ifs at h with hsil hread
    · obtain ⟨w, hw, rfl⟩ := Option.map_eq_some_iff.mp h
      exact inv_silent hi hsil hw
    · obtain ⟨⟨m, feed⟩, htake, h⟩ := Option.bind_eq_some_iff.mp h
      split_ifs at h with hm
      obtain ⟨w, hw, rfl⟩ := Option.map_eq_some_iff.mp h
      exact inv_readable hi hread htake hm hw
  | recv i =>
    obtain ⟨r, hr, rfl⟩ := Option.map_eq_some_iff.mp h
    have hrelay := relay_step hi.relay hr
    rw [Relay.step] at hr
    split_ifs at hr
    obtain ⟨⟨x, Q⟩, hpull, rfl⟩ := Option.map_eq_some_iff.mp hr
    exact ⟨hrelay, fun c => ((Pipes.pull_some hpull).1 ▸ hi.pushed c), hi.feed, hi.scripts⟩
  | run fresh room =>
    obtain ⟨r, hr, rfl⟩ := Option.map_eq_some_iff.mp h
    have hrelay := relay_step hi.relay hr
    obtain ⟨⟨v, o⟩, -, rfl⟩ := Option.map_eq_some_iff.mp hr
    refine ⟨hrelay, hi.pushed, ?_, fun c => ?_⟩
    · dsimp only
      rw [added_append]
      exact hi.feed.publishAll room o
    · dsimp only
      rw [Feed.publishAll_got]
      exact hi.scripts c

theorem inv_init : Inv p loops (system p loops).init :=
  ⟨Relay.inv_init, fun _ => rfl, .empty, fun _ => .nil _⟩

theorem Inv.delivered (hi : Inv p loops s) : Delivery p loops s := by
  refine ⟨hi.scripts, ?_, fun c d => hi.feed.agree⟩
  have hfaith := hi.relay.faithful
  refine ⟨(s.relay.pipes.pulled.map Prod.fst).zip s.relay.published, fun i => ?_, fun c => ?_⟩
  · rw [← hi.pushed i]
    exact hfaith.perSender i
  · -- the relay has pulled what it has published, and perhaps one message more
    obtain ⟨done, cur, hpulled, hpub, -⟩ := hi.relay.published
    have hlen : s.relay.published.length ≤ (s.relay.pipes.pulled.map Prod.fst).length := by
      rw [hpub, hpulled, List.length_map, List.length_map, List.length_append]
      omega
    have hsub := hi.feed.got_sublist c
    rw [← List.map_snd_zip hlen] at hsub
    obtain ⟨l, hl, heq⟩ := List.sublist_map_iff.mp hsub
    exact ⟨l, hl, heq.symm⟩

/-! ### Everything can be delivered -/

/-- The loop of `c` has a line for whatever one of the clients may push. -/
def ShowsAll (p : Relay.Program) (loops : ι → Loop) (c : ι) : Prop :=
  ∀ d st, (loops d).picks st → ((loops c).onMessage (p.rewritten st.message)).isSome

theorem Script.picks {L : Loop} {w : World} {got : List Bytes} (h : Script L w got) {m : Bytes}
    (hm : m ∈ w.queued) : ∃ st, L.picks st ∧ st.message = m := by
  obtain ⟨es, hes, -, -, hq, -⟩ := h
  rw [← hq] at hm
  obtain ⟨e, he, hem⟩ := List.mem_filterMap.mp hm
  cases e with
  | sent st => exact ⟨st, hes _ he, Option.some.inj hem⟩
  | received message line => exact absurd hem (by simp [Event.pushed?])
  | refused st => exact absurd hem (by simp [Event.pushed?])

/-- What is published was picked by a client. -/
theorem Inv.published_picked (hi : Inv p loops s) {m : Bytes} (hm : m ∈ s.relay.published) :
    ∃ d st, (loops d).picks st ∧ m = p.rewritten st.message := by
  obtain ⟨done, cur, hpulled, hpub, -⟩ := hi.relay.published
  rw [hpub] at hm
  obtain ⟨⟨d, x⟩, hx, rfl⟩ := List.mem_map.mp hm
  have hcame : x ∈ Pipes.cameFrom d s.relay.pipes.pulled := by
    rw [Pipes.mem_cameFrom, hpulled]
    exact List.mem_append_left _ hx
  have hq := (hi.relay.fifo.cameFrom_pulled d).subset hcame
  rw [hi.pushed d] at hq
  obtain ⟨st, hst, rfl⟩ := (hi.scripts d).picks hq
  exact ⟨d, st, hst, rfl⟩

/-- A client that has a line for whatever is pushed has one for every message in its queue. -/
theorem Inv.shown (hi : Inv p loops s) {c : ι} (hc : ShowsAll p loops c) {m : Bytes}
    (hm : m ∈ s.feed.waiting c) : ((loops c).onMessage m).isSome := by
  have hmem := List.mem_append_right (s.feed.got c) hm
  have hpub : m ∈ s.relay.published := List.mem_of_mem_drop ((hi.feed.sublist c).subset hmem)
  obtain ⟨d, st, hst, rfl⟩ := hi.published_picked hpub
  exact hc d st hst

/-- Statements of the relay loop from the program counter to the next receive. -/
def rank : Relay.Pc → ℕ
  | .recv => 0
  | .send => 1
  | .fill => 2
  | .alloc => 3
  | .rebuild => 4
  | .print => 5
  | .copy => 6

/-- With a new message of the right size the relay can go on. -/
theorem statement_ready (p : Relay.Program) (v : Relay.Vars) (h : v.pc ≠ .recv) :
    ∃ fresh w o, Relay.statement p v fresh = some (w, o) ∧ rank w.pc < rank v.pc := by
  refine ⟨v.text, ?_⟩
  unfold Relay.statement
  cases hpc : v.pc with
  | recv => exact absurd hpc h
  | copy => exact ⟨_, _, rfl, by simp [rank]⟩
  | print =>
    refine ⟨_, _, rfl, ?_⟩
    dsimp only
    split_ifs <;> simp [rank]
  | rebuild => exact ⟨_, _, rfl, by simp [rank]⟩
  | alloc => exact ⟨_, _, if_pos rfl, by simp [rank]⟩
  | fill =>
    dsimp only
    split_ifs <;> exact ⟨_, _, rfl, by simp [rank]⟩
  | send =>
    dsimp only
    split_ifs <;> exact ⟨_, _, rfl, by simp [rank]⟩

/-- Nobody has pushed, joined or missed anything. -/
structure Kept (s t : State ι) : Prop where
  queued : ∀ d, (t.clients d).queued = (s.clients d).queued
  since : t.feed.since = s.feed.since
  missed : t.feed.missed = s.feed.missed

omit [DecidableEq ι] in
theorem Kept.refl (s : State ι) : Kept s s := ⟨fun _ => rfl, rfl, rfl⟩

omit [DecidableEq ι] in
theorem Kept.trans {r : State ι} (h : Kept r s) (h' : Kept s t) : Kept r t :=
  ⟨fun d => (h'.queued d).trans (h.queued d), h'.since.trans h.since, h'.missed.trans h.missed⟩

/-- The relay can finish the iteration it is in. -/
theorem finish_iteration (hi : Inv p loops s) : (system p loops).Reaches s fun t =>
    Inv p loops t ∧ Kept s t ∧ t.relay.relay.pc = .recv ∧ t.relay.pipes = s.relay.pipes := by
  induction hn : rank s.relay.relay.pc using Nat.strong_induction_on generalizing s with
  | _ n ih =>
    by_cases hpc : s.relay.relay.pc = .recv
    · exact .of_self ⟨hi, .refl s, hpc, rfl⟩
    · obtain ⟨fresh, v, o, hst, hlt⟩ := statement_ready p s.relay.relay hpc
      have hstep : (system p loops).step s (.run fresh fun _ => true) =
          some { s with
            relay := { s.relay with relay := v, published := s.relay.published ++ o }
            feed := s.feed.publishAll (fun _ => true)
              (added s.relay.published (s.relay.published ++ o)) } := by
        change step p loops s (.run fresh fun _ => true) = _
        rw [step, Relay.step, hst]
        rfl
      refine .of_step hstep ((ih _ (hn ▸ hlt) (inv_step hi hstep) rfl).mono fun t ht => ?_)
      obtain ⟨hit, hkept, hpct, hpipes⟩ := ht
      refine ⟨hit, Kept.trans ?_ hkept, hpct, hpipes⟩
      exact ⟨fun _ => rfl, Feed.publishAll_since _ _, Feed.publishAll_missed _⟩

/-- The relay can publish all that a client has pushed. -/
theorem drain_pipe (hi : Inv p loops s) (i : ι) : (system p loops).Reaches s fun t =>
    Inv p loops t ∧ Kept s t ∧ t.relay.relay.pc = .recv ∧ t.relay.pipes.waiting i = [] := by
  induction hn : (s.relay.pipes.waiting i).length generalizing s with
  | zero =>
    refine (finish_iteration hi).mono fun t ht => ?_
    obtain ⟨hit, hkept, hpc, hpipes⟩ := ht
    exact ⟨hit, hkept, hpc, hpipes ▸ List.length_eq_zero_iff.mp hn⟩
  | succ n ih =>
    refine (finish_iteration hi).trans fun r hr => ?_
    obtain ⟨hir, hkept, hpc, hpipes⟩ := hr
    obtain ⟨x, l, hw⟩ := List.exists_cons_of_length_eq_add_one hn
    obtain ⟨Q, hpull⟩ : ∃ Q, r.relay.pipes.pull i = some (x, Q) := by
      rw [Pipes.pull, hpipes, hw]
      exact ⟨_, rfl⟩
    have hstep : (system p loops).step r (.recv i) =
        some { r with relay := { r.relay with
          pipes := Q, relay := { r.relay.relay with msg := x, pc := .copy } } } := by
      change step p loops r (.recv i) = _
      rw [step, Relay.step, if_pos hpc, hpull]
      rfl
    have hQ : (Q.waiting i).length = n := by
      obtain ⟨-, -, hself, -⟩ := Pipes.pull_some hpull
      rw [hpipes] at hself
      rw [hself, List.length_cons] at hn
      omega
    refine .of_step hstep ((ih (inv_step hir hstep) hQ).mono fun t ht => ?_)
    obtain ⟨hit, hkept', hrest⟩ := ht
    refine ⟨hit, hkept.trans (Kept.trans ?_ hkept'), hrest⟩
    exact ⟨fun _ => rfl, rfl, rfl⟩

/-- A client can show all that waits for it. -/
theorem drain_queue (hi : Inv p loops s) {c : ι} (hc : ShowsAll p loops c) :
    (system p loops).Reaches s fun t =>
      Inv p loops t ∧ Kept s t ∧ t.relay.published = s.relay.published ∧
        t.relay.relay = s.relay.relay ∧ t.relay.pipes.waiting = s.relay.pipes.waiting ∧
        t.feed.waiting c = [] := by
  induction hn : (s.feed.waiting c).length generalizing s with
  | zero => exact .of_self ⟨hi, .refl s, rfl, rfl, rfl, List.length_eq_zero_iff.mp hn⟩
  | succ n ih =>
    obtain ⟨m, l, hw⟩ := List.exists_cons_of_length_eq_add_one hn
    obtain ⟨F, htake⟩ : ∃ F, s.feed.take c = some (m, F) := by
      rw [Feed.take, hw]
      exact ⟨_, rfl⟩
    obtain ⟨line, hline⟩ := Option.isSome_iff_exists.mp (hi.shown hc (hw ▸ List.mem_cons_self))
    set u : Turn := ⟨1, 1, some m, 0, .queued⟩ with hu
    have hpass : (loops c).pass (s.clients c) u =
        some (record (s.clients c) (.received m line)) := by
      rw [(loops c).readable _ _ m ⟨rfl, rfl⟩ rfl, hline]
      rfl
    have hstep : (system p loops).step s (.pass c u) =
        some { s.after c (record (s.clients c) (.received m line)) with feed := F } := by
      change step p loops s (.pass c u) = _
      rw [step, if_neg (by simp [Silent, hu]), if_pos ⟨rfl, rfl⟩, htake, hpass]
      exact if_pos rfl
    obtain ⟨hsince, hmissed, hwait, -, -⟩ := Feed.take_some htake
    have hF : (F.waiting c).length = n := by
      rw [hwait, List.length_cons] at hn
      omega
    have hadded : added (s.clients c).queued (record (s.clients c) (.received m line)).queued = [] :=
      List.drop_length
    refine .of_step hstep ((ih (inv_step hi hstep) hF).mono fun t ht => ?_)
    obtain ⟨hit, hkept, hpub, hrel, hpipes, hempty⟩ := ht
    refine ⟨hit, Kept.trans ?_ hkept, hpub, hrel, ?_, hempty⟩
    · refine ⟨fun d => ?_, hsince, hmissed⟩
      show (Function.update s.clients c _ d).queued = _
      by_cases hd : d = c
      · subst hd
        rw [Function.update_self]
        rfl
      · rw [Function.update_of_ne hd]
    · rw [hpipes]
      show (s.relay.pipes.pushAll c (added _ _)).waiting = _
      rw [hadded]
      rfl

/-- With nobody pushing, joining or missing anything more, all of what `i` has pushed is published, and
`c` has received all behind its join, but for what it had missed before. -/
structure Settled (p : Relay.Program) (s t : State ι) (i c : ι) (n : ℕ) : Prop where
  kept : Kept s t
  published : ∃ log : List (ι × Bytes), log.map Prod.snd = t.relay.published ∧
    Pipes.cameFrom i log = (s.clients i).queued.map p.rewritten
  received : (t.feed.got c).Sublist (t.relay.published.drop n)
  counted : (t.feed.got c).length + s.feed.missed c = (t.relay.published.drop n).length

theorem Inv.settled (hi : Inv p loops s) {i c : ι} {n : ℕ} (hn : s.feed.since c = some n)
    (hc : ShowsAll p loops c) : (system p loops).Reaches s fun t => Settled p s t i c n := by
  refine (drain_pipe hi i).trans fun r hr => ?_
  obtain ⟨hir, hkept, hpc, hempty⟩ := hr
  refine (drain_queue hir hc).mono fun t ht => ?_
  obtain ⟨hit, hkept', hpub, hrel, hpipes, hqueue⟩ := ht
  have hst := hkept.trans hkept'
  have hpart : t.feed.part t.relay.published c = t.relay.published.drop n :=
    Feed.part_some ((congrFun hst.since c).trans hn)
  have hsub := hit.feed.sublist c
  have hcount := hit.feed.counted c
  rw [hqueue, List.append_nil, hpart] at hsub hcount
  refine ⟨hst, ?_, hsub, by rw [← hcount, hst.missed]⟩
  -- at the receive all that was pulled is published
  have hiter := hit.relay.faithful.iteration (hrel ▸ hpc)
  refine ⟨t.relay.pipes.pulled.map fun x => (x.1, p.rewritten x.2), ?_, ?_⟩
  · rw [List.map_map, hiter]
    rfl
  · have hfifo := hit.relay.fifo i
    rw [hpipes, hempty, List.append_nil, hit.pushed i, hst.queued i] at hfifo
    rw [Pipes.cameFrom_map, hfifo]

/-! ### The pub-sub clients -/

/-- The loop of `lec-05-prg-06` or `lec-05-prg-08`. -/
def clientLoop (p : PushClient.Program) : Loop where
  onMessage m := some (p.onMessage m)
  picks s := ∃ rand, p.pick (rand % 100 + 1) = some s
  nonblocking := true
  pass := PushClient.pass p
  silent w w' t ht h := by
    unfold PushClient.pass at h
    rw [if_neg (by rw [ht.1]; decide), if_neg (by rw [ht.1]; decide)] at h
    cases hpick : p.pick (t.rand % 100 + 1) with
    | none =>
      rw [hpick] at h
      exact Or.inl (Option.some.inj h).symm
    | some s =>
      rw [hpick] at h
      obtain ⟨r, hr, rfl⟩ := Option.map_eq_some_iff.mp h
      refine Or.inr ⟨s, ⟨t.rand, hpick⟩, ?_⟩
      rcases PushClient.send_cases hr with ⟨-, hq⟩ | ⟨-, hq⟩
      · exact Or.inl (by rw [hq]; rfl)
      · exact Or.inr ⟨rfl, by rw [hq]; rfl⟩
  readable w t m ht hm := by
    unfold PushClient.pass
    rw [if_neg (by rw [ht.1]; decide), if_pos (by rw [ht.1]; decide), ht.2, if_pos (by decide), hm]
    rfl

variable (p) in
/-- Clients of the pub-sub/pull-push servers around one of them. -/
def pubSub (clients : ι → PushClient.Client) : System (State ι) (Action ι) :=
  system p fun c => clientLoop (clients c).program

theorem always_inv (p : Relay.Program) (loops : ι → Loop) (as : List (Action ι)) :
    (system p loops).Always (Inv p loops) as :=
  System.always_of_step inv_init (fun _ _ _ => inv_step) as

/-- **Delivery** in every run of any clients, each of either kind, around one relay. -/
theorem pubSub_delivery (p : Relay.Program) (clients : ι → PushClient.Client) (as : List (Action ι)) :
    (pubSub p clients).Always (Delivery p fun c => clientLoop (clients c).program) as :=
  (always_inv p _ as).imp fun _ => Inv.delivered

/-- **Nothing is stuck**: from wherever a run stands there is a way on in which all that a client has
pushed is published and a subscriber receives all it has not missed. -/
theorem carried_on (p : Relay.Program) (clients : ι → PushClient.Client) (as : List (Action ι))
    (s : State ι) (h : (pubSub p clients).exec (pubSub p clients).init as = some s) (i c : ι) (n : ℕ)
    (hn : s.feed.since c = some n) :
    (pubSub p clients).Reaches s fun t => Settled p s t i c n :=
  ((always_inv p _ as).last h).settled hn fun _ _ _ => rfl

/-- One client that has joined and has pushed a 1. -/
theorem carried_on_one :
    let T := pubSub .pubSubServer fun _ : Unit => PushClient.Client.pubSub
    ∃ s, T.exec T.init [.subscribe (), .pass () (PushClient.sendingTurn 0 .queued)] = some s ∧
      T.Reaches s fun t => Settled .pubSubServer s t () () 0 := by
  refine ⟨_, rfl, ?_⟩
  exact carried_on .pubSubServer (fun _ => .pubSub)
    [.subscribe (), .pass () (PushClient.sendingTurn 0 .queued)] _ rfl () () 0 rfl

end Fssn.Zmq.PubSub
