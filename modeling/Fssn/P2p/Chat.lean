import Fssn.Lib.Product
import Fssn.P2p.UserDb
import Fssn.Zmq.PubSub

/-!
# Fssn.P2p.Chat — the p2p chat as a whole

`user_registeration` from its first statement on, run by any number of users against one server with
its user database and its relay: registration is `UserDb`, the loop behind it is a client loop of
`PubSub` around `relay_server_nameserver`, and both go on side by side.  A user subscribes and makes
passes only when it is registered.

`chat_law`: no user ever indexes past the fields of a message, and what a user hears was sent by users
whose entries are in the database.
-/

namespace Fssn.P2p.Chat

open Fssn.Lib
open Zmq (PubSub.Loop PubSub.Silent PubSub.Readable PubSub.Script PubSub.record)
open Zmq.PushClient (World Turn Status send)

/-! ### The loop of a user -/

/-- A chat message and the line that announces it. -/
def chatStatus (user_name ip_addr : Bytes) (on : Bool) : Status where
  message := chatMsg user_name ip_addr on
  line := ascii "p2p-send::==>> " ++ chatMsg user_name ip_addr on ++ ascii "\n"

/-- What is printed for a message received, `none` when it has too few fields. -/
def recvLine (received : Bytes) : Option Bytes :=
  (shown received).map fun text => ascii "p2p-recv::<<== " ++ text ++ ascii "\n"

/-- `rand() % 100 + 1 < 10` -/
def drawOn (rand : ℕ) : Bool := decide (rand % 100 + 1 < 10)

/-- One pass of the loop of `user_registeration`; `none` is an exception, or an index past the end of
what `split` returns.  Its sends have no `ZMQ_DONTWAIT`: they wait until the socket takes the
message. -/
def pass (user_name ip_addr : Bytes) (w : World) (t : Turn) : Option World :=
  if t.rc < 0 then none
  -- `p[0].revents & ZMQ_POLLIN`, the lowest bit
  else if t.revents % 2 = 1 then
    (t.message.bind recvLine).map fun line => { w with out := w.out ++ line }
  else if t.sent = .again then none
  else
    let s := chatStatus user_name ip_addr (drawOn t.rand)
    (send w.queued s.message t.sent).map fun r =>
      { queued := r.2
        announced := w.announced ++ [s.line]
        out := w.out ++ s.line }

/-- A pass without a message sends one. -/
theorem pass_silent {user_name ip_addr : Bytes} {w w' : World} {t : Turn} (ht : PubSub.Silent t)
    (h : pass user_name ip_addr w t = some w') :
    w' = PubSub.record w (.sent (chatStatus user_name ip_addr (drawOn t.rand))) := by
  unfold pass at h
  rw [if_neg (by rw [ht.1]; decide), if_neg (by rw [ht.2]; decide)] at h
  split_ifs at h with hagain
  obtain ⟨r, hr, rfl⟩ := Option.map_eq_some_iff.mp h
  rcases Zmq.PushClient.send_cases hr with ⟨-, hq⟩ | ⟨hsent, -⟩
  · rw [hq]
    rfl
  · exact absurd hsent hagain

theorem pass_readable (user_name ip_addr : Bytes) (w : World) {t : Turn} {m : Bytes}
    (ht : PubSub.Readable t) (hm : t.message = some m) :
    pass user_name ip_addr w t =
      (recvLine m).map fun line => PubSub.record w (.received m line) := by
  unfold pass
  rw [if_neg (by rw [ht.1]; decide), if_pos (by rw [ht.2]; decide), hm]
  rfl

def userLoop (user_name ip_addr : Bytes) : PubSub.Loop where
  onMessage := recvLine
  picks s := ∃ on, s = chatStatus user_name ip_addr on
  nonblocking := false
  pass := pass user_name ip_addr
  silent _ _ t ht h := Or.inr ⟨_, ⟨drawOn t.rand, rfl⟩, Or.inl (pass_silent ht h)⟩
  readable w _ _ ht hm := pass_readable user_name ip_addr w ht hm

/-! ### The system -/

inductive Action (ι : Type*)
  | sendRequest (c : ι)
  | recvRequest (i : ℕ)
  | sendReply
  | recvReply (i : ℕ)
  | subscribe (c : ι)
  | pass (c : ι) (t : Turn)
  | relayRecv (i : ι)
  | relayRun (fresh : Bytes) (room : ι → Bool)

variable {ι : Type*}

/-- The part of `UserDb` in an action: in a pass its user shows or pushes a message. -/
def inUserDb : Action ι → Option (UserDb.Action ι)
  | .sendRequest c => some (.sendRequest c)
  | .recvRequest i => some (.recvRequest i)
  | .sendReply => some .sendReply
  | .recvReply i => some (.recvReply i)
  | .pass c t =>
    some (if PubSub.Silent t then .push c (drawOn t.rand) else .recvChat c (t.message.getD []))
  | _ => none

/-- The part of `PubSub` in an action. -/
def inPubSub : Action ι → Option (Zmq.PubSub.Action ι)
  | .subscribe c => some (.subscribe c)
  | .pass c t => some (.pass c t)
  | .relayRecv i => some (.recv i)
  | .relayRun fresh room => some (.run fresh room)
  | _ => none

/-- A user sets up its subscription behind its registration. -/
def allowed (u : UserDb.State ι) (_ : Zmq.PubSub.State ι) : Action ι → Bool
  | .subscribe c => decide ((u.clients c).pc = .chatting)
  | _ => true

variable [DecidableEq ι] (cfg : UserDb.Config ι)

def loops (c : ι) : PubSub.Loop := userLoop (cfg.user_name c).bytes (cfg.ip c).dotted

/-- The users, the database and the relay. -/
def system : System (UserDb.State ι × Zmq.PubSub.State ι) (Action ι) :=
  .product (UserDb.system cfg) (Zmq.PubSub.system .relayServer (loops cfg)) allowed inUserDb inPubSub

/-! ### The law -/

/-- A message of the user `c`. -/
def said (c : ι) (on : Bool) : Bytes := chatMsg (cfg.user_name c).bytes (cfg.ip c).dotted on

/-- What a user has printed before its first pass; the server never refuses a registration. -/
def opening (c : ι) : UserDb.Pc → Bytes
  | .start => []
  | .waiting => cfg.greeting c
  | .chatting => cfg.greeting c ++ ascii "user registration to p2p server completed\n" ++
      ascii "starting message transfer procedure\n" ++
      ascii "starting autonomous message transmit and receive scenario\n"

/-- What holds of the chat in every state. -/
structure ChatLaw (s : UserDb.State ι × Zmq.PubSub.State ι) : Prop where
  /-- No index is past the end of what `split` returns. -/
  shown : ∀ c, ∀ m ∈ s.2.feed.waiting c, (shown m).isSome
  /-- A user announces what it pushes, its own two messages. -/
  announced : ∀ c, (s.2.clients c).announced = (s.1.clients c).pushed.map (fun m =>
      ascii "p2p-send::==>> " ++ m ++ ascii "\n") ∧
    ∀ m ∈ (s.1.clients c).pushed, ∃ on, m = said cfg c on
  /-- What a user hears comes from registered users, of each in the order it has pushed it, and it is
  registered itself. -/
  heard : ∀ c, ∃ l : List (ι × Bytes), s.2.feed.got c = l.map (fun x => relayed x.2) ∧
    (∀ i, (Pipes.cameFrom i l).Sublist (s.1.clients i).pushed) ∧
    ∀ x ∈ l, cfg.entry x.1 ∈ s.1.server.user_db ∧ cfg.entry c ∈ s.1.server.user_db
  printed : ∀ c, (s.1.clients c).out = opening cfg c (s.1.clients c).pc ++ (s.2.clients c).out ∧
    PubSub.Script (loops cfg c) (s.2.clients c) (s.2.feed.got c)

/-! ### The invariant -/

/-- Both parts are as they are alone, they tell the same of every user, and a user that is not
registered has done nothing behind its registration. -/
structure Inv (s : UserDb.State ι × Zmq.PubSub.State ι) : Prop where
  db : UserDb.Inv cfg s.1
  chat : Zmq.PubSub.Inv .relayServer (loops cfg) s.2
  replies : ∀ m ∈ s.1.replies, m.2 = UserDb.sendMsg
  pushed : ∀ c, (s.1.clients c).pushed = (s.2.clients c).queued
  printed : ∀ c, (s.1.clients c).out = opening cfg c (s.1.clients c).pc ++ (s.2.clients c).out
  idle : ∀ c, (s.1.clients c).pc ≠ .chatting →
    s.2.clients c = ⟨[], [], []⟩ ∧ s.2.feed.since c = none

variable {cfg} {s t : UserDb.State ι × Zmq.PubSub.State ι}

theorem inv_init : Inv cfg (system cfg).init where
  db := UserDb.inv_init
  chat := Zmq.PubSub.inv_init
  replies _ hm := absurd hm List.not_mem_nil
  pushed _ := rfl
  printed _ := rfl
  idle _ _ := ⟨rfl, rfl⟩

/-- What the steps of the database do to the users: a user goes on in its registration, its output goes
on with it, and it has pushed nothing. -/
theorem register_step {u u' : UserDb.State ι} {a : UserDb.Action ι}
    (hreg : ∀ c m, a ≠ .recvChat c m) (hpush : ∀ c on, a ≠ .push c on)
    (hr : ∀ m ∈ u.replies, m.2 = UserDb.sendMsg)
    (h : (UserDb.system cfg).step u a = some u') :
    (∀ m ∈ u'.replies, m.2 = UserDb.sendMsg) ∧
    ∀ c, (u'.clients c).pushed = (u.clients c).pushed ∧
      ((u'.clients c).pc = (u.clients c).pc ∧ (u'.clients c).out = (u.clients c).out ∨
        (u.clients c).pc ≠ .chatting ∧
          ((u.clients c).out = opening cfg c (u.clients c).pc →
            (u'.clients c).out = opening cfg c (u'.clients c).pc)) := by
  change UserDb.step cfg u a = some u' at h
  cases a with
  | sendRequest c =>
    rw [UserDb.step] at h
    split_ifs at h with hpc
    cases h
    refine ⟨hr, fun d => ?_⟩
    dsimp only
    by_cases hd : d = c
    · subst hd
      rw [Function.update_self]
      refine ⟨rfl, Or.inr ⟨by simp [hpc], fun hout => ?_⟩⟩
      dsimp only
      rw [hout, hpc]
      rfl
    · rw [Function.update_of_ne hd]
      exact ⟨rfl, Or.inl ⟨rfl, rfl⟩⟩
  | recvRequest i =>
    rw [UserDb.step] at h
    split at h
    · cases h
      exact ⟨hr, fun d => ⟨rfl, Or.inl ⟨rfl, rfl⟩⟩⟩
    · exact absurd h (by simp)
  | sendReply =>
    rw [UserDb.step] at h
    split at h
    · cases h
      refine ⟨fun m hm => ?_, fun d => ⟨rfl, Or.inl ⟨rfl, rfl⟩⟩⟩
      rcases List.mem_append.mp hm with hm | hm
      · exact hr m hm
      · rw [List.mem_singleton.mp hm]
    · exact absurd h (by simp)
  | recvReply i =>
    rw [UserDb.step] at h
    split at h
    · rename_i c reply hreply
      split_ifs at h with hpc
      cases h
      refine ⟨fun m hm => hr m (List.mem_of_mem_eraseIdx hm), fun d => ?_⟩
      -- the only reply the server sends is `ok`
      have hok : reply = UserDb.sendMsg := hr _ (List.mem_of_getElem? hreply)
      dsimp only
      by_cases hd : d = c
      · subst hd
        rw [Function.update_self]
        refine ⟨rfl, Or.inr ⟨by simp [hpc], fun hout => ?_⟩⟩
        rw [UserDb.Client.replied, hout, hpc, hok]
        simp [opening, UserDb.sendMsg]
      · rw [Function.update_of_ne hd]
        exact ⟨rfl, Or.inl ⟨rfl, rfl⟩⟩
    · exact absurd h (by simp)
  | recvChat c m => exact absurd rfl (hreg c m)
  | push c on => exact absurd rfl (hpush c on)

/-- A step of the registration keeps the invariant. -/
theorem inv_register (hi : Inv cfg s) {a : UserDb.Action ι} (hreg : ∀ c m, a ≠ .recvChat c m)
    (hpush : ∀ c on, a ≠ .push c on) {u : UserDb.State ι}
    (h : (UserDb.system cfg).step s.1 a = some u) : Inv cfg (u, s.2) := by
  obtain ⟨hreplies, hclients⟩ := register_step hreg hpush hi.replies h
  refine ⟨UserDb.inv_step hi.db h, hi.chat, hreplies, fun c => ?_, fun c => ?_, fun c hc => ?_⟩
  · rw [(hclients c).1]
    exact hi.pushed c
  · rcases (hclients c).2 with ⟨hpc, hout⟩ | ⟨hpc, hout⟩
    · dsimp only
      rw [hout, hpc]
      exact hi.printed c
    · have hidle := (hi.idle c hpc).1
      have hbefore := hi.printed c
      rw [hidle, List.append_nil] at hbefore
      dsimp only
      rw [hidle, List.append_nil]
      exact hout hbefore
  · rcases (hclients c).2 with ⟨hpc, -⟩ | ⟨hpc, -⟩
    · exact hi.idle c (hpc ▸ hc)
    · exact hi.idle c hpc

/-- A step that leaves the database and the users' worlds alone keeps the invariant. -/
theorem inv_relay (hi : Inv cfg s) {a : Zmq.PubSub.Action ι} {r : Zmq.PubSub.State ι}
    (h : (Zmq.PubSub.system .relayServer (loops cfg)).step s.2 a = some r)
    (hclients : r.clients = s.2.clients)
    (hsince : ∀ c, (s.1.clients c).pc ≠ .chatting → r.feed.since c = s.2.feed.since c) :
    Inv cfg (s.1, r) := by
  refine ⟨hi.db, Zmq.PubSub.inv_step hi.chat h, hi.replies, fun c => ?_, fun c => ?_, fun c hc => ?_⟩
  · rw [hclients]
    exact hi.pushed c
  · rw [hclients]
    exact hi.printed c
  · rw [hclients, hsince c hc]
    exact hi.idle c hc

/-- A user that is behind its registration in both parts goes on. -/
theorem inv_user (hi : Inv cfg s) {c : ι} {v : UserDb.Client} {w : World} {b : Zmq.PubSub.State ι}
    (hdb : UserDb.Inv cfg { s.1 with clients := Function.update s.1.clients c v })
    (hchat : Zmq.PubSub.Inv .relayServer (loops cfg) b)
    (hclients : b.clients = Function.update s.2.clients c w) (hsince : b.feed.since = s.2.feed.since)
    (hpc : (s.1.clients c).pc = .chatting) (hv : v.pc = .chatting) (hpushed : v.pushed = w.queued)
    (hout : v.out = opening cfg c .chatting ++ w.out) :
    Inv cfg ({ s.1 with clients := Function.update s.1.clients c v }, b) := by
  refine ⟨hdb, hchat, hi.replies, fun d => ?_, fun d => ?_, fun d hd => ?_⟩
  · dsimp only
    rw [hclients]
    by_cases hdc : d = c
    · subst hdc
      rw [Function.update_self, Function.update_self]
      exact hpushed
    · rw [Function.update_of_ne hdc, Function.update_of_ne hdc]
      exact hi.pushed d
  · dsimp only
    rw [hclients]
    by_cases hdc : d = c
    · subst hdc
      rw [Function.update_self, Function.update_self, hv]
      exact hout
    · rw [Function.update_of_ne hdc, Function.update_of_ne hdc]
      exact hi.printed d
  · dsimp only at hd ⊢
    have hdc : d ≠ c := by
      rintro rfl
      rw [Function.update_self] at hd
      exact hd hv
    rw [Function.update_of_ne hdc] at hd
    rw [hclients, hsince, Function.update_of_ne hdc]
    exact hi.idle d hd

/-- A pass of a user. -/
theorem inv_pass (hi : Inv cfg s) {c : ι} {u : Turn}
    (hl : (UserDb.system cfg).step s.1 (if PubSub.Silent u then .push c (drawOn u.rand)
      else .recvChat c (u.message.getD [])) = some t.1)
    (hr : (Zmq.PubSub.system .relayServer (loops cfg)).step s.2 (.pass c u) = some t.2) :
    Inv cfg t := by
  have hdb := UserDb.inv_step hi.db hl
  have hchat := Zmq.PubSub.inv_step hi.chat hr
  obtain ⟨w, hw, hclients, hsince, hpoll⟩ := Zmq.PubSub.pass_some hr
  change UserDb.step cfg s.1 _ = some t.1 at hl
  obtain ⟨t1, t2⟩ := t
  have hprinted := hi.printed c
  by_cases hsil : PubSub.Silent u
  · rw [if_pos hsil, UserDb.step] at hl
    split_ifs at hl with hpc
    cases hl
    obtain rfl := pass_silent hsil hw
    refine inv_user hi hdb hchat hclients hsince hpc hpc ?_ ?_
    · dsimp only
      rw [hi.pushed c]
      rfl
    · dsimp only
      rw [hprinted, hpc]
      simp [PubSub.record, chatStatus]
  · obtain ⟨hread, hsome⟩ := hpoll.resolve_left hsil
    obtain ⟨m, hm⟩ := Option.isSome_iff_exists.mp hsome
    rw [if_neg hsil, hm, Option.getD_some, UserDb.step] at hl
    split_ifs at hl with hpc
    obtain ⟨text, htext, heq⟩ := Option.map_eq_some_iff.mp hl
    cases heq
    rw [show (loops cfg c).pass _ u = _ from pass_readable _ _ _ hread hm, recvLine, htext] at hw
    obtain rfl := Option.some.inj hw
    refine inv_user hi hdb hchat hclients hsince hpc hpc ?_ ?_
    · exact hi.pushed c
    · dsimp only
      rw [hprinted, hpc]
      simp [PubSub.record]

theorem inv_step {a : Action ι} (hi : Inv cfg s) (h : (system cfg).step s a = some t) :
    Inv cfg t := by
  obtain ⟨hallow, hl, hr⟩ := System.product_step h
  obtain ⟨t1, t2⟩ := t
  cases a with
  | sendRequest c =>
    obtain rfl := Option.some.inj hr
    exact inv_register hi (by simp) (by simp) hl
  | recvRequest i =>
    obtain rfl := Option.some.inj hr
    exact inv_register hi (by simp) (by simp) hl
  | sendReply =>
    obtain rfl := Option.some.inj hr
    exact inv_register hi (by simp) (by simp) hl
  | recvReply i =>
    obtain rfl := Option.some.inj hr
    exact inv_register hi (by simp) (by simp) hl
  | subscribe c =>
    obtain rfl := Option.some.inj hl
    have hpc : (s.1.clients c).pc = .chatting := of_decide_eq_true hallow
    refine inv_relay hi hr ?_ fun d hd => ?_
    · cases hr
      rfl
    · have hdc : d ≠ c := by
        rintro rfl
        exact hd hpc
      cases hr
      exact Function.update_of_ne hdc _ _
  | pass c u => exact inv_pass hi hl hr
  | relayRecv i =>
    obtain rfl := Option.some.inj hl
    obtain ⟨hclients, hfeed⟩ := Zmq.PubSub.recv_some hr
    exact inv_relay hi hr hclients fun _ _ => by rw [hfeed]
  | relayRun fresh room =>
    obtain rfl := Option.some.inj hl
    obtain ⟨hclients, hsince⟩ := Zmq.PubSub.run_some hr
    exact inv_relay hi hr hclients fun _ _ => by rw [hsince]

/-! ### What the users hear -/

omit [DecidableEq ι] in
/-- A relayed chat message has the fields that a user shows. -/
theorem shows_said (c d : ι) (on : Bool) :
    ((loops cfg c).onMessage (relayed (said cfg d on))).isSome := by
  obtain ⟨t1, t2, hshown, -⟩ := shown_fields (cfg.user_name d) (cfg.ip d) on
  show (recvLine (relayed (said cfg d on))).isSome
  rw [recvLine, said, hshown]
  rfl

omit [DecidableEq ι] in
theorem showsAll (c : ι) : Zmq.PubSub.ShowsAll .relayServer (loops cfg) c := by
  rintro d st ⟨on, rfl⟩
  exact shows_said c d on

omit [DecidableEq ι] in
theorem entry_of_chatting {u : UserDb.State ι} (hu : UserDb.Inv cfg u) {c : ι}
    (hc : (u.clients c).pc = .chatting) : cfg.entry c ∈ u.server.user_db := by
  obtain ⟨m, hm, rfl⟩ := List.mem_map.mp (hu.chatting c hc)
  rw [hu.stored, ← hu.entries m (List.mem_append_right _ hm)]
  exact List.mem_map_of_mem hm

omit [DecidableEq ι] in
/-- The events of a user that it announces are those in which it pushes. -/
theorem announced_eq {c : ι} {w : World} {got : List Bytes}
    (h : PubSub.Script (loops cfg c) w got) :
    w.announced = w.queued.map fun m => ascii "p2p-send::==>> " ++ m ++ ascii "\n" := by
  obtain ⟨es, hes, -, -, hq, hann⟩ := h
  rw [← hq, ← hann, List.map_filterMap]
  refine List.filterMap_congr fun e he => ?_
  cases e with
  | received message line => rfl
  | sent st =>
    obtain ⟨on, rfl⟩ := hes _ he
    rfl
  | refused st => exact absurd (hes _ he).2 (by simp [loops, userLoop])

theorem drop_relayed (m : Bytes) : (relayed m).drop 6 = m := rfl

/-- What a user has heard, without what the relay has put in front. -/
theorem Inv.heard (hi : Inv cfg s) (c : ι) :
    ∃ l : List (ι × Bytes), s.2.feed.got c = l.map (fun x => relayed x.2) ∧
      (∀ i, (Pipes.cameFrom i l).Sublist (s.1.clients i).pushed) ∧
      ∀ x ∈ l, cfg.entry x.1 ∈ s.1.server.user_db ∧ cfg.entry c ∈ s.1.server.user_db := by
  obtain ⟨log, hlog, hsub⟩ := hi.chat.delivered.order
  obtain ⟨l, hl, hgot⟩ := hsub c
  have hpushed : ∀ x ∈ l, ∃ m ∈ (s.1.clients x.1).pushed, x.2 = relayed m := by
    rintro ⟨i, y⟩ hx
    have hmem := (hlog i).subset (Pipes.mem_cameFrom.mpr (hl.subset hx))
    obtain ⟨m, hm, hy⟩ := List.mem_map.mp hmem
    exact ⟨m, hi.pushed i ▸ hm, hy.symm⟩
  refine ⟨l.map fun x => (x.1, x.2.drop 6), ?_, fun i => ?_, fun x hx => ⟨?_, ?_⟩⟩
  · rw [← hgot, List.map_map]
    refine List.map_congr_left fun x hx => ?_
    obtain ⟨m, -, hm⟩ := hpushed x hx
    show x.2 = relayed (x.2.drop 6)
    rw [hm, drop_relayed]
  · have hcame := ((Pipes.cameFrom_sublist hl i).trans (hlog i).sublist).map (List.drop 6)
    have hid : List.drop 6 ∘ Zmq.Relay.Program.relayServer.rewritten = id := funext drop_relayed
    rw [List.map_map, hid, List.map_id] at hcame
    rw [Pipes.cameFrom_map i (List.drop 6), hi.pushed i]
    exact hcame
  · obtain ⟨y, hy, rfl⟩ := List.mem_map.mp hx
    obtain ⟨m, hm, -⟩ := hpushed y hy
    exact entry_of_chatting hi.db (hi.db.pushed y.1 (List.ne_nil_of_mem hm))
  · by_cases hc : (s.1.clients c).pc = .chatting
    · exact entry_of_chatting hi.db hc
    · -- without a subscription nothing was received
      have hnone := hi.chat.feed.sublist c
      rw [Feed.part_none (hi.idle c hc).2] at hnone
      have hnil := (List.append_eq_nil_iff.mp (List.sublist_nil.mp hnone)).1
      rw [← hgot, List.map_eq_nil_iff] at hnil
      rw [hnil] at hx
      exact absurd hx List.not_mem_nil

theorem Inv.law (hi : Inv cfg s) : ChatLaw cfg s where
  shown c m hm := by
    have := hi.chat.shown (showsAll c) hm
    rwa [show (loops cfg c).onMessage m = recvLine m from rfl, recvLine, Option.isSome_map] at this
  announced c := by
    refine ⟨hi.pushed c ▸ announced_eq (hi.chat.scripts c), fun m hm => ?_⟩
    obtain ⟨st, ⟨on, rfl⟩, rfl⟩ := (hi.chat.scripts c).picks (hi.pushed c ▸ hm)
    exact ⟨on, rfl⟩
  heard := hi.heard
  printed c := ⟨hi.printed c, hi.chat.scripts c⟩

/-- **The p2p chat**: the law holds in every state of every run of any users around one server. -/
theorem chat_law (cfg : UserDb.Config ι) (as : List (Action ι)) :
    (system cfg).Always (ChatLaw cfg) as :=
  (System.always_of_step inv_init (fun _ _ _ => inv_step) as).imp fun _ => Inv.law

end Fssn.P2p.Chat
