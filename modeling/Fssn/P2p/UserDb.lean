import Mathlib.Data.List.Nodup
import Mathlib.Data.List.Perm.Basic
import Mathlib.Logic.Function.Basic
import Fssn.Lib.Transition
import Fssn.P2p.Dechat

/-!
# Fssn.P2p.UserDb — registration with the p2p server

The clients' `user_registeration` and the server's `user_manager_nameserver`.  A client sends one
request, waits for the reply and then chats, whatever the reply says.  The server takes one request
after the other: it stores the request, then it replies to the client the request came from.

A request in flight may overtake another client's; the transport delivers each once.
-/

namespace Fssn.P2p.UserDb

open Fssn.Lib

/-- The server's address and, for each client, the address and name it registers. -/
structure Config (ι : Type*) where
  ip_addr_p2p_server : Ip
  ip : ι → Ip
  user_name : ι → CString

/-- The request of a client. -/
def Config.entry {ι : Type*} (cfg : Config ι) (c : ι) : Bytes :=
  dbMsg (cfg.ip c).dotted (cfg.user_name c).bytes

/-- Where a client stands in `user_registeration`. -/
inductive Pc
  | start
  | waiting
  | chatting
deriving DecidableEq

/-- A client: what it has pushed to the relay's collector, and what it has printed. -/
structure Client where
  pc : Pc
  pushed : List Bytes
  out : Bytes

/-- The server between two statements; `requester` is whom it owes a reply. -/
structure Server (ι : Type*) where
  user_db : List Bytes
  requester : Option ι
  out : Bytes

/-- All parties and the messages in flight.  `received` are the requests the server has received, in
receipt order. -/
structure State (ι : Type*) where
  clients : ι → Client
  server : Server ι
  requests : List (ι × Bytes)
  received : List (ι × Bytes)
  replies : List (ι × Bytes)

inductive Action (ι : Type*)
  | sendRequest (c : ι)
  | recvRequest (i : ℕ)
  | sendReply
  | recvReply (i : ℕ)
  | recvChat (c : ι) (msg : Bytes)
  | push (c : ι) (on : Bool)

def sendMsg : Bytes := ascii "ok"

variable {ι : Type*} [DecidableEq ι] (cfg : Config ι)

/-- What a client prints before it sends its request. -/
def Config.greeting (c : ι) : Bytes :=
  ascii "starting user registration procedure.\ndb_client" ++
    endpoint cfg.ip_addr_p2p_server.dotted portSubscribe ++ ascii "\n" ++ cfg.entry c ++ ascii "\n"

/-- A client behind its `recv` of the reply: it prints what the reply says and goes on to chat. -/
def Client.replied (v : Client) (reply : Bytes) : Client :=
  { v with
    pc := .chatting
    out := v.out ++ (if reply = ascii "ok" then ascii "user registration to p2p server completed\n"
      else ascii "user registration to p2p server failed\n") ++
      ascii "starting message transfer procedure\n" ++
      ascii "starting autonomous message transmit and receive scenario\n" }

/-- One step of one party. -/
def step (s : State ι) (a : Action ι) : Option (State ι) :=
  match a with
  | .sendRequest c =>
    if (s.clients c).pc = .start then
      some { s with
        clients := Function.update s.clients c
          { s.clients c with pc := .waiting, out := (s.clients c).out ++ cfg.greeting c }
        requests := s.requests ++ [(c, cfg.entry c)] }
    else none
  | .recvRequest i =>
    match s.server.requester, s.requests[i]? with
    | none, some (c, user_req) =>
      some { s with
        server := ⟨s.server.user_db ++ [user_req], some c,
          s.server.out ++ ascii "user registration " ++ user_req ++ ascii "\n"⟩
        requests := s.requests.eraseIdx i
        received := s.received ++ [(c, user_req)] }
    | _, _ => none
  | .sendReply =>
    match s.server.requester with
    | some c =>
      some { s with
        server := { s.server with requester := none }
        replies := s.replies ++ [(c, sendMsg)] }
    | none => none
  | .recvReply i =>
    match s.replies[i]? with
    | some (c, reply) =>
      if (s.clients c).pc = .waiting then
        some { s with
          clients := Function.update s.clients c ((s.clients c).replied reply)
          replies := s.replies.eraseIdx i }
      else none
    | none => none
  | .recvChat c msg =>
    if (s.clients c).pc = .chatting then
      (shown msg).map fun text =>
        { s with
          clients := Function.update s.clients c
            { s.clients c with
              out := (s.clients c).out ++ ascii "p2p-recv::<<== " ++ text ++ ascii "\n" } }
    else none
  | .push c on =>
    if (s.clients c).pc = .chatting then
      let msg := chatMsg (cfg.user_name c).bytes (cfg.ip c).dotted on
      some { s with
        clients := Function.update s.clients c
          { s.clients c with
            pushed := (s.clients c).pushed ++ [msg]
            out := (s.clients c).out ++ ascii "p2p-send::==>> " ++ msg ++ ascii "\n" } }
    else none

/-- The server, and clients that have not sent their requests yet. -/
def system : System (State ι) (Action ι) where
  init := ⟨fun _ => ⟨.start, [], []⟩, ⟨[], none, []⟩, [], [], []⟩
  step := step cfg

/-! ### The law -/

/-- `user_db` is the list of the received requests, each the entry of its client; a client that has
sent its request has it in flight or received, once; and a client that has pushed a message has its
entry in `user_db`. -/
structure Registered (s : State ι) : Prop where
  stored : s.server.user_db = s.received.map Prod.snd
  entries : ∀ m ∈ s.received, m.2 = cfg.entry m.1
  once : ((s.requests ++ s.received).map Prod.fst).Nodup
  kept : ∀ c, (s.clients c).pc ≠ .start → c ∈ (s.requests ++ s.received).map Prod.fst
  before_chat : ∀ c, (s.clients c).pushed ≠ [] → cfg.entry c ∈ s.server.user_db

/-- The invariant: a client is known to the server before the server replies to it, before the reply
is in flight, and before the client chats. -/
structure Inv (s : State ι) : Prop where
  stored : s.server.user_db = s.received.map Prod.snd
  entries : ∀ m ∈ s.requests ++ s.received, m.2 = cfg.entry m.1
  once : ((s.requests ++ s.received).map Prod.fst).Nodup
  sent : ∀ c, c ∈ (s.requests ++ s.received).map Prod.fst ↔ (s.clients c).pc ≠ .start
  requester : ∀ c, s.server.requester = some c → c ∈ s.received.map Prod.fst
  replies : ∀ m ∈ s.replies, m.1 ∈ s.received.map Prod.fst
  chatting : ∀ c, (s.clients c).pc = .chatting → c ∈ s.received.map Prod.fst
  pushed : ∀ c, (s.clients c).pushed ≠ [] → (s.clients c).pc = .chatting

variable {cfg} {s t : State ι}

omit [DecidableEq ι] in
theorem Inv.registered (hi : Inv cfg s) : Registered cfg s where
  stored := hi.stored
  entries m hm := hi.entries m (List.mem_append_right _ hm)
  once := hi.once
  kept c hc := (hi.sent c).mpr hc
  before_chat c hc := by
    obtain ⟨m, hm, rfl⟩ := List.mem_map.mp (hi.chatting c (hi.pushed c hc))
    rw [hi.stored, ← hi.entries m (List.mem_append_right _ hm)]
    exact List.mem_map_of_mem hm

theorem inv_init : Inv cfg (system cfg).init where
  stored := rfl
  entries _ hm := absurd hm List.not_mem_nil
  once := List.nodup_nil
  sent _ := ⟨fun hm => absurd hm List.not_mem_nil, fun h => absurd rfl h⟩
  requester _ h := absurd h (by simp [system])
  replies _ hm := absurd hm List.not_mem_nil
  chatting _ h := absurd h (by simp [system])
  pushed _ h := absurd rfl h

omit [DecidableEq ι] in
/-- Receiving a request moves it from those in flight to those received. -/
theorem perm_recvRequest {i : ℕ} {m : ι × Bytes} (hm : s.requests[i]? = some m) :
    (s.requests.eraseIdx i ++ (s.received ++ [m])).Perm (s.requests ++ s.received) := by
  obtain ⟨hlt, rfl⟩ := List.getElem?_eq_some_iff.mp hm
  have h1 := s.requests.getElem_cons_eraseIdx_perm hlt
  have h2 : (s.requests.eraseIdx i ++ (s.received ++ [s.requests[i]])).Perm
      (s.requests[i] :: s.requests.eraseIdx i ++ s.received) := by
    rw [← List.append_assoc]
    exact List.perm_append_singleton _ _
  exact h2.trans (h1.append_right _)

/-- A client that keeps its program counter, or is moved on after the server has its request, and
that pushes only while it chats, keeps the invariant. -/
theorem inv_update (hi : Inv cfg s) {c : ι} {v : Client} {replies : List (ι × Bytes)}
    (hreplies : ∀ m ∈ replies, m ∈ s.replies) (hstart : v.pc ≠ .start)
    (hc : c ∈ s.received.map Prod.fst) (hpushed : v.pushed ≠ [] → v.pc = .chatting) :
    Inv cfg { s with clients := Function.update s.clients c v, replies := replies } := by
  refine ⟨hi.stored, hi.entries, hi.once, fun k => ?_, hi.requester,
    fun m hm => hi.replies m (hreplies m hm), fun k hk => ?_, fun k hk => ?_⟩
  · by_cases hkc : k = c
    · subst hkc
      dsimp only
      rw [Function.update_self, List.map_append]
      exact ⟨fun _ => hstart, fun _ => List.mem_append_right _ hc⟩
    · dsimp only
      rw [Function.update_of_ne hkc]
      exact hi.sent k
  · by_cases hkc : k = c
    · rwa [hkc]
    · dsimp only at hk
      rw [Function.update_of_ne hkc] at hk
      exact hi.chatting k hk
  · by_cases hkc : k = c
    · subst hkc
      dsimp only at hk ⊢
      rw [Function.update_self] at hk ⊢
      exact hpushed hk
    · dsimp only at hk ⊢
      rw [Function.update_of_ne hkc] at hk ⊢
      exact hi.pushed k hk

/-- A client that has not sent its request sends it: it is the one client that becomes known. -/
theorem inv_sendRequest (hi : Inv cfg s) {c : ι} {v : Client} (hpc : (s.clients c).pc = .start)
    (hv : v.pc = .waiting) (hpushed : v.pushed = (s.clients c).pushed) :
    Inv cfg { s with
      clients := Function.update s.clients c v
      requests := s.requests ++ [(c, cfg.entry c)] } := by
  have hnew : c ∉ (s.requests ++ s.received).map Prod.fst := fun hm => (hi.sent c).mp hm hpc
  have hperm : (s.requests ++ [(c, cfg.entry c)] ++ s.received).Perm
      ((c, cfg.entry c) :: (s.requests ++ s.received)) := by
    rw [List.append_assoc]
    exact List.perm_middle
  refine ⟨hi.stored, fun m hm => ?_, ?_, fun k => ?_, hi.requester, hi.replies, fun k hk => ?_,
    fun k hk => ?_⟩
  · rcases List.mem_cons.mp (hperm.mem_iff.mp hm) with rfl | hm
    · rfl
    · exact hi.entries m hm
  · rw [(hperm.map Prod.fst).nodup_iff]
    exact List.nodup_cons.mpr ⟨hnew, hi.once⟩
  · rw [(hperm.map Prod.fst).mem_iff, List.map_cons, List.mem_cons, hi.sent]
    by_cases hkc : k = c
    · subst hkc
      simp [hv]
    · simp [hkc]
  · by_cases hkc : k = c
    · subst hkc
      simp [hv] at hk
    · refine hi.chatting k ?_
      simpa [hkc] using hk
  · by_cases hkc : k = c
    · -- it has pushed nothing before it chats
      subst hkc
      have hchat := hi.pushed k (by simpa [hpushed] using hk)
      exact absurd (hpc.symm.trans hchat) (by simp)
    · simpa [hkc] using hi.pushed k (by simpa [hkc] using hk)

omit [DecidableEq ι] in
/-- The server receives a request: those known to it stay known, and the requester is one of them. -/
theorem inv_recvRequest (hi : Inv cfg s) {i : ℕ} {c : ι} {user_req out : Bytes}
    (hreq : s.requests[i]? = some (c, user_req)) :
    Inv cfg { s with
      server := ⟨s.server.user_db ++ [user_req], some c, out⟩
      requests := s.requests.eraseIdx i
      received := s.received ++ [(c, user_req)] } := by
  have hperm := perm_recvRequest hreq
  have hgrow : ∀ k, k ∈ s.received.map Prod.fst →
      k ∈ (s.received ++ [(c, user_req)]).map Prod.fst := fun k hk => by
    rw [List.map_append]
    exact List.mem_append_left _ hk
  refine ⟨?_, fun m hm => hi.entries m (hperm.mem_iff.mp hm), ?_, fun k => ?_, ?_,
    fun m hm => hgrow _ (hi.replies m hm), fun k hk => hgrow k (hi.chatting k hk), hi.pushed⟩
  · dsimp only
    rw [hi.stored, List.map_append]
    rfl
  · rw [(hperm.map Prod.fst).nodup_iff]
    exact hi.once
  · rw [(hperm.map Prod.fst).mem_iff]
    exact hi.sent k
  · rintro k ⟨⟩
    simp

theorem inv_step {a : Action ι} (hi : Inv cfg s) (h : (system cfg).step s a = some t) :
    Inv cfg t := by
  change step cfg s a = some t at h
  cases a with
  | sendRequest c =>
    rw [step] at h
    split_ifs at h with hpc
    cases h
    exact inv_sendRequest hi hpc rfl rfl
  | recvRequest i =>
    rw [step] at h
    split at h
    · rename_i c user_req hfree hreq
      cases h
      exact inv_recvRequest hi hreq
    · exact absurd h (by simp)
  | sendReply =>
    rw [step] at h
    split at h
    · rename_i c hreq
      cases h
      refine ⟨hi.stored, hi.entries, hi.once, hi.sent, by simp, fun m hm => ?_, hi.chatting,
        hi.pushed⟩
      rcases List.mem_append.mp hm with hm | hm
      · exact hi.replies m hm
      · rw [List.mem_singleton.mp hm]
        exact hi.requester c hreq
    · exact absurd h (by simp)
  | recvReply i =>
    rw [step] at h
    split at h
    · rename_i c reply hreply
      split_ifs at h with hpc
      cases h
      exact inv_update hi (fun m => List.mem_of_mem_eraseIdx) (by simp [Client.replied])
        (hi.replies _ (List.mem_of_getElem? hreply)) (fun _ => rfl)
    · exact absurd h (by simp)
  | recvChat c msg =>
    rw [step] at h
    split_ifs at h with hpc
    obtain ⟨text, -, rfl⟩ := Option.map_eq_some_iff.mp h
    exact inv_update hi (fun _ hm => hm) (by simp [hpc]) (hi.chatting c hpc) (fun _ => hpc)
  | push c on =>
    rw [step] at h
    split_ifs at h with hpc
    cases h
    exact inv_update hi (fun _ hm => hm) (by simp [hpc]) (hi.chatting c hpc) (fun _ => hpc)

/-- **Registration before chat**: the law holds in every state of every run. -/
theorem registration (cfg : Config ι) (as : List (Action ι)) :
    (system cfg).Always (Registered cfg) as :=
  (System.always_of_step inv_init (fun _ _ _ => inv_step) as).imp fun _ => Inv.registered

end Fssn.P2p.UserDb
