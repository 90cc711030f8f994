import Fssn.P2p.Chat
import Fssn.P2p.NameServer

/-!
# Fssn.P2p.Program — the p2p program from its first statement on

`main` of `lec-05-prg-12` on any nodes of one /24: each searches for a name server, becomes one when it
finds none, and then runs `user_registeration` with the server it has.  Any node may become a server
(`NameServer`), and around each server there is a chat (`Chat`).

* `program_law`: a user takes part in one chat only, that of the server its search has found, is stored
  once, and hears only users with the same server.
* `one_chat`: when no search times out before it could hear the servers there are, there is one chat.
-/

namespace Fssn.P2p.Program

open Fssn.Lib
open NameServer (Network Node Phase ServerMode SearchesHear)

variable {ι : Type*}

/-! ### The program -/

/-- The nodes, and around each of them the chat whose server it is. -/
structure State (ι : Type*) where
  nodes : ι → Node
  chats : ι → UserDb.State ι × Zmq.PubSub.State ι

inductive Action (ι : Type*)
  | node (a : NameServer.Action ι)
  | chat (m : ι) (a : Chat.Action ι)

/-- `main` has called `user_registeration`, or started the thread that does. -/
def inUserRegisteration : Phase → Bool
  | .client => true
  | .server threads => threads
  | _ => false

/-- `main` has started the threads of a server. -/
def inServerLoops : Phase → Bool
  | .server threads => threads
  | _ => false

section Step

variable (net : Network ι) (user_name : ι → CString)

/-- What the users around the server `m` call `user_registeration` with. -/
def config (m : ι) : UserDb.Config ι := ⟨net.ip m, net.ip, user_name⟩

/-- The node has called `user_registeration` with the address of `m`. -/
def Uses (v : Node) (m : ι) : Prop :=
  inUserRegisteration v.phase = true ∧ v.ip_addr_p2p_server = net.ip_addr m

instance (v : Node) (m : ι) : Decidable (Uses net v m) := inferInstanceAs (Decidable (_ ∧ _))

/-- A user registers with the server that `main` passes, and the loops of a server run in its
threads. -/
def allowed (nodes : ι → Node) (m : ι) : Chat.Action ι → Bool
  | .sendRequest c => decide (Uses net (nodes c) m)
  | .recvRequest _ | .sendReply | .relayRecv _ | .relayRun _ _ => inServerLoops (nodes m).phase
  | _ => true

variable [DecidableEq ι]

/-- One step of one party. -/
def step (s : State ι) (a : Action ι) : Option (State ι) :=
  match a with
  | .node a => ((NameServer.system net).step s.nodes a).map fun nodes => { s with nodes := nodes }
  | .chat m a =>
    if allowed net s.nodes m a then
      ((Chat.system (config net user_name m)).step (s.chats m) a).map fun chat =>
        { s with chats := Function.update s.chats m chat }
    else none

/-- The nodes, before any of them has searched. -/
def system : System (State ι) (Action ι) where
  init := ⟨(NameServer.system net).init, fun m => (Chat.system (config net user_name m)).init⟩
  step := step net user_name

end Step

/-! ### The law -/

/-- The user `c` has sent its request to the server `m`. -/
def TakesPart (s : State ι) (m c : ι) : Prop := ((s.chats m).1.clients c).pc ≠ .start

/-- What holds of all nodes in every state. -/
structure ProgramLaw (net : Network ι) (user_name : ι → CString) [DecidableEq ι] (s : State ι) :
    Prop where
  chats : ∀ m, Chat.ChatLaw (config net user_name m) (s.chats m)
  /-- Around a node that is no server there is no chat, and who takes part in one has found its
  server. -/
  uses : ∀ m c, TakesPart s m c → ServerMode (s.nodes m) ∧ Uses net (s.nodes c) m
  /-- Nobody takes part in two chats. -/
  one : ∀ m n c, TakesPart s m c → TakesPart s n c → m = n
  /-- A database has one entry for each of its users.  These take part in its chat, and whoever has
  registered there is one of them. -/
  stored : ∀ m, ∃ users : List ι, users.Nodup ∧ (∀ c ∈ users, TakesPart s m c) ∧
    (∀ c, ((s.chats m).1.clients c).pc = .chatting → c ∈ users) ∧
    (s.chats m).1.server.user_db = users.map (config net user_name m).entry
  /-- A user hears only users with the same server, and what these have pushed there. -/
  heard : ∀ m c, ∃ l : List (ι × Bytes), (s.chats m).2.feed.got c = l.map (fun x => relayed x.2) ∧
    ∀ x ∈ l, x.2 ∈ ((s.chats m).1.clients x.1).pushed ∧ Uses net (s.nodes x.1) m

/-- All users that take part in a chat take part in the same one. -/
def OneChat (s : State ι) : Prop := ∀ m n c d, TakesPart s m c → TakesPart s n d → m = n

/-! ### Addresses -/

theorem tokens_dotted (ip : Ip) : tokens (isByte 46) ip.dotted =
    [decimal ip.a.toNat, decimal ip.b.toNat, decimal ip.c.toNat, decimal ip.d.toNat] := by
  have heq : ip.dotted = decimal ip.a.toNat ++ [46] ++ (decimal ip.b.toNat ++ [46] ++
      (decimal ip.c.toNat ++ [46] ++ decimal ip.d.toNat)) := by
    simp [Ip.dotted, dot_eq]
  rw [heq, tokens_field_append (decimal_ne_nil _) (dot_not_mem_decimal _),
    tokens_field_append (decimal_ne_nil _) (dot_not_mem_decimal _),
    tokens_field_append (decimal_ne_nil _) (dot_not_mem_decimal _),
    tokens_field (decimal_ne_nil _) (dot_not_mem_decimal _)]

/-- Different addresses have different texts. -/
theorem dotted_injective : Function.Injective Ip.dotted := by
  intro x y h
  have htokens := congrArg (tokens (isByte 46)) h
  rw [tokens_dotted, tokens_dotted] at htokens
  injection htokens with ha htokens
  injection htokens with hb htokens
  injection htokens with hc htokens
  injection htokens with hd
  have huint : ∀ {u v : UInt8}, decimal u.toNat = decimal v.toNat → u = v := fun huv =>
    UInt8.toNat_inj.mp (decimal_injective huv)
  obtain ⟨a, b, c, d⟩ := x
  obtain ⟨a', b', c', d'⟩ := y
  rw [Ip.mk.injEq]
  exact ⟨huint ha, huint hb, huint hc, huint hd⟩

theorem ip_addr_injective (net : Network ι) : Function.Injective net.ip_addr :=
  dotted_injective.comp net.ip_injective

/-! ### What the steps keep -/

variable [DecidableEq ι] {net : Network ι} {user_name : ι → CString} {s t : State ι}

/-- A node that has called `user_registeration` does not change any more. -/
theorem node_settled {nodes nodes' : ι → Node} {a : NameServer.Action ι}
    (h : (NameServer.system net).step nodes a = some nodes') {c : ι}
    (hc : inUserRegisteration (nodes c).phase = true) : nodes' c = nodes c := by
  -- the phases of the nodes that a step changes are before the call
  have hother : ∀ {n : ι} {v : Node} {phase : Phase}, (nodes n).phase = phase →
      inUserRegisteration phase = false → Function.update nodes n v c = nodes c := by
    intro n v phase hn hphase
    refine Function.update_of_ne ?_ _ _
    rintro rfl
    rw [hn, hphase] at hc
    exact absurd hc (by decide)
  cases NameServer.step_move h with
  | startSearch n hn => exact hother hn rfl
  | recvBeacon n ip_mask msg inbox r hn hr => exact hother hn rfl
  | timeout n ip_mask hn => exact hother hn rfl
  | startThreads n hn => exact hother hn rfl
  | publish n hn =>
    rcases NameServer.hear_cases (bindEndpoint (net.ip_addr n)) (beaconMessage (net.ip_addr n))
      (nodes c) with heq | ⟨ip_mask, inbox, hsearch, -⟩
    · exact heq
    · rw [hsearch] at hc
      exact absurd hc Bool.false_ne_true

omit [DecidableEq ι] in
/-- The address that a node has called `user_registeration` with is that of a server. -/
theorem serverMode_of_uses (hi : NameServer.Inv net s.nodes) {m c : ι}
    (h : Uses net (s.nodes c) m) : ServerMode (s.nodes m) := by
  obtain ⟨hphase, haddr⟩ := h
  have hok := hi c
  unfold NameServer.NodeOk at hok
  split at hok
  · rename_i hp
    rw [hp] at hphase
    exact absurd hphase Bool.false_ne_true
  · rename_i hp
    rw [hp] at hphase
    exact absurd hphase Bool.false_ne_true
  · rename_i threads hp
    obtain rfl := ip_addr_injective net (hok.symm.trans haddr)
    exact ⟨threads, hp⟩
  · obtain ⟨k, hk, hkaddr⟩ := hok
    obtain rfl := ip_addr_injective net (hkaddr.symm.trans haddr)
    exact hk

/-- Only by its request does a user begin to take part. -/
theorem start_of_step {cfg : UserDb.Config ι} {u v : UserDb.State ι} {a : UserDb.Action ι}
    (h : (UserDb.system cfg).step u a = some v) {c : ι} (hc : (v.clients c).pc ≠ .start) :
    (u.clients c).pc ≠ .start ∨ a = .sendRequest c := by
  have hother : ∀ {d : ι} {w : UserDb.Client}, (Function.update u.clients d w c).pc ≠ .start →
      (u.clients d).pc ≠ .start → (u.clients c).pc ≠ .start := by
    intro d w hc hd
    by_cases hcd : c = d
    · rwa [hcd]
    · rwa [Function.update_of_ne hcd] at hc
  change UserDb.step cfg u a = some v at h
  cases a with
  | sendRequest d =>
    rw [UserDb.step] at h
    split_ifs at h with hpc
    cases h
    by_cases hcd : c = d
    · exact Or.inr (hcd ▸ rfl)
    · dsimp only at hc
      rw [Function.update_of_ne hcd] at hc
      exact Or.inl hc
  | recvRequest i =>
    rw [UserDb.step] at h
    split at h
    · cases h
      exact Or.inl hc
    · exact absurd h (by simp)
  | sendReply =>
    rw [UserDb.step] at h
    split at h
    · cases h
      exact Or.inl hc
    · exact absurd h (by simp)
  | recvReply i =>
    rw [UserDb.step] at h
    split at h
    · rename_i d reply hreply
      split_ifs at h with hpc
      cases h
      exact Or.inl (hother hc (by simp [hpc]))
    · exact absurd h (by simp)
  | recvChat d m =>
    rw [UserDb.step] at h
    split_ifs at h with hpc
    obtain ⟨text, -, rfl⟩ := Option.map_eq_some_iff.mp h
    exact Or.inl (hother hc (by simp [hpc]))
  | push d on =>
    rw [UserDb.step] at h
    split_ifs at h with hpc
    cases h
    exact Or.inl (hother hc (by simp [hpc]))

omit [DecidableEq ι] in
theorem inUserDb_sendRequest {a : Chat.Action ι} {c : ι}
    (h : Chat.inUserDb a = some (.sendRequest c)) : a = .sendRequest c := by
  cases a with
  | sendRequest d => simpa [Chat.inUserDb] using h
  | pass d u =>
    rw [Chat.inUserDb] at h
    split_ifs at h <;> simp at h
  | _ => simp [Chat.inUserDb] at h

/-- The same in the chat around a server. -/
theorem start_of_chat {cfg : UserDb.Config ι} {u v : UserDb.State ι × Zmq.PubSub.State ι}
    {a : Chat.Action ι} (h : (Chat.system cfg).step u a = some v) {c : ι}
    (hc : (v.1.clients c).pc ≠ .start) : (u.1.clients c).pc ≠ .start ∨ a = .sendRequest c := by
  obtain ⟨-, hdb, -⟩ := System.product_step h
  cases hpart : Chat.inUserDb a with
  | none =>
    rw [hpart] at hdb
    rw [← Option.some.inj hdb] at hc
    exact Or.inl hc
  | some b =>
    rw [hpart] at hdb
    rcases start_of_step hdb hc with hbefore | rfl
    · exact Or.inl hbefore
    · exact Or.inr (inUserDb_sendRequest hpart)

/-- The nodes are as they are alone, and so is every chat; who takes part in one has called
`user_registeration` with the address of its server. -/
structure Inv (net : Network ι) (user_name : ι → CString) (s : State ι) : Prop where
  nodes : NameServer.Inv net s.nodes
  chats : ∀ m, Chat.Inv (config net user_name m) (s.chats m)
  uses : ∀ m c, TakesPart s m c → Uses net (s.nodes c) m

theorem inv_init : Inv net user_name (system net user_name).init where
  nodes := NameServer.inv_init
  chats _ := Chat.inv_init
  uses _ _ h := absurd rfl h

/-- A step in the chat around `m`. -/
theorem inv_chat (hi : Inv net user_name s) {m : ι} {a : Chat.Action ι}
    {chat : UserDb.State ι × Zmq.PubSub.State ι} (hallow : allowed net s.nodes m a = true)
    (h : (Chat.system (config net user_name m)).step (s.chats m) a = some chat) :
    Inv net user_name { s with chats := Function.update s.chats m chat } := by
  refine ⟨hi.nodes, fun k => ?_, fun k c hc => ?_⟩
  · by_cases hkm : k = m
    · subst hkm
      dsimp only
      rw [Function.update_self]
      exact Chat.inv_step (hi.chats k) h
    · dsimp only
      rw [Function.update_of_ne hkm]
      exact hi.chats k
  · by_cases hkm : k = m
    · subst hkm
      dsimp only [TakesPart] at hc ⊢
      rw [Function.update_self] at hc
      rcases start_of_chat h hc with hbefore | rfl
      · exact hi.uses k c hbefore
      · -- its request needs the guard
        exact of_decide_eq_true hallow
    · dsimp only [TakesPart] at hc
      rw [Function.update_of_ne hkm] at hc
      exact hi.uses k c hc

theorem inv_step {a : Action ι} (hi : Inv net user_name s)
    (h : (system net user_name).step s a = some t) : Inv net user_name t := by
  change step net user_name s a = some t at h
  cases a with
  | node a =>
    obtain ⟨nodes, hnodes, rfl⟩ := Option.map_eq_some_iff.mp h
    refine ⟨NameServer.inv_step hi.nodes hnodes, hi.chats, fun m c hc => ?_⟩
    have huses := hi.uses m c hc
    dsimp only
    rw [node_settled hnodes huses.1]
    exact huses
  | chat m a =>
    rw [step] at h
    split_ifs at h with hallow
    obtain ⟨chat, hchat, rfl⟩ := Option.map_eq_some_iff.mp h
    exact inv_chat hi hallow hchat

theorem inv_of_exec {as : List (Action ι)}
    (h : (system net user_name).exec (system net user_name).init as = some s) :
    Inv net user_name s :=
  (System.always_of_step inv_init (fun _ _ _ => inv_step) as).last h

omit [DecidableEq ι] in
/-- The users that a database knows, in the order their requests were received. -/
theorem stored_users {cfg : UserDb.Config ι} {u : UserDb.State ι} (hu : UserDb.Inv cfg u) :
    ∃ users : List ι, users.Nodup ∧ (∀ c ∈ users, (u.clients c).pc ≠ .start) ∧
      (∀ c, (u.clients c).pc = .chatting → c ∈ users) ∧ u.server.user_db = users.map cfg.entry := by
  refine ⟨u.received.map Prod.fst, ?_, fun c hc => (hu.sent c).mp ?_, hu.chatting, ?_⟩
  · have honce := hu.once
    rw [List.map_append] at honce
    exact honce.of_append_right
  · rw [List.map_append]
    exact List.mem_append_right _ hc
  · rw [hu.stored, List.map_map]
    exact List.map_congr_left fun m hm => hu.entries m (List.mem_append_right _ hm)

theorem Inv.law (hi : Inv net user_name s) : ProgramLaw net user_name s where
  chats m := (hi.chats m).law
  uses m c hc := ⟨serverMode_of_uses hi.nodes (hi.uses m c hc), hi.uses m c hc⟩
  one m n c hm hn :=
    ip_addr_injective net ((hi.uses m c hm).2.symm.trans (hi.uses n c hn).2)
  stored m := stored_users (hi.chats m).db
  heard m c := by
    obtain ⟨l, hgot, hpushed, -⟩ := (hi.chats m).heard c
    refine ⟨l, hgot, fun x hx => ?_⟩
    have hmem := (hpushed x.1).subset (Pipes.mem_cameFrom.mpr hx)
    have hchat := (hi.chats m).db.pushed x.1 (List.ne_nil_of_mem hmem)
    exact ⟨hmem, hi.uses m x.1 (by simp [TakesPart, hchat])⟩

/-- **The p2p program**: the law holds in every state of every run of any nodes of one /24. -/
theorem program_law (net : Network ι) (user_name : ι → CString) (as : List (Action ι)) :
    (system net user_name).Always (ProgramLaw net user_name) as :=
  (System.always_of_step inv_init (fun _ _ _ => inv_step) as).imp fun _ => Inv.law

/-! ### Runs with one chat -/

def Action.inNodes : Action ι → Option (NameServer.Action ι)
  | .node a => some a
  | .chat _ _ => none

/-- The nodes of a run make a run of their own. -/
theorem nodes_exec {as : List (Action ι)}
    (h : (system net user_name).exec (system net user_name).init as = some s) :
    (NameServer.system net).exec (NameServer.system net).init (as.filterMap Action.inNodes) =
      some s.nodes := by
  refine System.exec_induction (T := system net user_name) (P := fun as s =>
    (NameServer.system net).exec (NameServer.system net).init (as.filterMap Action.inNodes) =
      some s.nodes) rfl ?_ h
  intro as r a t _ ih ht
  change step net user_name r a = some t at ht
  rw [List.filterMap_append, System.exec_append, ih, Option.bind_some]
  cases a with
  | node a =>
    obtain ⟨nodes, hnodes, rfl⟩ := Option.map_eq_some_iff.mp ht
    exact System.exec_one hnodes
  | chat m a =>
    rw [step] at ht
    split_ifs at ht
    obtain ⟨chat, -, rfl⟩ := Option.map_eq_some_iff.mp ht
    rfl

/-- **One chat**: in a run in which no search times out before it could hear every name server there
was, all users that take part in a chat take part in the same one. -/
theorem one_chat (net : Network ι) (user_name : ι → CString) (as : List (Action ι))
    (h : SearchesHear net (as.filterMap Action.inNodes)) :
    (system net user_name).Always OneChat as := by
  intro pre hpre s hs m n c d hc hd
  have hi := inv_of_exec hs
  have hhear := h.of_prefix (hpre.filterMap Action.inNodes)
  exact NameServer.one_of_searchesHear hhear (nodes_exec hs) m n
    (serverMode_of_uses hi.nodes (hi.uses m c hc)) (serverMode_of_uses hi.nodes (hi.uses n d hd))

/-- The first of two hosts becomes the server, and then the second one searches and hears it. -/
def oneAfterTheOther : List (Action Bool) :=
  [.node (.startSearch false), .node (.timeout false), .node (.startThreads false),
    .chat false (.sendRequest false), .chat false (.recvRequest 0), .node (.startSearch true),
    .node (.publish false), .node (.recvBeacon true), .chat false (.sendRequest true)]

/-- There is no server yet when the only search that times out does. -/
theorem searchesHear_oneAfterTheOther :
    SearchesHear NameServer.twoHosts (oneAfterTheOther.filterMap Action.inNodes) := by
  intro p n hp s t hs _ m hm
  obtain ⟨q, hq⟩ := hp
  rcases p with _ | ⟨a, _ | ⟨b, p⟩⟩
  · simp [oneAfterTheOther, Action.inNodes] at hq
  · -- after the first step a node searches, and the other has not started
    obtain ⟨rfl, -⟩ : NameServer.Action.startSearch false = a ∧ _ := by
      simpa [oneAfterTheOther, Action.inNodes, eq_comm] using hq
    rw [System.exec_cons, NameServer.step_startSearch rfl] at hs
    obtain rfl := Option.some.inj hs
    obtain ⟨threads, hm⟩ := hm
    cases m <;> simp [NameServer.system] at hm
  · have hmem : NameServer.Action.timeout n ∈ (oneAfterTheOther.filterMap Action.inNodes).drop 2 := by
      rw [← hq]
      simp
    simp [oneAfterTheOther, Action.inNodes] at hmem

/-- The users of the two hosts are called `a` and `b`. -/
def twoNames (second : Bool) : CString := ⟨[if second then 98 else 97], by revert second; decide⟩

theorem one_chat_oneAfterTheOther :
    (system NameServer.twoHosts twoNames).Always OneChat oneAfterTheOther :=
  one_chat NameServer.twoHosts twoNames oneAfterTheOther searchesHear_oneAfterTheOther

end Fssn.P2p.Program
