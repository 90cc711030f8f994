import Mathlib.Logic.Function.Basic
import Fssn.Lib.Transition
import Fssn.P2p.Dechat

/-!
# Fssn.P2p.NameServer — how the p2p nodes choose their name server

Every node searches for a name server first and becomes one when its search times out.  A name
server publishes its first beacon one second after it has started its threads; nothing makes two
nodes that search at the same time agree.

`singleServer_iff`: a run has a single name server exactly if no search times out before it could
hear every name server there was.
-/

namespace Fssn.P2p.NameServer

open Fssn.Lib

/-- The nodes of the chat, with different addresses in one /24. -/
structure Network (ι : Type*) where
  ip : ι → Ip
  ip_injective : Function.Injective ip
  one_subnet : ∀ m n, (ip m).mask = (ip n).mask

/-- Where `main` stands.  A search has its mask and the beacons that were delivered to it; a server
has started its threads or not. -/
inductive Phase
  | start
  | searching (ip_mask : Bytes) (inbox : List Bytes)
  | server (threads : Bool)
  | client

structure Node where
  phase : Phase
  ip_addr_p2p_server : Bytes

/-- What `main` does with the result of its search. -/
def Node.found (ip_addr name_server_ip_addr : Bytes) : Node :=
  if name_server_ip_addr = [] then ⟨.server false, ip_addr⟩ else ⟨.client, name_server_ip_addr⟩

/-- A publication reaches the searches that are connected to its endpoint and whose subscription it
matches. -/
def Node.hear (endpoint msg : Bytes) (v : Node) : Node :=
  match v.phase with
  | .searching ip_mask inbox =>
    if endpoint ∈ searchEndpoints ip_mask ∧ subscription <+: msg then
      { v with phase := .searching ip_mask (inbox ++ [msg]) }
    else v
  | _ => v

inductive Action (ι : Type*)
  | startSearch (n : ι)
  | recvBeacon (n : ι)
  | timeout (n : ι)
  | startThreads (n : ι)
  | publish (n : ι)

variable {ι : Type*} [DecidableEq ι] (net : Network ι)

/-- The local address of a node. -/
def Network.ip_addr (n : ι) : Bytes := (net.ip n).dotted

/-- One step of one node.  A search times out only if nothing was delivered to it. -/
def step (s : ι → Node) (a : Action ι) : Option (ι → Node) :=
  match a with
  | .startSearch n =>
    match (s n).phase with
    | .start => (ipMask (net.ip_addr n)).map fun ip_mask =>
        Function.update s n { s n with phase := .searching ip_mask [] }
    | _ => none
  | .recvBeacon n =>
    match (s n).phase with
    | .searching _ (msg :: _) => (searchResult msg).map fun r =>
        Function.update s n (.found (net.ip_addr n) r)
    | _ => none
  | .timeout n =>
    match (s n).phase with
    | .searching _ [] => (searchResult []).map fun r =>
        Function.update s n (.found (net.ip_addr n) r)
    | _ => none
  | .startThreads n =>
    match (s n).phase with
    | .server false => some (Function.update s n { s n with phase := .server true })
    | _ => none
  | .publish n =>
    match (s n).phase with
    | .server true =>
      some fun k => (s k).hear (bindEndpoint (net.ip_addr n)) (beaconMessage (net.ip_addr n))
    | _ => none

/-- The nodes, before any of them has searched. -/
def system : System (ι → Node) (Action ι) where
  init _ := ⟨.start, []⟩
  step := step net

/-! ### The law -/

/-- The node is in p2p server mode. -/
def ServerMode (v : Node) : Prop := ∃ threads, v.phase = .server threads

/-- The node has finished its start-up, as server or as client. -/
def Finished (v : Node) : Prop := ServerMode v ∨ v.phase = .client

/-- At most one node is in server mode, and all nodes that have finished use the same server. -/
structure SingleServer (s : ι → Node) : Prop where
  one : ∀ m n, ServerMode (s m) → ServerMode (s n) → m = n
  same : ∀ m n, Finished (s m) → Finished (s n) →
    (s m).ip_addr_p2p_server = (s n).ip_addr_p2p_server

/-- When a search in the run times out, every node then in server mode is one the search connects to
(its last number is at most 254) and has published a beacon since the search began. -/
def SearchesHear (as : List (Action ι)) : Prop :=
  ∀ p n, p ++ [.timeout n] <+: as → ∀ s t, (system net).exec (system net).init p = some s →
    (system net).step s (.timeout n) = some t → ∀ m, ServerMode (s m) →
    (net.ip m).d.toNat ≤ 254 ∧ After p (.startSearch n) (.publish m)

/-! ### What a step can do -/

/-- A step, with the node it changes and the phases before and after. -/
inductive Move (s : ι → Node) : Action ι → (ι → Node) → Prop
  | startSearch (n : ι) (hn : (s n).phase = .start) :
      Move s (.startSearch n)
        (Function.update s n { s n with phase := .searching (net.ip n).mask [] })
  | recvBeacon (n : ι) (ip_mask msg : Bytes) (inbox : List Bytes) (r : Bytes)
      (hn : (s n).phase = .searching ip_mask (msg :: inbox)) (hr : searchResult msg = some r) :
      Move s (.recvBeacon n) (Function.update s n (.found (net.ip_addr n) r))
  | timeout (n : ι) (ip_mask : Bytes) (hn : (s n).phase = .searching ip_mask []) :
      Move s (.timeout n) (Function.update s n ⟨.server false, net.ip_addr n⟩)
  | startThreads (n : ι) (hn : (s n).phase = .server false) :
      Move s (.startThreads n) (Function.update s n { s n with phase := .server true })
  | publish (n : ι) (hn : (s n).phase = .server true) :
      Move s (.publish n)
        fun k => (s k).hear (bindEndpoint (net.ip_addr n)) (beaconMessage (net.ip_addr n))

variable {net} {s t : ι → Node} {as : List (Action ι)}

theorem step_move {a : Action ι} (h : (system net).step s a = some t) : Move net s a t := by
  change step net s a = some t at h
  cases a with
  | startSearch n =>
    rw [step] at h
    split at h
    · rename_i hn
      rw [Network.ip_addr, ipMask_dotted] at h
      cases h
      exact .startSearch n hn
    · exact absurd h (by simp)
  | recvBeacon n =>
    rw [step] at h
    split at h
    · rename_i ip_mask msg inbox hn
      obtain ⟨r, hr, heq⟩ := Option.map_eq_some_iff.mp h
      cases heq
      exact .recvBeacon n ip_mask msg inbox r hn hr
    · exact absurd h (by simp)
  | timeout n =>
    rw [step] at h
    split at h
    · rename_i ip_mask hn
      cases h
      exact .timeout n ip_mask hn
    · exact absurd h (by simp)
  | startThreads n =>
    rw [step] at h
    split at h
    · rename_i hn
      cases h
      exact .startThreads n hn
    · exact absurd h (by simp)
  | publish n =>
    rw [step] at h
    split at h
    · rename_i hn
      cases h
      exact .publish n hn
    · exact absurd h (by simp)

/-! ### The invariant of every run -/

theorem hear_cases (endpoint msg : Bytes) (v : Node) : v.hear endpoint msg = v ∨
    ∃ ip_mask inbox, v.phase = .searching ip_mask inbox ∧
      v.hear endpoint msg = { v with phase := .searching ip_mask (inbox ++ [msg]) } := by
  unfold Node.hear
  split
  · rename_i ip_mask inbox hv
    split_ifs
    · exact Or.inr ⟨ip_mask, inbox, hv, rfl⟩
    · exact Or.inl rfl
  · exact Or.inl rfl

theorem hear_serverMode (endpoint msg : Bytes) (v : Node) :
    ServerMode (v.hear endpoint msg) ↔ ServerMode v := by
  rcases hear_cases endpoint msg v with h | ⟨ip_mask, inbox, hv, h⟩
  · rw [h]
  · simp [h, ServerMode, hv]

/-- What a node's record says about the servers `S`: beacons in it are theirs, and so is the server
that a client uses. -/
def NodeOk (net : Network ι) (S : ι → Prop) (n : ι) (v : Node) : Prop :=
  match v.phase with
  | .start => True
  | .searching ip_mask inbox => ip_mask = (net.ip n).mask ∧
      ∀ msg ∈ inbox, ∃ m, S m ∧ msg = beaconMessage (net.ip_addr m)
  | .server _ => v.ip_addr_p2p_server = net.ip_addr n
  | .client => ∃ m, S m ∧ v.ip_addr_p2p_server = net.ip_addr m

omit [DecidableEq ι] in
theorem NodeOk.mono {S S' : ι → Prop} {n : ι} {v : Node} (h : NodeOk net S n v)
    (hS : ∀ m, S m → S' m) : NodeOk net S' n v := by
  unfold NodeOk at *
  split at h
  · trivial
  · exact ⟨h.1, fun msg hmsg => (h.2 msg hmsg).imp fun m hm => ⟨hS m hm.1, hm.2⟩⟩
  · exact h
  · exact h.imp fun m hm => ⟨hS m hm.1, hm.2⟩

/-- Holds in every reachable state. -/
def Inv (net : Network ι) (s : ι → Node) : Prop :=
  ∀ n, NodeOk net (fun m => ServerMode (s m)) n (s n)

theorem update_serverMode {n : ι} {v : Node} (hkeep : ServerMode (s n) → ServerMode v) (m : ι)
    (hm : ServerMode (s m)) : ServerMode (Function.update s n v m) := by
  by_cases hmn : m = n
  · subst hmn
    rw [Function.update_self]
    exact hkeep hm
  · rwa [Function.update_of_ne hmn]

theorem inv_update (hi : Inv net s) {n : ι} {v : Node} (hkeep : ServerMode (s n) → ServerMode v)
    (hok : NodeOk net (fun m => ServerMode (Function.update s n v m)) n v) :
    Inv net (Function.update s n v) := by
  intro k
  by_cases hk : k = n
  · subst hk
    rw [Function.update_self]
    exact hok
  · rw [Function.update_of_ne hk]
    exact (hi k).mono fun m => update_serverMode hkeep m

omit [DecidableEq ι] in
/-- What a search that receives a beacon learns is the address of a server. -/
theorem recvBeacon_result (hi : Inv net s) {n : ι} {ip_mask msg r : Bytes} {inbox : List Bytes}
    (hn : (s n).phase = .searching ip_mask (msg :: inbox)) (hr : searchResult msg = some r) :
    ∃ m, ServerMode (s m) ∧ Node.found (net.ip_addr n) r = ⟨.client, net.ip_addr m⟩ := by
  have hok := hi n
  rw [NodeOk, hn] at hok
  obtain ⟨m, hm, rfl⟩ := hok.2 msg List.mem_cons_self
  rw [Network.ip_addr, searchResult_beacon] at hr
  cases hr
  exact ⟨m, hm, if_neg (dotted_ne_nil _)⟩

theorem inv_step {a : Action ι} (hi : Inv net s) (h : (system net).step s a = some t) :
    Inv net t := by
  cases step_move h with
  | startSearch n hn =>
    refine inv_update hi ?_ ⟨rfl, fun _ hmsg => absurd hmsg List.not_mem_nil⟩
    rintro ⟨threads, hth⟩
    exact absurd (hn.symm.trans hth) (by simp)
  | recvBeacon n ip_mask msg inbox r hn hr =>
    obtain ⟨m, hm, heq⟩ := recvBeacon_result hi hn hr
    have hkeep : ServerMode (s n) → ServerMode (Node.found (net.ip_addr n) r) := by
      rintro ⟨threads, hth⟩
      exact absurd (hn.symm.trans hth) (by simp)
    refine inv_update hi hkeep ?_
    have hm' := update_serverMode hkeep m hm
    rw [heq] at hm' ⊢
    exact ⟨m, hm', rfl⟩
  | timeout n ip_mask hn => exact inv_update hi (fun _ => ⟨false, rfl⟩) rfl
  | startThreads n hn =>
    refine inv_update hi (fun _ => ⟨true, rfl⟩) ?_
    have hok := hi n
    rw [NodeOk, hn] at hok
    exact hok
  | publish n hn =>
    intro k
    have hmono : ∀ m, ServerMode (s m) → ServerMode
        ((s m).hear (bindEndpoint (net.ip_addr n)) (beaconMessage (net.ip_addr n))) :=
      fun m => (hear_serverMode _ _ _).mpr
    have hok := (hi k).mono hmono
    dsimp only
    rcases hear_cases (bindEndpoint (net.ip_addr n)) (beaconMessage (net.ip_addr n)) (s k) with
      heq | ⟨ip_mask, inbox, hk, heq⟩
    · rw [heq]
      exact hok
    · rw [heq]
      rw [NodeOk, hk] at hok
      refine ⟨hok.1, fun msg hmsg => ?_⟩
      rcases List.mem_append.mp hmsg with hmsg | hmsg
      · exact hok.2 msg hmsg
      · exact ⟨n, hmono n ⟨true, hn⟩, List.mem_singleton.mp hmsg⟩

theorem inv_init : Inv net (system net).init := fun _ => True.intro

theorem inv_of_exec (h : (system net).exec (system net).init as = some s) : Inv net s :=
  (System.always_of_step inv_init (fun _ _ _ => inv_step) as).last h

/-- A node in server mode was in server mode before, or its search has just timed out. -/
theorem serverMode_of_step {a : Action ι} (hi : Inv net s) (h : (system net).step s a = some t)
    {k : ι} (hk : ServerMode (t k)) : ServerMode (s k) ∨ a = .timeout k := by
  -- the one node a step changes
  have hupd : ∀ (n : ι) (v : Node), ServerMode (Function.update s n v k) →
      (ServerMode v → ServerMode (s n) ∨ a = .timeout n) → ServerMode (s k) ∨ a = .timeout k := by
    intro n v hk hv
    by_cases hkn : k = n
    · subst hkn
      rw [Function.update_self] at hk
      exact hv hk
    · rw [Function.update_of_ne hkn] at hk
      exact Or.inl hk
  cases step_move h with
  | startSearch n hn => exact hupd n _ hk fun ⟨_, hth⟩ => absurd hth (by simp)
  | recvBeacon n ip_mask msg inbox r hn hr =>
    obtain ⟨m, -, heq⟩ := recvBeacon_result hi hn hr
    rw [heq] at hk
    exact hupd n _ hk fun ⟨_, hth⟩ => absurd hth (by simp)
  | timeout n ip_mask hn => exact hupd n _ hk fun _ => Or.inr rfl
  | startThreads n hn => exact hupd n _ hk fun _ => Or.inl ⟨false, hn⟩
  | publish n hn => exact Or.inl ((hear_serverMode _ _ _).mp hk)

omit [DecidableEq ι] in
/-- One server is enough for all nodes to use the same one. -/
theorem singleServer_of_one (hi : Inv net s)
    (hone : ∀ m n, ServerMode (s m) → ServerMode (s n) → m = n) : SingleServer s := by
  have huse : ∀ n, Finished (s n) →
      ∃ m, ServerMode (s m) ∧ (s n).ip_addr_p2p_server = net.ip_addr m := by
    intro n hn
    have hok := hi n
    rcases hn with ⟨threads, hth⟩ | hcl
    · rw [NodeOk, hth] at hok
      exact ⟨n, ⟨threads, hth⟩, hok⟩
    · rw [NodeOk, hcl] at hok
      exact hok
  refine ⟨hone, fun m n hm hn => ?_⟩
  obtain ⟨i, hi, hmi⟩ := huse m hm
  obtain ⟨j, hj, hnj⟩ := huse n hn
  rw [hmi, hnj, hone i j hi hj]

/-! ### What a search has heard -/

/-- In the run `as` to `s`: a node that has not started has taken no step, and a search has something
delivered to it as soon as a name server it connects to has published since it began. -/
structure Heard (net : Network ι) (as : List (Action ι)) (s : ι → Node) : Prop where
  fresh : ∀ n, (s n).phase = .start → .startSearch n ∉ as
  inbox : ∀ n ip_mask, (s n).phase = .searching ip_mask [] → ∀ m, (net.ip m).d.toNat ≤ 254 →
    ¬ After as (.startSearch n) (.publish m)

/-- A step that neither publishes nor starts a search keeps what the others have heard. -/
theorem heard_update {a : Action ι} {n : ι} {v : Node} (h : Heard net as s)
    (hpub : ∀ m, a ≠ .publish m) (hstart : ∀ m, a ≠ .startSearch m)
    (hv : v.phase ≠ .start ∧ ∀ ip_mask, v.phase ≠ .searching ip_mask []) :
    Heard net (as ++ [a]) (Function.update s n v) := by
  have hother : ∀ k, (Function.update s n v k).phase = .start ∨
      (∃ ip_mask, (Function.update s n v k).phase = .searching ip_mask []) →
      Function.update s n v k = s k := by
    intro k hk
    by_cases hkn : k = n
    · subst hkn
      rw [Function.update_self] at hk
      rcases hk with hk | ⟨ip_mask, hk⟩
      · exact absurd hk hv.1
      · exact absurd hk (hv.2 ip_mask)
    · exact Function.update_of_ne hkn _ _
  refine ⟨fun k hk hmem => ?_, fun k ip_mask hk m hm haf => ?_⟩
  · rw [hother k (Or.inl hk)] at hk
    rcases List.mem_append.mp hmem with hmem | hmem
    · exact h.fresh k hk hmem
    · exact hstart k (List.mem_singleton.mp hmem).symm
  · rw [hother k (Or.inr ⟨ip_mask, hk⟩)] at hk
    rcases after_concat.mp haf with haf | ⟨-, hpm⟩
    · exact h.inbox k ip_mask hk m hm haf
    · exact hpub m hpm

/-- A node starts its search once, and the new search has missed nothing. -/
theorem heard_startSearch {n : ι} {v : Node} {ip_mask : Bytes} (h : Heard net as s)
    (hn : (s n).phase = .start) (hv : v.phase = .searching ip_mask []) :
    Heard net (as ++ [.startSearch n]) (Function.update s n v) := by
  refine ⟨fun k hk hmem => ?_, fun k ip_mask hk m hm haf => ?_⟩
  · by_cases hkn : k = n
    · subst hkn
      rw [Function.update_self, hv] at hk
      exact absurd hk (by simp)
    · rw [Function.update_of_ne hkn] at hk
      rcases List.mem_append.mp hmem with hmem | hmem
      · exact h.fresh k hk hmem
      · exact hkn (Action.startSearch.inj (List.mem_singleton.mp hmem))
  · rcases after_concat.mp haf with hbefore | ⟨-, heq⟩
    · by_cases hkn : k = n
      · subst hkn
        obtain ⟨p, q, hpq, -⟩ := hbefore
        have hmem : Action.startSearch k ∈ as := by
          rw [hpq]
          exact List.mem_append_right _ List.mem_cons_self
        exact absurd hmem (h.fresh k hn)
      · rw [Function.update_of_ne hkn] at hk
        exact h.inbox k ip_mask hk m hm hbefore
    · exact absurd heq (by simp)

omit [DecidableEq ι] in
/-- A search with an empty inbox has not heard a publication, so it is not connected to its
endpoint. -/
theorem deaf_of_empty {k n : ι} {ip_mask : Bytes} (hi : Inv net s)
    (hk : (s k).phase = .searching ip_mask [])
    (heq : (s k).hear (bindEndpoint (net.ip_addr n)) (beaconMessage (net.ip_addr n)) = s k) :
    ¬ (net.ip n).d.toNat ≤ 254 := by
  intro hd
  have hok := hi k
  rw [NodeOk, hk] at hok
  have hmem : bindEndpoint (net.ip_addr n) ∈ searchEndpoints ip_mask :=
    (bindEndpoint_mem_iff ((net.one_subnet n k).trans hok.1.symm)).mpr hd
  rw [Node.hear, hk] at heq
  dsimp only at heq
  rw [if_pos ⟨hmem, subscription_prefix _⟩] at heq
  have hphase := congrArg Node.phase heq
  rw [hk] at hphase
  exact absurd hphase (by simp)

omit [DecidableEq ι] in
/-- A publication is delivered to the searches that are connected to its publisher. -/
theorem heard_publish {n : ι} (hi : Inv net s) (h : Heard net as s) :
    Heard net (as ++ [.publish n])
      fun k => (s k).hear (bindEndpoint (net.ip_addr n)) (beaconMessage (net.ip_addr n)) := by
  refine ⟨fun k hk hmem => ?_, fun k ip_mask hk m hm haf => ?_⟩
  · rcases hear_cases (bindEndpoint (net.ip_addr n)) (beaconMessage (net.ip_addr n)) (s k) with
      heq | ⟨ip_mask, inbox, -, heq⟩
    · rw [heq] at hk
      rcases List.mem_append.mp hmem with hmem | hmem
      · exact h.fresh k hk hmem
      · exact absurd (List.mem_singleton.mp hmem) (by simp)
    · rw [heq] at hk
      exact absurd hk (by simp)
  · rcases hear_cases (bindEndpoint (net.ip_addr n)) (beaconMessage (net.ip_addr n)) (s k) with
      heq | ⟨ip_mask', inbox, -, heq⟩
    · rw [heq] at hk
      rcases after_concat.mp haf with haf | ⟨-, hnm⟩
      · exact h.inbox k ip_mask hk m hm haf
      · obtain rfl := Action.publish.inj hnm
        exact deaf_of_empty hi hk heq hm
    · rw [heq] at hk
      exact absurd hk (by simp)

theorem heard_step {a : Action ι} (hi : Inv net s) (h : Heard net as s)
    (hs : (system net).step s a = some t) : Heard net (as ++ [a]) t := by
  cases step_move hs with
  | startSearch n hn => exact heard_startSearch h hn rfl
  | recvBeacon n ip_mask msg inbox r hn hr =>
    obtain ⟨m, -, heq⟩ := recvBeacon_result hi hn hr
    exact heard_update h (by simp) (by simp) (by simp [heq])
  | timeout n ip_mask hn => exact heard_update h (by simp) (by simp) (by simp)
  | startThreads n hn => exact heard_update h (by simp) (by simp) (by simp)
  | publish n hn => exact heard_publish hi h

theorem heard_of_exec (h : (system net).exec (system net).init as = some s) : Heard net as s := by
  refine System.exec_induction (T := system net) (P := fun as s => Heard net as s) ?_ ?_ h
  · exact ⟨fun _ _ hmem => absurd hmem List.not_mem_nil, fun _ _ hn => absurd hn (by simp [system])⟩
  · exact fun as r a t hr ih ht => heard_step (inv_of_exec hr) ih ht

/-! ### Runs with a single server -/

theorem SearchesHear.of_prefix {bs : List (Action ι)} (h : SearchesHear net bs) (hp : as <+: bs) :
    SearchesHear net as :=
  fun p n hpn => h p n (hpn.trans hp)

/-- A search that times out has heard of no server, so there is none. -/
theorem one_of_searchesHear (hh : SearchesHear net as)
    (hs : (system net).exec (system net).init as = some s) :
    ∀ m n, ServerMode (s m) → ServerMode (s n) → m = n := by
  refine System.exec_induction (T := system net) (P := fun as s => SearchesHear net as →
    ∀ m n, ServerMode (s m) → ServerMode (s n) → m = n) ?_ ?_ hs hh
  · rintro - m n ⟨_, hm⟩
    exact absurd hm (by simp [system])
  · intro as r a t hr ih ht hh m n hm hn
    have hone := ih (hh.of_prefix (List.prefix_append as [a]))
    -- a timeout leaves no room for another server
    have hnone : ∀ k, a = .timeout k → ∀ j, ¬ ServerMode (r j) := by
      rintro k rfl j hj
      obtain ⟨hd, haf⟩ := hh as k (List.prefix_refl _) r t hr ht j hj
      cases step_move ht with
      | timeout _ ip_mask hk => exact (heard_of_exec hr).inbox k ip_mask hk j hd haf
    have hi := inv_of_exec hr
    rcases serverMode_of_step hi ht hm with hm | hm
    · rcases serverMode_of_step hi ht hn with hn | hn
      · exact hone m n hm hn
      · exact absurd hm (hnone n hn m)
    · rcases serverMode_of_step hi ht hn with hn | hn
      · exact absurd hn (hnone m hm n)
      · exact Action.timeout.inj (hm.symm.trans hn)

theorem searchesHear_of_singleServer (h : (system net).Always SingleServer as) :
    SearchesHear net as := by
  intro p n hpre s t hs ht m hm
  exfalso
  have hexec : (system net).exec (system net).init (p ++ [.timeout n]) = some t := by
    rw [System.exec_concat, hs]
    exact ht
  have hone := (h _ hpre t hexec).one
  cases step_move ht with
  | timeout _ ip_mask hn =>
    have hnt : ServerMode (Function.update s n ⟨.server false, net.ip_addr n⟩ n) := by
      rw [Function.update_self]
      exact ⟨false, rfl⟩
    have hmn : m = n := hone m n (update_serverMode (fun _ => ⟨false, rfl⟩) m hm) hnt
    obtain ⟨threads, hth⟩ := hmn ▸ hm
    exact absurd (hn.symm.trans hth) (by simp)

/-- **Single name server**: in all states of a run at most one node is in server mode and all nodes
that have finished use the same server, exactly if no search in it times out before it could hear
every name server there was. -/
theorem singleServer_iff (net : Network ι) (as : List (Action ι)) :
    (system net).Always SingleServer as ↔ SearchesHear net as := by
  constructor
  · exact searchesHear_of_singleServer
  · intro hh pre hpre s hs
    exact singleServer_of_one (inv_of_exec hs) (one_of_searchesHear (hh.of_prefix hpre) hs)

theorem step_startSearch {n : ι} (hn : (s n).phase = .start) :
    (system net).step s (.startSearch n) =
      some (Function.update s n { s n with phase := .searching (net.ip n).mask [] }) := by
  show step net s (.startSearch n) = _
  rw [step, hn, Network.ip_addr, ipMask_dotted]
  rfl

theorem step_timeout {n : ι} {ip_mask : Bytes} (hn : (s n).phase = .searching ip_mask []) :
    (system net).step s (.timeout n) =
      some (Function.update s n ⟨.server false, net.ip_addr n⟩) := by
  show step net s (.timeout n) = _
  rw [step, hn]
  rfl

/-- Two nodes may search at the same time, and then each becomes a server. -/
theorem exec_race (net : Network ι) {m n : ι} (hmn : m ≠ n) :
    ∃ s t,
      (system net).exec (system net).init [.startSearch m, .startSearch n, .timeout m] = some s ∧
      (system net).step s (.timeout n) = some t ∧ ServerMode (s m) := by
  let s₁ : ι → Node := Function.update (fun _ => ⟨.start, []⟩) m ⟨.searching (net.ip m).mask [], []⟩
  let s₂ : ι → Node := Function.update s₁ n ⟨.searching (net.ip n).mask [], []⟩
  let s₃ : ι → Node := Function.update s₂ m ⟨.server false, net.ip_addr m⟩
  have h₁ : (system net).step (system net).init (.startSearch m) = some s₁ := step_startSearch rfl
  have h₁n : s₁ n = ⟨.start, []⟩ := Function.update_of_ne hmn.symm _ _
  have h₂ : (system net).step s₁ (.startSearch n) = some s₂ := by
    rw [step_startSearch (by rw [h₁n]), h₁n]
  have h₂m : s₂ m = ⟨.searching (net.ip m).mask [], []⟩ :=
    (Function.update_of_ne hmn _ _).trans (Function.update_self _ _ _)
  have h₃ : (system net).step s₂ (.timeout m) = some s₃ := step_timeout (by rw [h₂m])
  have h₃n : s₃ n = ⟨.searching (net.ip n).mask [], []⟩ :=
    (Function.update_of_ne hmn.symm _ _).trans (Function.update_self _ _ _)
  have h₃m : s₃ m = ⟨.server false, net.ip_addr m⟩ := Function.update_self _ _ _
  refine ⟨s₃, _, ?_, step_timeout (by rw [h₃n]), false, by rw [h₃m]⟩
  rw [System.exec_cons, h₁, Option.bind_some, System.exec_cons, h₂, Option.bind_some,
    System.exec_cons, h₃]
  rfl

/-- The hosts 192.168.0.1 and 192.168.0.2. -/
def twoHosts : Network Bool where
  ip second := ⟨192, 168, 0, if second then 2 else 1⟩
  ip_injective := by
    intro a b
    revert a b
    decide
  one_subnet _ _ := rfl

/-- Two nodes that are started together both become name servers. -/
theorem not_always_singleServer : ¬ ∀ as, (system twoHosts).Always SingleServer as := by
  intro h
  have hmn : false ≠ true := by decide
  obtain ⟨s, t, hs, ht, hserver⟩ := exec_race twoHosts hmn
  have hhear := searchesHear_of_singleServer
    (h [.startSearch false, .startSearch true, .timeout false, .timeout true])
  obtain ⟨-, p, q, hpq, hmem⟩ := hhear [.startSearch false, .startSearch true, .timeout false] true
    (List.prefix_refl _) s t hs ht false hserver
  have hpub : Action.publish false ∈
      [Action.startSearch false, Action.startSearch true, Action.timeout false] := by
    rw [hpq]
    exact List.mem_append_right _ (List.mem_cons_of_mem _ hmem)
  simp at hpub

end Fssn.P2p.NameServer
