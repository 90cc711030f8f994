import Mathlib.Logic.Function.Basic
import Fssn.Lib.Decimal
import Fssn.Lib.TokenFlow
import Fssn.Lib.Transition

/-!
# Fssn.Zmq.DealerRouter — the asynchronous dealer-router server and its clients

`lec-05-prg-09` and `lec-05-prg-10`.  A client numbers its requests; the server's ROUTER puts the
client's identity in front; a proxy hands the message to one of the workers; a worker receives the
two parts one after the other and sends them back; the ROUTER takes the identity off and routes the
reply by it.

Every message part carries its `origin`, the request it belongs to.  Over the queues lies the view
of `TokenFlow`: each request is a token, and every step moves at most one token (`Rep`).
-/

namespace Fssn.Zmq.DealerRouter

open Fssn.Lib

/-- A message part; `origin` says whose request it belongs to and which one, and is not sent. -/
structure Frame (ι : Type*) where
  data : Bytes
  origin : ι × ℕ

/-- One `recv`: the next part of the messages that have arrived. -/
def recvFrame {α : Type*} : List (List α) → Option (α × List (List α))
  | [f] :: ms => some (f, ms)
  | (f :: g :: fs) :: ms => some (f, (g :: fs) :: ms)
  | _ => none

/-- The text of a client's request. -/
def input (reqs : ℕ) : Bytes := ascii "b'request#" ++ decimal reqs ++ ascii "'"

/-- The clients' names, which they print, the identities they present, by which their connections
differ, and the number of workers. -/
structure Config (ι : Type*) where
  name : ι → Bytes
  identity : ι → Bytes
  identity_injective : Function.Injective identity
  server_num : ℕ

/-- Where a worker stands in its loop, and the parts it holds. -/
inductive Pc (ι : Type*)
  | recvIden
  | recvMsg (iden : Frame ι)
  | sendIden (iden msg : Frame ι)
  | sendMsg (msg : Frame ι)

/-- A worker; `more` are the parts sent with `ZMQ_SNDMORE`. -/
structure Worker (ι : Type*) where
  inbox : List (List (Frame ι))
  pc : Pc ι
  more : List (Frame ι)
  outbox : List (List (Frame ι))
  out : Bytes

/-- A client; `received` are the replies it has printed. -/
structure Client (ι : Type*) where
  reqs : ℕ
  toRouter : List (List (Frame ι))
  toClient : List (List (Frame ι))
  received : List (Frame ι)
  out : Bytes

structure State (ι : Type*) (server_num : ℕ) where
  clients : ι → Client ι
  workers : Fin server_num → Worker ι

/-- The client's `poll` may answer before a reply arrives, so it may send with a reply at hand. -/
inductive Action (ι : Type*) (server_num : ℕ)
  | clientSend (c : ι)
  | clientRecv (c : ι)
  | proxyRequest (c : ι) (w : Fin server_num)
  | work (w : Fin server_num)
  | proxyReply (w : Fin server_num) (c : ι)

variable {ι : Type*}

/-- `ClientTask::start`, the branch that sends. -/
def Client.send (c : ι) (v : Client ι) : Client ι :=
  { v with
    reqs := v.reqs + 1
    toRouter := v.toRouter ++ [[⟨input (v.reqs + 1), (c, v.reqs + 1)⟩]]
    out := v.out ++ ascii "Req #" ++ decimal (v.reqs + 1) ++ ascii " sent... \n" }

/-- `ClientTask::start`, the branch that receives. -/
def Client.recv (name : Bytes) (v : Client ι) : Option (Client ι) :=
  (recvFrame v.toClient).map fun fr =>
    { v with
      toClient := fr.2
      received := v.received ++ [fr.1]
      out := v.out ++ name ++ ascii " received: " ++ fr.1.data ++ ascii "\n" }

/-- `ServerWorker::work`, one statement on the socket. -/
def Worker.work (id : ℕ) (v : Worker ι) : Option (Worker ι) :=
  match v.pc with
  | .recvIden => (recvFrame v.inbox).map fun fr => { v with inbox := fr.2, pc := .recvMsg fr.1 }
  | .recvMsg iden => (recvFrame v.inbox).map fun fr =>
      { v with
        inbox := fr.2
        pc := .sendIden iden fr.1
        out := v.out ++ ascii "Worker#" ++ decimal id ++ ascii " received " ++ fr.1.data ++
          ascii " from '" ++ iden.data ++ ascii "'\n" }
  | .sendIden iden msg => some { v with more := v.more ++ [iden], pc := .sendMsg msg }
  | .sendMsg msg => some { v with more := [], outbox := v.outbox ++ [v.more ++ [msg]], pc := .recvIden }

variable [DecidableEq ι] (cfg : Config ι)

/-- One step of a client, a worker or the proxy. -/
def step (s : State ι cfg.server_num) (a : Action ι cfg.server_num) :
    Option (State ι cfg.server_num) :=
  match a with
  | .clientSend c => some { s with clients := Function.update s.clients c ((s.clients c).send c) }
  | .clientRecv c => ((s.clients c).recv (cfg.name c)).map fun v =>
      { s with clients := Function.update s.clients c v }
  | .proxyRequest c w =>
    match (s.clients c).toRouter with
    | (f :: fs) :: ms =>
      -- the ROUTER prepends the identity of the connection
      some ⟨Function.update s.clients c { s.clients c with toRouter := ms },
        Function.update s.workers w
          { s.workers w with
            inbox := (s.workers w).inbox ++ [⟨cfg.identity c, f.origin⟩ :: f :: fs] }⟩
    | _ => none
  | .work w => ((s.workers w).work w).map fun v =>
      { s with workers := Function.update s.workers w v }
  | .proxyReply w c =>
    match (s.workers w).outbox with
    | (iden :: fs) :: ms =>
      -- the ROUTER strips the identity and routes by it
      if iden.data = cfg.identity c then
        some ⟨Function.update s.clients c
            { s.clients c with toClient := (s.clients c).toClient ++ [fs] },
          Function.update s.workers w { s.workers w with outbox := ms }⟩
      else none
    | _ => none

/-- The server and its clients, before the first request. -/
def system : System (State ι cfg.server_num) (Action ι cfg.server_num) where
  init := ⟨fun c => ⟨0, [], [], [], ascii "Client " ++ cfg.name c ++ ascii " started\n"⟩,
    fun w => ⟨[], .recvIden, [], [], ascii "Worker#" ++ decimal w ++ ascii " started\n"⟩⟩
  step := step cfg

/-! ### The law -/

/-- The parts of a request: the identity that the ROUTER adds, and the text. -/
def idenFrame {ι : Type*} (cfg : Config ι) (o : ι × ℕ) : Frame ι := ⟨cfg.identity o.1, o⟩

def msgFrame {ι : Type*} (o : ι × ℕ) : Frame ι := ⟨input o.2, o⟩

/-- What a worker reads next is the part it takes it for: first an identity, then the text of the
request that the identity came with. -/
def Aligned (v : Worker ι) : Prop :=
  match v.pc with
  | .recvIden => ∀ f ms, recvFrame v.inbox = some (f, ms) → ∃ o, f = idenFrame cfg o
  | .recvMsg iden => ∃ o, iden = idenFrame cfg o ∧
      ∀ f ms, recvFrame v.inbox = some (f, ms) → f = msgFrame o
  | .sendIden iden msg => ∃ o, iden = idenFrame cfg o ∧ msg = msgFrame o
  | .sendMsg _ => True

/-- The replies a client has received are copies of requests it has sent, no two of the same one,
and the workers' reads are aligned with the messages. -/
structure Integrity (s : State ι cfg.server_num) : Prop where
  replies : ∀ c, ∃ ks : List ℕ, (s.clients c).received = ks.map (fun k => msgFrame (c, k)) ∧
    ks.Nodup ∧ ∀ k ∈ ks, 1 ≤ k ∧ k ≤ (s.clients c).reqs
  aligned : ∀ w, Aligned cfg (s.workers w)

/-! ### Requests as tokens -/

/-- The places a request can be in. -/
inductive Place (ι : Type*) (server_num : ℕ)
  | toRouter (c : ι)
  | inbox (w : Fin server_num)
  | busy (w : Fin server_num)
  | outbox (w : Fin server_num)
  | toClient (c : ι)
  | received (c : ι)
deriving DecidableEq

/-- The client a place belongs to. -/
def Place.client {n : ℕ} : Place ι n → Option ι
  | .toRouter c => some c
  | .toClient c => some c
  | .received c => some c
  | _ => none

/-- The worker a place belongs to. -/
def Place.worker {n : ℕ} : Place ι n → Option (Fin n)
  | .inbox w => some w
  | .busy w => some w
  | .outbox w => some w
  | _ => none

/-- What is left of a message whose identity has been received. -/
def unread (pc : Pc ι) (busy : List (ι × ℕ)) : List (List (Frame ι)) :=
  match pc with
  | .recvMsg _ => busy.map fun o => [msgFrame o]
  | _ => []

/-- A worker holds the tokens `inbox`, `busy` and `outbox`. -/
structure WorkerRep (inbox busy outbox : List (ι × ℕ)) (v : Worker ι) : Prop where
  inbox : v.inbox = unread v.pc busy ++ inbox.map fun o => [idenFrame cfg o, msgFrame o]
  busy : match v.pc with
    | .recvIden => busy = [] ∧ v.more = []
    | .recvMsg iden => ∃ o, busy = [o] ∧ iden = idenFrame cfg o ∧ v.more = []
    | .sendIden iden msg => ∃ o, busy = [o] ∧ iden = idenFrame cfg o ∧ msg = msgFrame o ∧ v.more = []
    | .sendMsg msg => ∃ o, busy = [o] ∧ msg = msgFrame o ∧ v.more = [idenFrame cfg o]
  outbox : v.outbox = outbox.map fun o => [idenFrame cfg o, msgFrame o]

/-- A client holds the tokens `toRouter`, `toClient` and `received`. -/
structure ClientRep (toRouter toClient received : List (ι × ℕ)) (v : Client ι) : Prop where
  toRouter : v.toRouter = toRouter.map fun o => [msgFrame o]
  toClient : v.toClient = toClient.map fun o => [msgFrame o]
  received : v.received = received.map msgFrame

/-- The state holds the tokens of `places`. -/
structure Rep (places : Place ι cfg.server_num → List (ι × ℕ)) (s : State ι cfg.server_num) :
    Prop where
  client : ∀ c, ClientRep (places (.toRouter c)) (places (.toClient c)) (places (.received c))
    (s.clients c)
  worker : ∀ w, WorkerRep cfg (places (.inbox w)) (places (.busy w)) (places (.outbox w))
    (s.workers w)
  own : ∀ l c, l.client = some c → ∀ o ∈ places l, o.1 = c

/-- The requests that the clients have sent. -/
def Issued (s : State ι cfg.server_num) (o : ι × ℕ) : Prop :=
  1 ≤ o.2 ∧ o.2 ≤ (s.clients o.1).reqs

/-- Every request that was sent is in exactly one place, and the state is what that makes it. -/
def Inv (s : State ι cfg.server_num) : Prop :=
  ∃ places, Exact places (Issued cfg s) ∧ Rep cfg places s

variable {cfg} {s t : State ι cfg.server_num}

/-! ### Steps on tokens -/

omit [DecidableEq ι] in
/-- A statement of a worker takes a request from its inbox, goes on with the one it has, or puts it
into its outbox. -/
theorem work_rep {id : ℕ} {inbox busy outbox : List (ι × ℕ)} {v v' : Worker ι}
    (h : WorkerRep cfg inbox busy outbox v) (hw : v.work id = some v') :
    (∃ o r, inbox = o :: r ∧ busy = [] ∧ WorkerRep cfg r [o] outbox v') ∨
    WorkerRep cfg inbox busy outbox v' ∨
    (∃ o, busy = [o] ∧ WorkerRep cfg inbox [] (outbox ++ [o]) v') := by
  obtain ⟨hin, hbusy, hout⟩ := h
  unfold Worker.work at hw
  cases hpc : v.pc with
  | recvIden =>
    rw [hpc] at hw hin hbusy
    obtain ⟨rfl, hmore⟩ := hbusy
    obtain ⟨⟨f, ms⟩, hf, rfl⟩ := Option.map_eq_some_iff.mp hw
    cases inbox with
    | nil =>
      rw [hin] at hf
      exact absurd hf (by simp [unread, recvFrame])
    | cons o r =>
      rw [hin] at hf
      obtain ⟨rfl, rfl⟩ : idenFrame cfg o = f ∧ _ = ms := by simpa [unread, recvFrame] using hf
      exact Or.inl ⟨o, r, rfl, rfl, rfl, ⟨o, rfl, rfl, hmore⟩, hout⟩
  | recvMsg iden =>
    rw [hpc] at hw hin hbusy
    obtain ⟨o, rfl, rfl, hmore⟩ := hbusy
    obtain ⟨⟨f, ms⟩, hf, rfl⟩ := Option.map_eq_some_iff.mp hw
    rw [hin] at hf
    obtain ⟨rfl, rfl⟩ : msgFrame o = f ∧ _ = ms := by simpa [unread, recvFrame] using hf
    exact Or.inr (Or.inl ⟨rfl, ⟨o, rfl, rfl, rfl, hmore⟩, hout⟩)
  | sendIden iden msg =>
    rw [hpc] at hw hin hbusy
    obtain ⟨o, rfl, rfl, rfl, hmore⟩ := hbusy
    cases hw
    exact Or.inr (Or.inl ⟨hin, ⟨o, rfl, rfl, by rw [hmore]; rfl⟩, hout⟩)
  | sendMsg msg =>
    rw [hpc] at hw hin hbusy
    obtain ⟨o, rfl, rfl, hmore⟩ := hbusy
    cases hw
    refine Or.inr (Or.inr ⟨o, rfl, hin, ⟨rfl, rfl⟩, ?_⟩)
    dsimp only
    rw [hout, hmore, List.map_append]
    rfl

omit [DecidableEq ι] in
theorem WorkerRep.aligned {inbox busy outbox : List (ι × ℕ)} {v : Worker ι}
    (h : WorkerRep cfg inbox busy outbox v) : Aligned cfg v := by
  obtain ⟨hin, hbusy, -⟩ := h
  unfold Aligned
  cases hpc : v.pc with
  | recvIden =>
    rw [hpc] at hin hbusy
    obtain ⟨rfl, -⟩ := hbusy
    intro f ms hf
    cases inbox with
    | nil =>
      rw [hin] at hf
      exact absurd hf (by simp [unread, recvFrame])
    | cons o r =>
      rw [hin] at hf
      obtain ⟨rfl, -⟩ : idenFrame cfg o = f ∧ _ = ms := by simpa [unread, recvFrame] using hf
      exact ⟨o, rfl⟩
  | recvMsg iden =>
    rw [hpc] at hin hbusy
    obtain ⟨o, rfl, rfl, -⟩ := hbusy
    refine ⟨o, rfl, fun f ms hf => ?_⟩
    rw [hin] at hf
    obtain ⟨rfl, -⟩ : msgFrame o = f ∧ _ = ms := by simpa [unread, recvFrame] using hf
    rfl
  | sendIden iden msg =>
    rw [hpc] at hbusy
    obtain ⟨o, -, rfl, rfl, -⟩ := hbusy
    exact ⟨o, rfl, rfl⟩
  | sendMsg msg => exact trivial

variable {places places' : Place ι cfg.server_num → List (ι × ℕ)}

/-- A step of one client moves tokens between its places only. -/
theorem Rep.client_update (hr : Rep cfg places s) {c : ι} {v : Client ι}
    (hsame : ∀ l, l.client ≠ some c → places' l = places l)
    (hv : ClientRep (places' (.toRouter c)) (places' (.toClient c)) (places' (.received c)) v)
    (hown : ∀ l, l.client = some c → ∀ o ∈ places' l, o.1 = c) :
    Rep cfg places' { s with clients := Function.update s.clients c v } := by
  refine ⟨fun k => ?_, fun w => ?_, fun l k hl => ?_⟩
  · by_cases hk : k = c
    · subst hk
      dsimp only
      rw [Function.update_self]
      exact hv
    · dsimp only
      rw [Function.update_of_ne hk, hsame (.toRouter k) (by simp [Place.client, hk]),
        hsame (.toClient k) (by simp [Place.client, hk]),
        hsame (.received k) (by simp [Place.client, hk])]
      exact hr.client k
  · rw [hsame (.inbox w) (by simp [Place.client]), hsame (.busy w) (by simp [Place.client]),
      hsame (.outbox w) (by simp [Place.client])]
    exact hr.worker w
  · by_cases hk : k = c
    · exact hk ▸ hown l (hk ▸ hl)
    · rw [hsame l (by simp [hl, hk])]
      exact hr.own l k hl

omit [DecidableEq ι] in
/-- A step of one worker moves tokens between its places only. -/
theorem Rep.worker_update (hr : Rep cfg places s) {w : Fin cfg.server_num} {u : Worker ι}
    (hsame : ∀ l, l.worker ≠ some w → places' l = places l)
    (hu : WorkerRep cfg (places' (.inbox w)) (places' (.busy w)) (places' (.outbox w)) u) :
    Rep cfg places' { s with workers := Function.update s.workers w u } := by
  refine ⟨fun k => ?_, fun x => ?_, fun l k hl => ?_⟩
  · rw [hsame (.toRouter k) (by simp [Place.worker]), hsame (.toClient k) (by simp [Place.worker]),
      hsame (.received k) (by simp [Place.worker])]
    exact hr.client k
  · by_cases hx : x = w
    · subst hx
      dsimp only
      rw [Function.update_self]
      exact hu
    · dsimp only
      rw [Function.update_of_ne hx, hsame (.inbox x) (by simp [Place.worker, hx]),
        hsame (.busy x) (by simp [Place.worker, hx]), hsame (.outbox x) (by simp [Place.worker, hx])]
      exact hr.worker x
  · rw [hsame l (by cases l <;> simp_all [Place.client, Place.worker])]
    exact hr.own l k hl

/-- Only a send changes which requests there are. -/
theorem issued_update {c : ι} {v : Client ι} {workers : Fin cfg.server_num → Worker ι}
    (h : Exact places (Issued cfg s)) (hv : v.reqs = (s.clients c).reqs) :
    Exact places (Issued cfg ⟨Function.update s.clients c v, workers⟩) := by
  have hsame : Issued cfg ⟨Function.update s.clients c v, workers⟩ = Issued cfg s := by
    funext o
    unfold Issued
    by_cases ho : o.1 = c
    · subst ho
      dsimp only
      rw [Function.update_self, hv]
    · dsimp only
      rw [Function.update_of_ne ho]
  rw [hsame]
  exact h

theorem inv_clientSend (hi : Inv cfg s) (c : ι) :
    Inv cfg { s with clients := Function.update s.clients c ((s.clients c).send c) } := by
  obtain ⟨places, hex, hrep⟩ := hi
  set k := (s.clients c).reqs + 1 with hk
  have hnew : ¬ Issued cfg s (c, k) := fun h => by
    have : k ≤ (s.clients c).reqs := h.2
    omega
  have hissued : Issued cfg { s with clients := Function.update s.clients c ((s.clients c).send c) } =
      fun o => Issued cfg s o ∨ o = (c, k) := by
    funext ⟨d, j⟩
    by_cases hd : d = c
    · subst hd
      simp only [Issued, Function.update_self, Client.send, Prod.mk.injEq, true_and, eq_iff_iff]
      omega
    · simp [Issued, hd]
  obtain ⟨hto, hcl, hrec⟩ := hrep.client c
  refine ⟨issue places (.toRouter c) (c, k), hissued ▸ hex.issue hnew _,
    hrep.client_update ?_ ?_ ?_⟩
  · intro l hl
    exact issue_of_ne fun h => hl (by rw [h]; rfl)
  · refine ⟨?_, ?_, ?_⟩
    · rw [issue_self, List.map_append, ← hto]
      rfl
    · rw [issue_of_ne (by simp)]
      exact hcl
    · rw [issue_of_ne (by simp)]
      exact hrec
  · intro l hl o ho
    rcases mem_issue.mp ho with ho | ⟨-, rfl⟩
    · exact hrep.own l c hl o ho
    · rfl

theorem inv_clientRecv (hi : Inv cfg s) {c : ι} {v : Client ι}
    (hv : (s.clients c).recv (cfg.name c) = some v) :
    Inv cfg { s with clients := Function.update s.clients c v } := by
  obtain ⟨places, hex, hrep⟩ := hi
  obtain ⟨hto, hcl, hrec⟩ := hrep.client c
  obtain ⟨⟨f, ms⟩, hf, rfl⟩ := Option.map_eq_some_iff.mp hv
  rw [hcl] at hf
  cases htok : places (.toClient c) with
  | nil =>
    rw [htok] at hf
    exact absurd hf (by simp [recvFrame])
  | cons o r =>
    rw [htok] at hf
    obtain ⟨rfl, rfl⟩ : msgFrame o = f ∧ _ = ms := by simpa [recvFrame] using hf
    have hne : (Place.received c : Place ι cfg.server_num) ≠ .toClient c := by simp
    refine ⟨move places (.toClient c) (.received c), ?_, hrep.client_update ?_ ?_ ?_⟩
    · exact issued_update (hex.move hne htok) rfl
    · intro l hl
      exact move_of_ne (fun h => hl (by rw [h]; rfl)) (fun h => hl (by rw [h]; rfl))
    · refine ⟨?_, ?_, ?_⟩
      · rw [move_of_ne (by simp) (by simp)]
        exact hto
      · rw [move_source htok]
      · rw [move_target hne htok, List.map_append, ← hrec]
        rfl
    · intro l hl x hx
      rcases mem_of_mem_move hne htok hx with hx | ⟨-, rfl⟩
      · exact hrep.own l c hl x hx
      · exact hrep.own (.toClient c) c rfl x (htok ▸ List.mem_cons_self)

theorem inv_work (hi : Inv cfg s) {w : Fin cfg.server_num} {v : Worker ι}
    (hv : (s.workers w).work w = some v) :
    Inv cfg { s with workers := Function.update s.workers w v } := by
  obtain ⟨places, hex, hrep⟩ := hi
  have hsame : ∀ a b : Place ι cfg.server_num, a.worker = some w → b.worker = some w →
      ∀ l, l.worker ≠ some w → move places a b l = places l := by
    intro a b ha hb l hl
    exact move_of_ne (fun h => hl (h ▸ ha)) (fun h => hl (h ▸ hb))
  rcases work_rep (hrep.worker w) hv with ⟨o, r, hin, hbusy, hw⟩ | hw | ⟨o, hbusy, hw⟩
  · have hne : (Place.busy w : Place ι cfg.server_num) ≠ .inbox w := by simp
    refine ⟨move places (.inbox w) (.busy w), hex.move hne hin,
      hrep.worker_update (hsame _ _ rfl rfl) ?_⟩
    rw [move_source hin, move_target hne hin, hbusy, move_of_ne (by simp) (by simp)]
    exact hw
  · exact ⟨places, hex, hrep.worker_update (fun _ _ => rfl) hw⟩
  · have hne : (Place.outbox w : Place ι cfg.server_num) ≠ .busy w := by simp
    refine ⟨move places (.busy w) (.outbox w), hex.move hne hbusy,
      hrep.worker_update (hsame _ _ rfl rfl) ?_⟩
    rw [move_source hbusy, move_target hne hbusy, move_of_ne (by simp) (by simp)]
    exact hw

theorem inv_proxyRequest (hi : Inv cfg s) {c : ι} {f : Frame ι} {fs : List (Frame ι)}
    {ms : List (List (Frame ι))} (hto : (s.clients c).toRouter = (f :: fs) :: ms)
    (w : Fin cfg.server_num) :
    Inv cfg ⟨Function.update s.clients c { s.clients c with toRouter := ms },
      Function.update s.workers w { s.workers w with
        inbox := (s.workers w).inbox ++ [⟨cfg.identity c, f.origin⟩ :: f :: fs] }⟩ := by
  obtain ⟨places, hex, hrep⟩ := hi
  obtain ⟨hcto, hcl, hrec⟩ := hrep.client c
  obtain ⟨hin, hbusy, hout⟩ := hrep.worker w
  rw [hcto] at hto
  cases htok : places (.toRouter c) with
  | nil =>
    rw [htok] at hto
    exact absurd hto (by simp)
  | cons o r =>
    have ho : o.1 = c := hrep.own (.toRouter c) c rfl o (htok ▸ List.mem_cons_self)
    rw [htok] at hto
    obtain ⟨⟨rfl, rfl⟩, rfl⟩ : (msgFrame o = f ∧ [] = fs) ∧ _ = ms := by simpa using hto
    have hne : (Place.inbox w : Place ι cfg.server_num) ≠ .toRouter c := by simp
    -- first the client gives the request away, then the worker gets it
    have hgive : Rep cfg (Function.update places (.toRouter c) r)
        { s with
          clients := Function.update s.clients c
            { s.clients c with toRouter := r.map fun o => [msgFrame o] } } := by
      refine hrep.client_update (fun l hl => Function.update_of_ne (fun h => hl (by rw [h]; rfl)) _ _)
        ⟨?_, ?_, ?_⟩ fun l hl x hx => ?_
      · rw [Function.update_self]
      · rw [Function.update_of_ne (by simp)]
        exact hcl
      · rw [Function.update_of_ne (by simp)]
        exact hrec
      · by_cases hlc : l = .toRouter c
        · subst hlc
          rw [Function.update_self] at hx
          exact hrep.own _ c rfl x (htok ▸ List.mem_cons_of_mem o hx)
        · rw [Function.update_of_ne hlc] at hx
          exact hrep.own l c hl x hx
    refine ⟨move places (.toRouter c) (.inbox w), ?_, hgive.worker_update (fun l hl => ?_) ?_⟩
    · exact issued_update (hex.move hne htok) rfl
    · by_cases hlc : l = .toRouter c
      · subst hlc
        rw [move_source htok, Function.update_self]
      · rw [Function.update_of_ne hlc]
        exact move_of_ne hlc fun h => hl (by rw [h]; rfl)
    · rw [move_target hne htok, move_of_ne (by simp) (by simp), move_of_ne (by simp) (by simp)]
      refine ⟨?_, hbusy, hout⟩
      dsimp only
      rw [hin, List.map_append, List.append_assoc, ← ho]
      rfl

theorem inv_proxyReply (hi : Inv cfg s) {w : Fin cfg.server_num} {iden : Frame ι}
    {fs : List (Frame ι)} {ms : List (List (Frame ι))}
    (hto : (s.workers w).outbox = (iden :: fs) :: ms) {c : ι} (hc : iden.data = cfg.identity c) :
    Inv cfg ⟨Function.update s.clients c
        { s.clients c with toClient := (s.clients c).toClient ++ [fs] },
      Function.update s.workers w { s.workers w with outbox := ms }⟩ := by
  obtain ⟨places, hex, hrep⟩ := hi
  obtain ⟨hcto, hcl, hrec⟩ := hrep.client c
  obtain ⟨hin, hbusy, hout⟩ := hrep.worker w
  rw [hout] at hto
  cases htok : places (.outbox w) with
  | nil =>
    rw [htok] at hto
    exact absurd hto (by simp)
  | cons o r =>
    rw [htok] at hto
    obtain ⟨⟨rfl, rfl⟩, rfl⟩ : (idenFrame cfg o = iden ∧ [msgFrame o] = fs) ∧ _ = ms := by
      simpa using hto
    -- identities tell the clients apart
    have ho : o.1 = c := cfg.identity_injective hc
    have hne : (Place.toClient c : Place ι cfg.server_num) ≠ .outbox w := by simp
    have htake : Rep cfg (Function.update places (.outbox w) r)
        { s with
          workers := Function.update s.workers w
            { s.workers w with outbox := r.map fun o => [idenFrame cfg o, msgFrame o] } } := by
      refine hrep.worker_update (fun l hl => Function.update_of_ne (fun h => hl (by rw [h]; rfl)) _ _)
        ⟨?_, ?_, ?_⟩
      · rw [Function.update_of_ne (by simp), Function.update_of_ne (by simp)]
        exact hin
      · rw [Function.update_of_ne (by simp)]
        exact hbusy
      · rw [Function.update_self]
    refine ⟨move places (.outbox w) (.toClient c), ?_, htake.client_update (fun l hl => ?_) ?_ ?_⟩
    · exact issued_update (hex.move hne htok) rfl
    · by_cases hlw : l = .outbox w
      · subst hlw
        rw [move_source htok, Function.update_self]
      · rw [Function.update_of_ne hlw]
        exact move_of_ne hlw fun h => hl (by rw [h]; rfl)
    · rw [move_target hne htok, move_of_ne (by simp) (by simp), move_of_ne (by simp) (by simp)]
      refine ⟨hcto, ?_, hrec⟩
      dsimp only
      rw [hcl, List.map_append]
      rfl
    · intro l hl x hx
      rcases mem_of_mem_move hne htok hx with hx | ⟨-, rfl⟩
      · exact hrep.own l c hl x hx
      · exact ho

theorem inv_step {a : Action ι cfg.server_num} (hi : Inv cfg s)
    (h : (system cfg).step s a = some t) : Inv cfg t := by
  change step cfg s a = some t at h
  cases a with
  | clientSend c =>
    cases h
    exact inv_clientSend hi c
  | clientRecv c =>
    obtain ⟨v, hv, rfl⟩ := Option.map_eq_some_iff.mp h
    exact inv_clientRecv hi hv
  | proxyRequest c w =>
    rw [step] at h
    split at h
    · rename_i f fs ms hto
      cases h
      exact inv_proxyRequest hi hto w
    · exact absurd h (by simp)
  | work w =>
    obtain ⟨v, hv, rfl⟩ := Option.map_eq_some_iff.mp h
    exact inv_work hi hv
  | proxyReply w c =>
    rw [step] at h
    split at h
    · rename_i iden fs ms hto
      split_ifs at h with hc
      cases h
      exact inv_proxyReply hi hto hc
    · exact absurd h (by simp)

theorem inv_init : Inv cfg (system cfg).init := by
  refine ⟨fun _ => [], ?_, fun _ => ⟨rfl, rfl, rfl⟩, fun _ => ⟨rfl, ⟨rfl, rfl⟩, rfl⟩,
    fun _ _ _ _ ho => absurd ho List.not_mem_nil⟩
  have hnone : Issued cfg (system cfg).init = fun _ => False := by
    funext o
    simp only [Issued, system, eq_iff_iff, iff_false]
    omega
  rw [hnone]
  exact Exact.empty

omit [DecidableEq ι] in
/-- What the tokens say about replies and reads. -/
theorem Inv.integrity (hi : Inv cfg s) : Integrity cfg s := by
  obtain ⟨places, hex, hrep⟩ := hi
  refine ⟨fun c => ?_, fun w => (hrep.worker w).aligned⟩
  have hown : ∀ o ∈ places (.received c), o = (c, o.2) := fun o ho =>
    Prod.ext (hrep.own _ c rfl o ho) rfl
  refine ⟨(places (.received c)).map Prod.snd, ?_, ?_, ?_⟩
  · rw [(hrep.client c).received, List.map_map]
    exact List.map_congr_left fun o ho => congrArg msgFrame (hown o ho)
  · refine List.Nodup.map_on (fun o ho o' ho' heq => ?_) (hex.nodup _)
    rw [hown o ho, hown o' ho', heq]
  · intro k hk
    obtain ⟨o, ho, rfl⟩ := List.mem_map.mp hk
    have hissued := (hex.mem_iff o).mp ⟨_, ho⟩
    rw [Issued, hrep.own _ c rfl o ho] at hissued
    exact hissued

/-- **Request/reply integrity** in every state of every run, for any clients and workers. -/
theorem request_reply_integrity (cfg : Config ι) (as : List (Action ι cfg.server_num)) :
    (system cfg).Always (Integrity cfg) as :=
  (System.always_of_step inv_init (fun _ _ _ => inv_step) as).imp fun _ => Inv.integrity

end Fssn.Zmq.DealerRouter
