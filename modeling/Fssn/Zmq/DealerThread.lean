import Fssn.Lib.Simulation
import Fssn.Lib.Variant
import Fssn.Zmq.Answered
import Fssn.Zmq.MessageDump

/-!
# Fssn.Zmq.DealerThread — the dealer client with a receiving thread

`lec-05-prg-11` around the server of `lec-05-prg-09`.  A client has two threads on one socket and one
`cout`: `start` counts, announces and sends requests, `recvHandle` prints what arrives.  Each statement
is a step, so between any two statements of the one thread the other one may go on.  A call on the
socket is taken as atomic, although ZeroMQ does not promise it to two threads on one socket, and so is
the output of a statement.

* `threads_equivalent`: to the server, such clients are those of `lec-05-prg-10`, which send and receive
  in one loop.
* `threads_screens`: what the two threads write, each for itself and together, as statements and as
  bytes: no reply is shown above the line that announces its request.
* `threads_answered`: without new requests the system comes to rest, in any order of the steps, and
  then every client has shown one reply to each of its requests.
-/

namespace Fssn.Zmq.DealerThread

open Fssn.Lib
open DealerRouter (Frame Config Worker input recvFrame msgFrame Serves Answered)

variable {ι : Type*}

/-! ### The client -/

/-- What a statement writes. -/
inductive Write (ι : Type*)
  | started
  | request (reqs : ℕ)
  | thread
  | dump (msg : Frame ι)
  | received (msg : Frame ι)

def Write.text (name : Bytes) : Write ι → Bytes
  | .started => ascii "Client " ++ name ++ ascii " started\n"
  | .request reqs => ascii "Req #" ++ decimal reqs ++ ascii " sent... \n"
  | .thread => ascii "thread start"
  | .dump msg => str msg.data ++ ascii "\n"
  | .received msg => name ++ ascii " received: " ++ msg.data ++ ascii "\n"

/-- Where `start` stands. -/
inductive StartPc
  | activate
  | create
  | count
  | print
  | send

/-- Where `recvHandle` stands; before `start` has created its thread it is `absent`. -/
inductive RecvPc (ι : Type*)
  | absent
  | greet
  | recv
  | dump (msg : Frame ι)
  | report (msg : Frame ι)

/-- A `ClientTask`: `reqs` belongs to both threads, and so do the socket, here its two queues, and
`cout`.  `received` are the replies that `recvHandle` has received. -/
structure Client (ι : Type*) where
  reqs : ℕ
  pc : StartPc
  rpc : RecvPc ι
  toRouter : List (List (Frame ι))
  toClient : List (List (Frame ι))
  received : List (Frame ι)
  out : List (Write ι)

/-- What is on the screen. -/
def Client.screen (name : Bytes) (v : Client ι) : Bytes := v.out.flatMap (Write.text name)

inductive Statement
  | activate
  | create
  | count
  | print
  | send
  | greet
  | recv
  | dump
  | report

/-- The statements of `start` and of `recvHandle`.  `usleep` and a `poll` that finds nothing change
nothing. -/
def Client.run (c : ι) (v : Client ι) (st : Statement) : Option (Client ι) :=
  match st, v.pc, v.rpc with
  | .activate, .activate, _ => some { v with out := v.out ++ [.started], pc := .create }
  | .create, .create, _ => some { v with pc := .count, rpc := .greet }
  | .count, .count, _ => some { v with reqs := v.reqs + 1, pc := .print }
  | .print, .print, _ => some { v with out := v.out ++ [.request v.reqs], pc := .send }
  | .send, .send, _ =>
    some { v with toRouter := v.toRouter ++ [[⟨input v.reqs, (c, v.reqs)⟩]], pc := .count }
  | .greet, _, .greet => some { v with out := v.out ++ [.thread], rpc := .recv }
  | .recv, _, .recv => (recvFrame v.toClient).map fun fr =>
      { v with toClient := fr.2, received := v.received ++ [fr.1], rpc := .dump fr.1 }
  | .dump, _, .dump msg => some { v with out := v.out ++ [.dump msg], rpc := .report msg }
  | .report, _, .report msg => some { v with out := v.out ++ [.received msg], rpc := .recv }
  | _, _, _ => none

/-! ### The system -/

structure State (ι : Type*) (server_num : ℕ) where
  clients : ι → Client ι
  workers : Fin server_num → Worker ι

inductive Action (ι : Type*) (server_num : ℕ)
  | client (c : ι) (st : Statement)
  | proxyRequest (c : ι) (w : Fin server_num)
  | work (w : Fin server_num)
  | proxyReply (w : Fin server_num) (c : ι)

variable [DecidableEq ι] (cfg : Config ι)

/-- One step of a client's thread, or of the server as in `DealerRouter.step`. -/
def step (s : State ι cfg.server_num) (a : Action ι cfg.server_num) :
    Option (State ι cfg.server_num) :=
  match a with
  | .client c st => ((s.clients c).run c st).map fun v =>
      { s with clients := Function.update s.clients c v }
  | .proxyRequest c w =>
    match (s.clients c).toRouter with
    | (f :: fs) :: ms =>
      some ⟨Function.update s.clients c { s.clients c with toRouter := ms },
        Function.update s.workers w
          { s.workers w with
            inbox := (s.workers w).inbox ++ [⟨cfg.identity c, f.origin⟩ :: f :: fs] }⟩
    | _ => none
  | .work w => ((s.workers w).work w).map fun v =>
      { s with workers := Function.update s.workers w v }
  | .proxyReply w c =>
    match (s.workers w).outbox with
    | (iden :: fs) :: ms =>
      if iden.data = cfg.identity c then
        some ⟨Function.update s.clients c
            { s.clients c with toClient := (s.clients c).toClient ++ [fs] },
          Function.update s.workers w { s.workers w with outbox := ms }⟩
      else none
    | _ => none

/-- The server and its clients before the first statement. -/
def system : System (State ι cfg.server_num) (Action ι cfg.server_num) where
  init := ⟨fun _ => ⟨0, .activate, .absent, [], [], [], []⟩, (DealerRouter.system cfg).init.workers⟩
  step := step cfg

/-! ### The clients as those of one loop -/

/-- What is seen of a step on the network. -/
def visible {n : ℕ} : Action ι n → List (DealerRouter.Action ι n)
  | .client c .send => [.clientSend c]
  | .client c .recv => [.clientRecv c]
  | .client _ _ => []
  | .proxyRequest c w => [.proxyRequest c w]
  | .work w => [.work w]
  | .proxyReply w c => [.proxyReply w c]

/-- The requests that are counted and not yet sent. -/
def StartPc.ahead : StartPc → ℕ
  | .print => 1
  | .send => 1
  | _ => 0

/-- The same requests sent, the same messages on the connection and the same replies received. -/
structure ClientRel (v : Client ι) (x : DealerRouter.Client ι) : Prop where
  reqs : v.reqs = x.reqs + v.pc.ahead
  toRouter : v.toRouter = x.toRouter
  toClient : v.toClient = x.toClient
  received : v.received = x.received

structure Rel {n : ℕ} (s : State ι n) (u : DealerRouter.State ι n) : Prop where
  client : ∀ c, ClientRel (s.clients c) (u.clients c)
  worker : s.workers = u.workers

variable {cfg}

theorem Rel.update {n : ℕ} {s : State ι n} {u : DealerRouter.State ι n} (h : Rel s u) {c : ι}
    {v : Client ι} {x : DealerRouter.Client ι} (hv : ClientRel v x) {workers : Fin n → Worker ι} :
    Rel ⟨Function.update s.clients c v, workers⟩ ⟨Function.update u.clients c x, workers⟩ := by
  refine ⟨fun d => ?_, rfl⟩
  by_cases hd : d = c
  · subst hd
    dsimp only
    rw [Function.update_self, Function.update_self]
    exact hv
  · dsimp only
    rw [Function.update_of_ne hd, Function.update_of_ne hd]
    exact h.client d

/-- A step of one client that is not seen. -/
theorem Rel.silent {n : ℕ} {s : State ι n} {u : DealerRouter.State ι n} (h : Rel s u) {c : ι}
    {v : Client ι} (hv : ClientRel v (u.clients c)) :
    Rel { s with clients := Function.update s.clients c v } u := by
  have hsame : Rel ⟨Function.update s.clients c v, u.workers⟩
      ⟨Function.update u.clients c (u.clients c), u.workers⟩ := h.update hv
  rw [Function.update_eq_self] at hsame
  rw [h.worker]
  exact hsame

omit [DecidableEq ι] in
/-- A statement, seen on the connection. -/
theorem run_rel {c : ι} {v v' : Client ι} {x : DealerRouter.Client ι} (h : ClientRel v x)
    {st : Statement} (hs : v.run c st = some v') (name : Bytes) :
    (st = .send ∧ ClientRel v' (x.send c)) ∨
    (st = .recv ∧ ∃ x', x.recv name = some x' ∧ ClientRel v' x') ∨
    (st ≠ .send ∧ st ≠ .recv ∧ ClientRel v' x) := by
  obtain ⟨hreqs, hto, hcl, hrec⟩ := h
  unfold Client.run at hs
  split at hs
  · rename_i hpc
    obtain rfl := Option.some.inj hs
    exact Or.inr (Or.inr ⟨by simp, by simp, by rw [hreqs, hpc]; rfl, hto, hcl, hrec⟩)
  · rename_i hpc
    obtain rfl := Option.some.inj hs
    exact Or.inr (Or.inr ⟨by simp, by simp, by rw [hreqs, hpc]; rfl, hto, hcl, hrec⟩)
  · rename_i hpc
    obtain rfl := Option.some.inj hs
    exact Or.inr (Or.inr ⟨by simp, by simp, by rw [hreqs, hpc]; rfl, hto, hcl, hrec⟩)
  · rename_i hpc
    obtain rfl := Option.some.inj hs
    exact Or.inr (Or.inr ⟨by simp, by simp, by rw [hreqs, hpc]; rfl, hto, hcl, hrec⟩)
  · rename_i hpc
    obtain rfl := Option.some.inj hs
    rw [hpc] at hreqs
    refine Or.inl ⟨rfl, hreqs, ?_, hcl, hrec⟩
    rw [hto, hreqs]
    rfl
  · obtain rfl := Option.some.inj hs
    exact Or.inr (Or.inr ⟨by simp, by simp, hreqs, hto, hcl, hrec⟩)
  · obtain ⟨fr, hfr, rfl⟩ := Option.map_eq_some_iff.mp hs
    refine Or.inr (Or.inl ⟨rfl, ?_⟩)
    rw [hcl] at hfr
    exact ⟨_, Option.map_eq_some_iff.mpr ⟨fr, hfr, rfl⟩, hreqs, hto, rfl, by rw [hrec]⟩
  · obtain rfl := Option.some.inj hs
    exact Or.inr (Or.inr ⟨by simp, by simp, hreqs, hto, hcl, hrec⟩)
  · obtain rfl := Option.some.inj hs
    exact Or.inr (Or.inr ⟨by simp, by simp, hreqs, hto, hcl, hrec⟩)
  · exact absurd hs (by simp)

section Forward

variable {s t : State ι cfg.server_num} {u : DealerRouter.State ι cfg.server_num}

/-- The server changes nothing of a client but what is on its connection. -/
theorem server_keeps {a : Action ι cfg.server_num} (ha : ∀ c st, a ≠ .client c st)
    (hs : step cfg s a = some t) (d : ι) : t.clients d = { s.clients d with
      toRouter := (t.clients d).toRouter, toClient := (t.clients d).toClient } := by
  cases a with
  | client c st => exact absurd rfl (ha c st)
  | work w =>
    obtain ⟨v, -, rfl⟩ := Option.map_eq_some_iff.mp hs
    rfl
  | proxyRequest c w =>
    rw [step] at hs
    split at hs
    · obtain rfl := Option.some.inj hs
      by_cases hd : d = c
      · subst hd
        simp only [Function.update_self]
      · simp only [Function.update_of_ne hd]
    · exact absurd hs (by simp)
  | proxyReply w c =>
    rw [step] at hs
    split at hs
    · split_ifs at hs
      obtain rfl := Option.some.inj hs
      by_cases hd : d = c
      · subst hd
        simp only [Function.update_self]
      · simp only [Function.update_of_ne hd]
    · exact absurd hs (by simp)

/-! A step of the server is a step in both systems or in none. -/

theorem proxyRequest_rel (h : Rel s u) (c : ι) (w : Fin cfg.server_num) :
    Option.Rel Rel (step cfg s (.proxyRequest c w)) (DealerRouter.step cfg u (.proxyRequest c w)) := by
  obtain ⟨hreqs, hto, hcl, hrec⟩ := h.client c
  simp only [step, DealerRouter.step, hto, h.worker]
  rcases (u.clients c).toRouter with _ | ⟨_ | ⟨f, fs⟩, ms⟩
  · exact .none
  · exact .none
  · have hrel : ClientRel { s.clients c with toRouter := ms } { u.clients c with toRouter := ms } :=
      ⟨hreqs, rfl, hcl, hrec⟩
    exact .some (h.update hrel)

theorem work_rel (h : Rel s u) (w : Fin cfg.server_num) :
    Option.Rel Rel (step cfg s (.work w)) (DealerRouter.step cfg u (.work w)) := by
  simp only [step, DealerRouter.step, h.worker]
  cases (u.workers w).work w with
  | none => exact .none
  | some v => exact .some ⟨h.client, rfl⟩

theorem proxyReply_rel (h : Rel s u) (w : Fin cfg.server_num) (c : ι) :
    Option.Rel Rel (step cfg s (.proxyReply w c)) (DealerRouter.step cfg u (.proxyReply w c)) := by
  obtain ⟨hreqs, hto, hcl, hrec⟩ := h.client c
  simp only [step, DealerRouter.step, h.worker]
  rcases (u.workers w).outbox with _ | ⟨_ | ⟨iden, fs⟩, ms⟩
  · exact .none
  · exact .none
  · dsimp only
    split_ifs
    · have hrel : ClientRel { s.clients c with toClient := (s.clients c).toClient ++ [fs] }
          { u.clients c with toClient := (u.clients c).toClient ++ [fs] } :=
        ⟨hreqs, hto, by rw [hcl], hrec⟩
      exact .some (h.update hrel)
    · exact .none

/-- What a step shows is what the system of `DealerRouter` does. -/
theorem forward (h : Rel s u) {a : Action ι cfg.server_num} (hs : step cfg s a = some t) :
    ∃ v, (DealerRouter.system cfg).exec u (visible a) = some v ∧ Rel t v := by
  cases a with
  | client c st =>
    obtain ⟨v, hv, rfl⟩ := Option.map_eq_some_iff.mp hs
    rcases run_rel (h.client c) hv (cfg.name c) with ⟨rfl, hrel⟩ | ⟨rfl, x, hx, hrel⟩ | ⟨h1, h2, hrel⟩
    · rw [h.worker]
      exact ⟨_, rfl, h.update hrel⟩
    · have hu : DealerRouter.step cfg u (.clientRecv c) =
          some { u with clients := Function.update u.clients c x } := by
        rw [DealerRouter.step, hx]
        rfl
      rw [h.worker]
      exact ⟨_, System.exec_one hu, h.update hrel⟩
    · refine ⟨u, ?_, h.silent hrel⟩
      cases st <;> first | rfl | contradiction
  | proxyRequest c w =>
    obtain ⟨v, hv, hrel⟩ := rel_some_left (proxyRequest_rel h c w) hs
    exact ⟨v, System.exec_one hv, hrel⟩
  | work w =>
    obtain ⟨v, hv, hrel⟩ := rel_some_left (work_rel h w) hs
    exact ⟨v, System.exec_one hv, hrel⟩
  | proxyReply w c =>
    obtain ⟨v, hv, hrel⟩ := rel_some_left (proxyReply_rel h w c) hs
    exact ⟨v, System.exec_one hv, hrel⟩

end Forward

/-- Between two passes of both loops, or before the first statement. -/
def Client.AtRest (v : Client ι) : Prop :=
  (v.pc = .activate ∧ v.rpc = .absent) ∨ (v.pc = .count ∧ v.rpc = .recv)

/-- Some statements of one client, one after the other. -/
def Client.runs (c : ι) : Client ι → List Statement → Option (Client ι)
  | v, [] => some v
  | v, st :: sts => (v.run c st).bind fun v' => v'.runs c sts

section Backward

variable {s : State ι cfg.server_num} {u v : DealerRouter.State ι cfg.server_num}

theorem exec_runs {c : ι} {sts : List Statement} {x : Client ι}
    (h : (s.clients c).runs c sts = some x) : (system cfg).exec s (sts.map (Action.client c)) =
      some { s with clients := Function.update s.clients c x } := by
  induction sts generalizing s with
  | nil =>
    obtain rfl := Option.some.inj h
    rw [Function.update_eq_self]
    rfl
  | cons st sts ih =>
    obtain ⟨y, hy, h⟩ := Option.bind_eq_some_iff.mp h
    have hone : (system cfg).step s (.client c st) =
        some { s with clients := Function.update s.clients c y } := by
      show Option.map _ ((s.clients c).run c st) = _
      rw [hy]
      rfl
    have hself : Function.update s.clients c y c = y := Function.update_self _ _ _
    have hrest := ih (s := { s with clients := Function.update s.clients c y }) (by
      dsimp only
      rwa [hself])
    rw [Function.update_idem] at hrest
    rw [List.map_cons, System.exec_cons, hone]
    exact hrest

theorem atRest_update (hrest : ∀ d, (s.clients d).AtRest) {c : ι} {x : Client ι} (hx : x.AtRest)
    (d : ι) : (Function.update s.clients c x d).AtRest := by
  by_cases hd : d = c
  · subst hd
    rwa [Function.update_self]
  · rw [Function.update_of_ne hd]
    exact hrest d

theorem atRest_server (hrest : ∀ d, (s.clients d).AtRest) {a : Action ι cfg.server_num}
    (ha : ∀ c st, a ≠ .client c st) {t : State ι cfg.server_num} (hs : step cfg s a = some t) (d : ι) :
    (t.clients d).AtRest := by
  rw [server_keeps ha hs d]
  exact hrest d

/-- A client that has not started can start unseen. -/
theorem wake (h : Rel s u) (hrest : ∀ d, (s.clients d).AtRest) (c : ι) :
    ∃ as t, (system cfg).exec s as = some t ∧ as.flatMap visible = [] ∧ Rel t u ∧
      (∀ d, (t.clients d).AtRest) ∧ (t.clients c).pc = .count ∧ (t.clients c).rpc = .recv := by
  rcases hrest c with ⟨hpc, hrpc⟩ | ⟨hpc, hrpc⟩
  · obtain ⟨hreqs, hto, hcl, hrec⟩ := h.client c
    set x : Client ι := { s.clients c with
      out := (s.clients c).out ++ [.started] ++ [.thread], pc := .count, rpc := .recv } with hx
    have hruns : (s.clients c).runs c [.activate, .create, .greet] = some x := by
      simp [Client.runs, Client.run, hpc, hrpc, hx]
    have hrel : ClientRel x (u.clients c) := ⟨by rw [hx, hreqs, hpc]; rfl, hto, hcl, hrec⟩
    refine ⟨_, _, exec_runs hruns, rfl, h.silent hrel, atRest_update hrest (Or.inr ⟨rfl, rfl⟩), ?_, ?_⟩
    · exact congrArg Client.pc (Function.update_self c x s.clients)
    · exact congrArg Client.rpc (Function.update_self c x s.clients)
  · exact ⟨[], s, rfl, rfl, h, hrest, hpc, hrpc⟩

/-- What the system of `DealerRouter` does can be shown by the threads. -/
theorem backward (h : Rel s u) (hrest : ∀ d, (s.clients d).AtRest)
    {a : DealerRouter.Action ι cfg.server_num} (hu : DealerRouter.step cfg u a = some v) :
    ∃ as t, (system cfg).exec s as = some t ∧ as.flatMap visible = [a] ∧ Rel t v ∧
      ∀ d, (t.clients d).AtRest := by
  cases a with
  | clientSend c =>
    obtain rfl := Option.some.inj hu
    obtain ⟨as, r, hr, has, hrel, hrest, hpc, hrpc⟩ := wake h hrest c
    obtain ⟨hreqs, hto, hcl, hrec⟩ := hrel.client c
    set y := r.clients c with hy
    set x : Client ι := { y with
      reqs := y.reqs + 1
      toRouter := y.toRouter ++ [[⟨input (y.reqs + 1), (c, y.reqs + 1)⟩]]
      out := y.out ++ [.request (y.reqs + 1)] } with hx
    have hruns : y.runs c [.count, .print, .send] = some x := by
      simp [Client.runs, Client.run, hpc, hx]
    have hsent : ClientRel x ((u.clients c).send c) := by
      have hsame : y.reqs = (u.clients c).reqs := by rw [hreqs, hpc]; rfl
      refine ⟨?_, ?_, hcl, hrec⟩
      · show y.reqs + 1 = (u.clients c).reqs + 1 + y.pc.ahead
        rw [hsame, hpc]
        rfl
      · show y.toRouter ++ _ = _
        rw [hto, hsame]
        rfl
    refine ⟨as ++ [Action.client c .count, .client c .print, .client c .send],
      { r with clients := Function.update r.clients c x }, ?_, ?_, ?_, ?_⟩
    · rw [System.exec_append, hr]
      exact exec_runs hruns
    · rw [List.flatMap_append, has]
      rfl
    · rw [hrel.worker]
      exact hrel.update hsent
    · exact atRest_update hrest (Or.inr ⟨hpc, hrpc⟩)
  | clientRecv c =>
    obtain ⟨z, hz, rfl⟩ := Option.map_eq_some_iff.mp hu
    obtain ⟨as, r, hr, has, hrel, hrest, hpc, hrpc⟩ := wake h hrest c
    obtain ⟨hreqs, hto, hcl, hrec⟩ := hrel.client c
    obtain ⟨⟨f, ms⟩, hf, hzf⟩ := Option.map_eq_some_iff.mp hz
    rw [← hcl] at hf
    set y := r.clients c with hy
    set x : Client ι := { y with
      toClient := ms
      received := y.received ++ [f]
      out := y.out ++ [.dump f] ++ [.received f] } with hx
    have hruns : y.runs c [.recv, .dump, .report] = some x := by
      simp [Client.runs, Client.run, hrpc, hf, hx]
    have hgot : ClientRel x z := by
      rw [← hzf]
      exact ⟨hreqs, hto, rfl, congrArg (· ++ [f]) hrec⟩
    refine ⟨as ++ [Action.client c .recv, .client c .dump, .client c .report],
      { r with clients := Function.update r.clients c x }, ?_, ?_, ?_, ?_⟩
    · rw [System.exec_append, hr]
      exact exec_runs hruns
    · rw [List.flatMap_append, has]
      rfl
    · rw [hrel.worker]
      exact hrel.update hgot
    · exact atRest_update hrest (Or.inr ⟨hpc, hrpc⟩)
  | proxyRequest c w =>
    obtain ⟨t, ht, hrel⟩ := rel_some_right (proxyRequest_rel h c w) hu
    exact ⟨[.proxyRequest c w], t, System.exec_one ht, rfl, hrel, atRest_server hrest (by simp) ht⟩
  | work w =>
    obtain ⟨t, ht, hrel⟩ := rel_some_right (work_rel h w) hu
    exact ⟨[.work w], t, System.exec_one ht, rfl, hrel, atRest_server hrest (by simp) ht⟩
  | proxyReply w c =>
    obtain ⟨t, ht, hrel⟩ := rel_some_right (proxyReply_rel h w c) hu
    exact ⟨[.proxyReply w c], t, System.exec_one ht, rfl, hrel, atRest_server hrest (by simp) ht⟩

end Backward

/-! ### The screens -/

/-- The write is one of `start`. -/
def Write.ofStart : Write ι → Bool
  | .started => true
  | .request _ => true
  | _ => false

/-- The requests that `start` has announced. -/
def Client.announced (v : Client ι) : ℕ :=
  match v.pc with
  | .print => v.reqs - 1
  | _ => v.reqs

def Client.startScript (v : Client ι) : List (Write ι) :=
  match v.pc with
  | .activate => []
  | _ => .started :: (List.range' 1 v.announced).map Write.request

/-- What `recvHandle` writes for some replies. -/
def shown (fs : List (Frame ι)) : List (Write ι) := fs.flatMap fun f => [.dump f, .received f]

def Client.recvScript (v : Client ι) : List (Write ι) :=
  match v.rpc with
  | .absent => []
  | .greet => []
  | .recv => .thread :: shown v.received
  | .dump _ => .thread :: shown v.received.dropLast
  | .report msg => .thread :: shown v.received.dropLast ++ [.dump msg]

/-- The reply that a write shows. -/
def Write.reply : Write ι → Option (Frame ι)
  | .dump msg => some msg
  | .received msg => some msg
  | _ => none

/-- No reply is shown above the line that announces its request. -/
def Ordered (out : List (Write ι)) : Prop :=
  ∀ l w r f, out = l ++ w :: r → w.reply = some f → .request f.origin.2 ∈ l

/-- The screen of the client `c`, whose name is `name`. -/
structure Screen (name : Bytes) (c : ι) (v : Client ι) : Prop where
  start : v.out.filter Write.ofStart = v.startScript
  recv : (v.out.filter fun w => !w.ofStart) = v.recvScript
  /-- The replies received are to requests that were announced, no two to the same one. -/
  replies : ∃ ks : List ℕ, v.received = ks.map (fun k => msgFrame (c, k)) ∧ ks.Nodup ∧
    ∀ k ∈ ks, .request k ∈ v.out
  ordered : Ordered v.out
  /-- The bytes are those of the two threads, the text of each in its order. -/
  bytes : (v.screen name).Perm
    (v.startScript.flatMap (Write.text name) ++ v.recvScript.flatMap (Write.text name))
  startText : (v.startScript.flatMap (Write.text name)).Sublist (v.screen name)
  recvText : (v.recvScript.flatMap (Write.text name)).Sublist (v.screen name)
  /-- The text of a reply has that of its request above it. -/
  under : ∀ w ∈ v.out, ∀ f, w.reply = some f → ∃ above below,
    v.screen name = above ++ w.text name ++ below ∧
      Write.text name (.request f.origin.2 : Write ι) <:+: above

/-- What holds of a client by itself. -/
structure Client.Ok (v : Client ι) : Prop where
  start : v.out.filter Write.ofStart = v.startScript
  recv : (v.out.filter fun w => !w.ofStart) = v.recvScript
  ordered : Ordered v.out
  begun : v.pc = .activate ∨ v.pc = .create → v.reqs = 0
  counted : v.pc = .print → 0 < v.reqs
  created : v.rpc = .absent ↔ v.pc = .activate ∨ v.pc = .create
  empty : v.rpc = .absent ∨ v.rpc = .greet → v.received = []
  hand : ∀ msg, v.rpc = .dump msg ∨ v.rpc = .report msg → ∃ r, v.received = r ++ [msg]

omit [DecidableEq ι] in
theorem Ordered.concat {out : List (Write ι)} (h : Ordered out) {w : Write ι}
    (hw : ∀ f, w.reply = some f → .request f.origin.2 ∈ out) : Ordered (out ++ [w]) := by
  intro l x r f heq hf
  rcases List.eq_nil_or_concat r with rfl | ⟨r, y, rfl⟩
  · obtain ⟨rfl, hwx⟩ := List.append_inj' heq rfl
    obtain rfl := List.singleton_inj.mp hwx
    exact hw f hf
  · rw [List.concat_eq_append, ← List.cons_append, ← List.append_assoc] at heq
    exact h l x r f (List.append_inj' heq rfl).1 hf

omit [DecidableEq ι] in
/-- An announcement that stands above a write stands above it on the screen, too. -/
theorem Ordered.under {v : Client ι} (h : Ordered v.out) (name : Bytes) {w : Write ι} (hw : w ∈ v.out)
    {f : Frame ι} (hf : w.reply = some f) : ∃ above below,
      v.screen name = above ++ w.text name ++ below ∧
        Write.text name (.request f.origin.2 : Write ι) <:+: above := by
  obtain ⟨l, r, hout⟩ := List.append_of_mem hw
  obtain ⟨a, b, hl⟩ := List.append_of_mem (h l w r f hout hf)
  refine ⟨l.flatMap (Write.text name), r.flatMap (Write.text name), ?_,
    a.flatMap (Write.text name), b.flatMap (Write.text name), ?_⟩
  · rw [Client.screen, hout, List.flatMap_append, List.flatMap_cons, List.append_assoc]
  · rw [hl, List.flatMap_append, List.flatMap_cons, List.append_assoc]

omit [DecidableEq ι] in
theorem shown_concat (fs : List (Frame ι)) (f : Frame ι) :
    shown (fs ++ [f]) = shown fs ++ [.dump f] ++ [.received f] := by
  rw [shown, List.flatMap_append, List.append_assoc]
  rfl

omit [DecidableEq ι] in
/-- The requests sent have been announced. -/
theorem Client.Ok.announced {v : Client ι} {x : DealerRouter.Client ι} (h : v.Ok)
    (hrel : ClientRel v x) {k : ℕ} (hk : 1 ≤ k ∧ k ≤ x.reqs) : .request k ∈ v.out := by
  have hreqs := hrel.reqs
  have hmem : .request k ∈ v.startScript := by
    unfold Client.startScript
    cases hpc : v.pc with
    | activate =>
      have hz := h.begun (Or.inl hpc)
      omega
    | print =>
      rw [hpc] at hreqs
      have hann : v.announced = x.reqs := by rw [Client.announced, hpc]; simp [hreqs, StartPc.ahead]
      rw [hann]
      exact List.mem_cons_of_mem _ (List.mem_map_of_mem (List.mem_range'_1.mpr (by omega)))
    | _ =>
      have hann : v.announced = v.reqs := by rw [Client.announced, hpc]
      rw [hann]
      exact List.mem_cons_of_mem _ (List.mem_map_of_mem (List.mem_range'_1.mpr (by omega)))
  rw [← h.start] at hmem
  exact (List.mem_filter.mp hmem).1

omit [DecidableEq ι] in
theorem ok_run {c : ι} {v v' : Client ι} (h : v.Ok) {st : Statement} (hs : v.run c st = some v')
    (hann : ∀ f ∈ v.received, .request f.origin.2 ∈ v.out) : v'.Ok := by
  obtain ⟨hstart, hrecv, hord, hbegun, hcounted, hcreated, hempty, hhand⟩ := h
  have hpush : ∀ w : Write ι, (v.out ++ [w]).filter Write.ofStart =
        v.startScript ++ [w].filter Write.ofStart ∧
      ((v.out ++ [w]).filter fun w => !w.ofStart) =
        v.recvScript ++ [w].filter fun w => !w.ofStart := by
    intro w
    rw [List.filter_append, List.filter_append, hstart, hrecv]
    exact ⟨rfl, rfl⟩
  unfold Client.startScript Client.announced at hstart hpush
  unfold Client.recvScript at hrecv hpush
  unfold Client.run at hs
  split at hs
  · rename_i hpc
    obtain rfl := Option.some.inj hs
    have hz := hbegun (Or.inl hpc)
    have habs := hcreated.mpr (Or.inl hpc)
    refine ⟨?_, ?_, hord.concat (by simp [Write.reply]), fun _ => hz, by simp, by simp [habs], hempty,
      hhand⟩
    · rw [(hpush _).1, hpc, Client.startScript, Client.announced]
      dsimp only
      rw [hz]
      rfl
    · rw [(hpush _).2, Client.recvScript]
      exact List.append_nil _
  · rename_i hpc
    obtain rfl := Option.some.inj hs
    have habs := hcreated.mpr (Or.inr hpc)
    rw [hpc] at hstart
    rw [habs] at hrecv
    exact ⟨hstart, hrecv, hord, by simp, by simp, by simp, fun _ => hempty (Or.inl habs), by simp⟩
  · rename_i hpc
    obtain rfl := Option.some.inj hs
    rw [hpc] at hstart
    exact ⟨hstart, hrecv, hord, by simp, by simp, by simpa [hpc] using hcreated, hempty, hhand⟩
  · rename_i hpc
    obtain rfl := Option.some.inj hs
    refine ⟨?_, ?_, hord.concat (by simp [Write.reply]), by simp, by simp, by simpa [hpc] using hcreated,
      hempty, hhand⟩
    · obtain ⟨n, hn⟩ := Nat.exists_eq_add_of_lt (hcounted hpc)
      have hreqs : v.reqs = n + 1 := by omega
      rw [(hpush _).1, hpc, Client.startScript, Client.announced]
      dsimp only
      rw [hreqs, Nat.add_sub_cancel, List.range'_concat, List.map_append, List.cons_append, Nat.one_mul,
        Nat.add_comm 1 n]
      rfl
    · rw [(hpush _).2, Client.recvScript]
      exact List.append_nil _
  · rename_i hpc
    obtain rfl := Option.some.inj hs
    rw [hpc] at hstart
    exact ⟨hstart, hrecv, hord, by simp, by simp, by simpa [hpc] using hcreated, hempty, hhand⟩
  · rename_i hrpc
    obtain rfl := Option.some.inj hs
    refine ⟨?_, ?_, hord.concat (by simp [Write.reply]), hbegun, hcounted,
      by simpa [hrpc] using hcreated, by simp, by simp⟩
    · rw [(hpush _).1]
      exact List.append_nil _
    · rw [(hpush _).2, hrpc, Client.recvScript]
      dsimp only
      rw [hempty (Or.inr hrpc)]
      rfl
  · rename_i hrpc
    obtain ⟨fr, hfr, rfl⟩ := Option.map_eq_some_iff.mp hs
    rw [hrpc] at hrecv
    refine ⟨hstart, ?_, hord, hbegun, hcounted, by simpa [hrpc] using hcreated, by simp, ?_⟩
    · rw [Client.recvScript]
      dsimp only
      rw [List.dropLast_concat]
      exact hrecv
    · rintro msg (hmsg | hmsg)
      · exact ⟨v.received, by rw [RecvPc.dump.inj hmsg]⟩
      · exact absurd hmsg (by simp)
  · rename_i msg hrpc
    obtain rfl := Option.some.inj hs
    obtain ⟨r, hr⟩ := hhand msg (Or.inl hrpc)
    refine ⟨?_, ?_, hord.concat ?_, hbegun, hcounted, by simpa [hrpc] using hcreated, by simp, ?_⟩
    · rw [(hpush _).1]
      exact List.append_nil _
    · rw [(hpush _).2, hrpc, Client.recvScript]
      rfl
    · rintro f hf
      obtain rfl := Option.some.inj hf
      exact hann msg (hr ▸ List.mem_append_right _ List.mem_cons_self)
    · rintro msg' (hmsg | hmsg)
      · exact absurd hmsg (by simp)
      · exact ⟨r, by rw [hr, RecvPc.report.inj hmsg]⟩
  · rename_i msg hrpc
    obtain rfl := Option.some.inj hs
    obtain ⟨r, hr⟩ := hhand msg (Or.inr hrpc)
    refine ⟨?_, ?_, hord.concat ?_, hbegun, hcounted, by simpa [hrpc] using hcreated, by simp, by simp⟩
    · rw [(hpush _).1]
      exact List.append_nil _
    · rw [(hpush _).2, hrpc, Client.recvScript]
      dsimp only
      rw [hr, List.dropLast_concat, shown_concat]
      rfl
    · rintro f hf
      obtain rfl := Option.some.inj hf
      exact hann msg (hr ▸ List.mem_append_right _ List.mem_cons_self)
  · exact absurd hs (by simp)

/-! ### The invariant -/

/-- Holds in every reachable state. -/
structure Inv (s : State ι cfg.server_num) (u : DealerRouter.State ι cfg.server_num) : Prop where
  net : DealerRouter.Inv cfg u
  rel : Rel s u
  client : ∀ c, (s.clients c).Ok

section Inv

variable {s t : State ι cfg.server_num} {u : DealerRouter.State ι cfg.server_num}

theorem inv_init : Inv (system cfg).init (DealerRouter.system cfg).init where
  net := DealerRouter.inv_init
  rel := ⟨fun _ => ⟨rfl, rfl, rfl, rfl⟩, rfl⟩
  client _ := by
    refine ⟨rfl, rfl, ?_, fun _ => rfl, by simp [system], by simp [system], fun _ => rfl, by simp [system]⟩
    intro l w r f heq
    exact absurd heq (by simp [system])

omit [DecidableEq ι] in
/-- The replies to a client, as tokens of its requests. -/
theorem Inv.replies (hi : Inv s u) (c : ι) : ∃ ks : List ℕ,
    (s.clients c).received = ks.map (fun k => msgFrame (c, k)) ∧ ks.Nodup ∧
      ∀ k ∈ ks, .request k ∈ (s.clients c).out := by
  obtain ⟨ks, hks, hnd, hsent⟩ := hi.net.integrity.replies c
  have hrel := hi.rel.client c
  exact ⟨ks, hrel.received.trans hks, hnd, fun k hk => (hi.client c).announced hrel (hsent k hk)⟩

theorem inv_step (hi : Inv s u) {a : Action ι cfg.server_num} (hs : step cfg s a = some t) :
    ∃ v, (DealerRouter.system cfg).exec u (visible a) = some v ∧ Inv t v := by
  obtain ⟨v, hv, hrel⟩ := forward hi.rel hs
  have hnet : DealerRouter.Inv cfg v :=
    System.exec_preserves (fun _ _ _ => DealerRouter.inv_step) hi.net hv
  refine ⟨v, hv, hnet, hrel, fun d => ?_⟩
  by_cases ha : ∃ c st, a = .client c st
  · obtain ⟨c, st, rfl⟩ := ha
    obtain ⟨x, hx, rfl⟩ := Option.map_eq_some_iff.mp hs
    by_cases hd : d = c
    · subst hd
      dsimp only
      rw [Function.update_self]
      obtain ⟨ks, hks, -, hann⟩ := hi.replies d
      refine ok_run (hi.client d) hx fun f hf => ?_
      rw [hks] at hf
      obtain ⟨k, hk, rfl⟩ := List.mem_map.mp hf
      exact hann k hk
    · dsimp only
      rw [Function.update_of_ne hd]
      exact hi.client d
  · rw [server_keeps (fun c st heq => ha ⟨c, st, heq⟩) hs d]
    obtain ⟨h1, h2, h3, h4, h5, h6, h7, h8⟩ := hi.client d
    exact ⟨h1, h2, h3, h4, h5, h6, h7, h8⟩

omit [DecidableEq ι] in
theorem Inv.screen (hi : Inv s u) (name : Bytes) (c : ι) : Screen name c (s.clients c) where
  start := (hi.client c).start
  recv := (hi.client c).recv
  replies := hi.replies c
  ordered := (hi.client c).ordered
  bytes := by
    rw [← (hi.client c).start, ← (hi.client c).recv, ← List.flatMap_append]
    exact (List.filter_append_perm Write.ofStart (s.clients c).out).symm.flatMap_right _
  startText := (hi.client c).start ▸ List.filter_sublist.flatMap _
  recvText := (hi.client c).recv ▸ List.filter_sublist.flatMap _
  under _ hw _ hf := (hi.client c).ordered.under name hw hf

theorem inv_of_exec {as : List (Action ι cfg.server_num)}
    (hs : (system cfg).exec (system cfg).init as = some s) : ∃ u, Inv s u :=
  System.exec_preserves (I := fun s => ∃ u, Inv s u)
    (fun _ _ _ hi h => let ⟨_, hi⟩ := hi; (inv_step hi h).imp fun _ hv => hv.2) ⟨_, inv_init⟩ hs

end Inv

/-- **The screens of threaded clients** in every state of every run. -/
theorem threads_screens (cfg : Config ι) (as : List (Action ι cfg.server_num)) :
    (system cfg).Always (fun s => ∀ c, Screen (cfg.name c) c (s.clients c)) as := by
  intro pre _ s hs c
  obtain ⟨u, hi⟩ := inv_of_exec hs
  exact hi.screen (cfg.name c) c

/-- The runs of the two systems that show the same. -/
structure Equivalent (cfg : Config ι) : Prop where
  /-- What threaded clients show to the server, clients with one loop can show. -/
  forth : ∀ as s, (system cfg).exec (system cfg).init as = some s →
    ∃ u, (DealerRouter.system cfg).exec (DealerRouter.system cfg).init (as.flatMap visible) = some u ∧
      Rel s u
  back : ∀ bs u, (DealerRouter.system cfg).exec (DealerRouter.system cfg).init bs = some u →
    ∃ as s, (system cfg).exec (system cfg).init as = some s ∧ as.flatMap visible = bs ∧ Rel s u

theorem simulation_forth (cfg : Config ι) :
    System.Simulation (system cfg) (DealerRouter.system cfg) Rel visible fun b => [b] where
  init := inv_init.rel
  step _ a _ _ hrel hs := by
    obtain ⟨v, hv, hrel⟩ := forward hrel hs
    exact ⟨visible a, v, hv, List.flatMap_singleton' _, hrel⟩

theorem simulation_back (cfg : Config ι) :
    System.Simulation (DealerRouter.system cfg) (system cfg)
      (fun u s => Rel s u ∧ ∀ c, (s.clients c).AtRest) (fun b => [b]) visible where
  init := ⟨inv_init.rel, fun _ => Or.inl ⟨rfl, rfl⟩⟩
  step _ _ _ _ h hu := by
    obtain ⟨as, t, ht, has, hrel, hrest⟩ := backward h.1 h.2 hu
    exact ⟨as, t, ht, has, hrel, hrest⟩

/-- **Threads or one loop**, the server cannot tell. -/
theorem threads_equivalent (cfg : Config ι) : Equivalent cfg where
  forth as s hs := by
    obtain ⟨bs, u, hu, hbs, hrel⟩ := (simulation_forth cfg).exec hs
    rw [List.flatMap_singleton'] at hbs
    exact ⟨u, hbs ▸ hu, hrel⟩
  back bs u hu := by
    obtain ⟨as, s, hs, has, hrel, -⟩ := (simulation_back cfg).exec hu
    rw [List.flatMap_singleton'] at has
    exact ⟨as, s, hs, has, hrel⟩

/-! ### At rest -/

/-- Any step but the beginning of a new request. -/
def Finishes {n : ℕ} : Action ι n → Prop
  | .client _ .count => False
  | _ => True

/-- The steps of `start` for a request that is counted, those of the system for it included three
times. -/
def StartPc.load : StartPc → ℕ
  | .activate => 3
  | .create => 2
  | .count => 0
  | .print => 23
  | .send => 22

def RecvPc.load : RecvPc ι → ℕ
  | .absent => 0
  | .greet => 1
  | .recv => 0
  | .dump _ => 2
  | .report _ => 1

def Client.load (v : Client ι) : ℕ := v.pc.load + v.rpc.load

/-- What a client has on its connection. -/
def Client.queued (v : Client ι) : ℕ := 7 * v.toRouter.length + DealerRouter.frames v.toClient

section Rest

variable [Fintype ι] {s t : State ι cfg.server_num} {u v : DealerRouter.State ι cfg.server_num}

/-- A step of the system of `DealerRouter` counts three, as a reply that is received has still to be
printed, in two steps. -/
def State.load {n : ℕ} (s : State ι n) : ℕ :=
  3 * (total Client.queued s.clients + total Worker.load s.workers) + total Client.load s.clients

omit [DecidableEq ι] in
theorem load_eq (h : Rel s u) : s.load = 3 * DealerRouter.pending u + total Client.load s.clients := by
  have hqueued : total Client.queued s.clients = total DealerRouter.Client.load u.clients :=
    Finset.sum_congr rfl fun c _ => by
      rw [Client.queued, (h.client c).toRouter, (h.client c).toClient]
      rfl
  rw [State.load, hqueued, h.worker]
  rfl

omit [Fintype ι] [DecidableEq ι] in
/-- What a statement takes off the load of its client. -/
theorem run_load {c : ι} {v v' : Client ι} {st : Statement} (hs : v.run c st = some v')
    (hst : st ≠ .count) : (st = .send ∧ v'.load + 22 = v.load) ∨
      (st = .recv ∧ v'.load = v.load + 2) ∨ (st ≠ .send ∧ st ≠ .recv ∧ v'.load < v.load) := by
  unfold Client.run at hs
  split at hs
  · rename_i hpc
    obtain rfl := Option.some.inj hs
    exact Or.inr (Or.inr ⟨by simp, by simp, by simp [Client.load, hpc, StartPc.load]⟩)
  · rename_i hpc
    obtain rfl := Option.some.inj hs
    refine Or.inr (Or.inr ⟨by simp, by simp, ?_⟩)
    simp [Client.load, hpc, StartPc.load, RecvPc.load]
    omega
  · exact absurd rfl hst
  · rename_i hpc
    obtain rfl := Option.some.inj hs
    exact Or.inr (Or.inr ⟨by simp, by simp, by simp [Client.load, hpc, StartPc.load]⟩)
  · rename_i hpc
    obtain rfl := Option.some.inj hs
    refine Or.inl ⟨rfl, ?_⟩
    simp [Client.load, hpc, StartPc.load]
    omega
  · rename_i hrpc
    obtain rfl := Option.some.inj hs
    exact Or.inr (Or.inr ⟨by simp, by simp, by simp [Client.load, hrpc, RecvPc.load]⟩)
  · rename_i hrpc
    obtain ⟨fr, hfr, rfl⟩ := Option.map_eq_some_iff.mp hs
    exact Or.inr (Or.inl ⟨rfl, by simp [Client.load, hrpc, RecvPc.load]⟩)
  · rename_i msg hrpc
    obtain rfl := Option.some.inj hs
    exact Or.inr (Or.inr ⟨by simp, by simp, by simp [Client.load, hrpc, RecvPc.load]⟩)
  · rename_i msg hrpc
    obtain rfl := Option.some.inj hs
    exact Or.inr (Or.inr ⟨by simp, by simp, by simp [Client.load, hrpc, RecvPc.load]⟩)
  · exact absurd hs (by simp)

theorem load_step (hi : Inv s u) {a : Action ι cfg.server_num} (ha : Finishes a)
    (hs : step cfg s a = some t) : t.load < s.load := by
  obtain ⟨v, hv, hit⟩ := inv_step hi hs
  rw [load_eq hi.rel, load_eq hit.rel]
  -- a step that the server sees, but for a send
  have hone : ∀ b, visible a = [b] → Serves b →
      DealerRouter.pending v + 1 = DealerRouter.pending u := by
    intro b hb hserves
    rw [hb] at hv
    obtain ⟨r, hr, hrv⟩ := Option.bind_eq_some_iff.mp hv
    obtain rfl := Option.some.inj hrv
    exact DealerRouter.pending_step hi.net hserves hr
  have hserver : (∀ c st, a ≠ .client c st) →
      total Client.load t.clients = total Client.load s.clients := fun ha =>
    Finset.sum_congr rfl fun d _ => by
      rw [server_keeps ha hs d]
      rfl
  cases a with
  | client c st =>
    obtain ⟨x, hx, rfl⟩ := Option.map_eq_some_iff.mp hs
    have htotal := total_update Client.load s.clients c x
    have hst : st ≠ .count := by
      rintro rfl
      exact ha
    dsimp only
    rcases run_load hx hst with ⟨rfl, hload⟩ | ⟨rfl, hload⟩ | ⟨hsend, hrecv, hload⟩
    · obtain rfl := Option.some.inj hv
      have hsend := DealerRouter.pending_send (s := u) c
      omega
    · have := hone _ rfl trivial
      omega
    · have hnone : visible (Action.client c st : Action ι cfg.server_num) = [] := by
        cases st <;> first | rfl | contradiction
      rw [hnone] at hv
      obtain rfl := Option.some.inj hv
      omega
  | proxyRequest c w =>
    have := hone _ rfl trivial
    have := hserver (by simp)
    omega
  | work w =>
    have := hone _ rfl trivial
    have := hserver (by simp)
    omega
  | proxyReply w c =>
    have := hone _ rfl trivial
    have := hserver (by simp)
    omega

theorem variant : (system cfg).Variant Finishes (fun s => ∃ u, Inv s u) State.load where
  keeps _ _ _ hi _ h := let ⟨_, hi⟩ := hi; (inv_step hi h).imp fun _ hv => hv.2
  down _ _ _ hi ha h := let ⟨_, hi⟩ := hi; load_step hi ha h

/-- Every request has one reply, and all replies are on the screen. -/
structure Complete (s : State ι cfg.server_num) : Prop where
  received : ∀ c, (s.clients c).received.Perm
    ((List.range' 1 (s.clients c).reqs).map fun k => msgFrame (c, k))
  start : ∀ c, (s.clients c).out.filter Write.ofStart =
    .started :: (List.range' 1 (s.clients c).reqs).map Write.request
  recv : ∀ c, ((s.clients c).out.filter fun w => !w.ofStart) =
    .thread :: shown (s.clients c).received

omit [Fintype ι] in
/-- Both threads wait at the head of their loops. -/
theorem quiet_client (hi : Inv s u) (hq : (system cfg).Quiet Finishes s) (c : ι) :
    (s.clients c).pc = .count ∧ (s.clients c).rpc = .recv := by
  have hnone : ∀ st, st ≠ .count → (s.clients c).run c st = none := fun st hst =>
    Option.map_eq_none_iff.mp (hq (.client c st) (by cases st <;> trivial))
  have hpc : (s.clients c).pc = .count := by
    cases hpc : (s.clients c).pc with
    | activate => exact absurd (hnone .activate (by simp)) (by simp [Client.run, hpc])
    | create => exact absurd (hnone .create (by simp)) (by simp [Client.run, hpc])
    | count => rfl
    | print => exact absurd (hnone .print (by simp)) (by simp [Client.run, hpc])
    | send => exact absurd (hnone .send (by simp)) (by simp [Client.run, hpc])
  refine ⟨hpc, ?_⟩
  cases hrpc : (s.clients c).rpc with
  | absent =>
    have := (hi.client c).created.mp hrpc
    simp [hpc] at this
  | greet => exact absurd (hnone .greet (by simp)) (by simp [Client.run, hrpc])
  | recv => rfl
  | dump msg => exact absurd (hnone .dump (by simp)) (by simp [Client.run, hrpc])
  | report msg => exact absurd (hnone .report (by simp)) (by simp [Client.run, hrpc])

omit [Fintype ι] in
/-- Then the system of `DealerRouter` rests, too. -/
theorem quiet_net (hi : Inv s u) (hq : (system cfg).Quiet Finishes s) :
    (DealerRouter.system cfg).Quiet Serves u := by
  intro b hb
  by_contra hne
  obtain ⟨v, hv⟩ := Option.ne_none_iff_exists'.mp hne
  cases b with
  | clientSend c => exact hb
  | clientRecv c =>
    obtain ⟨x, hx, -⟩ := Option.map_eq_some_iff.mp hv
    obtain ⟨fr, hfr, -⟩ := Option.map_eq_some_iff.mp hx
    rw [← (hi.rel.client c).toClient] at hfr
    have hnone := Option.map_eq_none_iff.mp (hq (.client c .recv) trivial)
    exact absurd hnone (by simp [Client.run, (quiet_client hi hq c).2, hfr])
  | proxyRequest c w =>
    obtain ⟨t, ht, -⟩ := rel_some_right (proxyRequest_rel hi.rel c w) hv
    exact absurd (ht.symm.trans (hq (.proxyRequest c w) trivial)) (by simp)
  | work w =>
    obtain ⟨t, ht, -⟩ := rel_some_right (work_rel hi.rel w) hv
    exact absurd (ht.symm.trans (hq (.work w) trivial)) (by simp)
  | proxyReply w c =>
    obtain ⟨t, ht, -⟩ := rel_some_right (proxyReply_rel hi.rel w c) hv
    exact absurd (ht.symm.trans (hq (.proxyReply w c) trivial)) (by simp)

theorem complete_of_quiet (hpos : 0 < cfg.server_num) (hi : Inv s u)
    (hq : (system cfg).Quiet Finishes s) : Complete s := by
  have hz := ((DealerRouter.countdown hpos).quiet_iff hi.net).mp (quiet_net hi hq)
  have hanswered := DealerRouter.answered_of_rest hi.net hz
  refine ⟨fun c => ?_, fun c => ?_, fun c => ?_⟩
  · have hrel := hi.rel.client c
    have hreqs := hrel.reqs
    rw [(quiet_client hi hq c).1] at hreqs
    rw [hrel.received, hreqs]
    exact hanswered c
  · have hstart := (hi.client c).start
    rwa [Client.startScript, Client.announced, (quiet_client hi hq c).1] at hstart
  · have hrecv := (hi.client c).recv
    rwa [Client.recvScript, (quiet_client hi hq c).2] at hrecv

/-- Without new requests every schedule is bounded and goes on to a rest, and at every rest of the
system all is answered. -/
structure Answers (cfg : Config ι) (s : State ι cfg.server_num) : Prop where
  bounded : ∀ as t, (∀ a ∈ as, Finishes a) → (system cfg).exec s as = some t → as.length ≤ s.load
  rests : ∀ as t, (∀ a ∈ as, Finishes a) → (system cfg).exec s as = some t →
    ∃ bs r, (∀ a ∈ bs, Finishes a) ∧ (system cfg).exec t bs = some r ∧ (system cfg).Quiet Finishes r
  complete : ∀ as t, (system cfg).exec s as = some t → (system cfg).Quiet Finishes t → Complete t

/-- **Every request of threaded clients is answered and shown**, if there is a worker. -/
theorem threads_answered (cfg : Config ι) (hpos : 0 < cfg.server_num)
    (as : List (Action ι cfg.server_num)) : (system cfg).Always (Answers cfg) as := by
  intro pre _ s hs
  have hi := inv_of_exec hs
  refine ⟨fun bs t hbs ht => ?_, fun bs t hbs ht => ?_, fun bs t ht hq => ?_⟩
  · have := variant.exec_length hi hbs ht
    omega
  · exact variant.comes_to_rest (variant.exec_keeps hi hbs ht)
  · have hall : (system cfg).exec (system cfg).init (pre ++ bs) = some t := by
      rw [System.exec_append, hs]
      exact ht
    obtain ⟨u, hi⟩ := inv_of_exec hall
    exact complete_of_quiet hpos hi hq

theorem threads_answered_solo : 0 < DealerRouter.soloConfig.server_num ∧
    (system DealerRouter.soloConfig).Always (Answers DealerRouter.soloConfig)
      [.client () .activate, .client () .create, .client () .count, .client () .print] :=
  ⟨Nat.one_pos, threads_answered DealerRouter.soloConfig Nat.one_pos
    [.client () .activate, .client () .create, .client () .count, .client () .print]⟩

end Rest

end Fssn.Zmq.DealerThread
