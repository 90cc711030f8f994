import Fssn.Lib.Countdown
import Fssn.Lib.Decimal
import Fssn.Lib.ReqRep

/-!
# Fssn.Zmq.Hello — the hello-world server and its clients

`lec-05-prg-01` and `lec-05-prg-02`: a client asks ten times, each time when it has the reply to what it
asked before; the server answers one request at a time.  A step is one statement of one program.

* `hello_transcripts`: what a client has printed depends on nothing but how far it is.
* `hello_completes`: whatever the order of the steps, no run is longer than 81 steps a client, and one
  that cannot go on has this length and leaves all clients with their ten replies.
-/

namespace Fssn.Zmq.Hello

open Fssn.Lib

/-! ### The programs -/

/-- The client's `input`. -/
def hello : Bytes := ascii "Hello"

/-- The server's `input`. -/
def world : Bytes := ascii "World"

inductive ClientPc
  | connect
  | print
  | send
  | recv
  | report
  | finished
deriving DecidableEq

/-- A client, with its loop variable. -/
structure Client where
  pc : ClientPc
  i : ℕ
  reply : Bytes
  out : Bytes

/-- The statement at the program counter, the receive apart, and what it sends. -/
def Client.statement (v : Client) : Option (Client × List Bytes) :=
  match v.pc with
  | .connect =>
    some ({ v with out := v.out ++ ascii "Connecting to hello world server...\n", pc := .print }, [])
  | .print =>
    some ({ v with
      out := v.out ++ ascii "Sending request " ++ decimal v.i ++ ascii "...\n"
      pc := .send }, [])
  | .send => some ({ v with pc := .recv }, [hello])
  | .recv => none
  | .report =>
    some ({ v with
      out := v.out ++ ascii "Received reply " ++ hello ++ ascii " [ " ++ v.reply ++ ascii " ]\n"
      i := v.i + 1
      pc := if v.i + 1 < 10 then .print else .finished }, [])
  | .finished => none

inductive ServerPc
  | recv
  | print
  | make
  | send
deriving DecidableEq

structure Server where
  pc : ServerPc
  request : Bytes
  reply : Bytes
  out : Bytes

def Server.statement (v : Server) : Option (Server × List Bytes) :=
  match v.pc with
  | .recv => none
  | .print =>
    some ({ v with
      out := v.out ++ ascii "Received request: [" ++ v.request ++ ascii "]\n"
      pc := .make }, [])
  | .make => some ({ v with reply := world, pc := .send }, [])
  | .send => some ({ v with reply := [], pc := .recv }, [v.reply])

structure State (ι : Type*) where
  clients : ι → Client
  server : Server
  sockets : ReqRep ι Bytes

inductive Action (ι : Type*)
  | client (c : ι)
  | clientRecv (c : ι)
  | serverRecv (c : ι)
  | server

variable {ι : Type*} [DecidableEq ι]

def step (s : State ι) (a : Action ι) : Option (State ι) :=
  match a with
  | .client c =>
    ((s.clients c).statement).map fun r =>
      { s with
        clients := Function.update s.clients c r.1
        sockets := r.2.foldl (fun R x => R.request c x) s.sockets }
  | .clientRecv c =>
    if (s.clients c).pc = .recv then
      (s.sockets.receive c).map fun r =>
        { s with
          clients := Function.update s.clients c { s.clients c with reply := r.1, pc := .report }
          sockets := r.2 }
    else none
  | .serverRecv c =>
    if s.server.pc = .recv then
      (s.sockets.accept c).map fun r =>
        { s with server := { s.server with request := r.1, pc := .print }, sockets := r.2 }
    else none
  | .server =>
    s.server.statement.bind fun r =>
      match r.2 with
      | [] => some { s with server := r.1 }
      | y :: _ => (s.sockets.reply y).map fun R => { s with server := r.1, sockets := R }

/-- The server and its clients, before anything was printed. -/
def system : System (State ι) (Action ι) where
  init := ⟨fun _ => ⟨.connect, 0, [], []⟩, ⟨.recv, [], [], []⟩, .empty⟩
  step := step

/-! ### The law -/

def sending (i : ℕ) : Bytes := ascii "Sending request " ++ decimal i ++ ascii "...\n"

def received : Bytes := ascii "Received reply Hello [ World ]\n"

/-- What a client has printed when its loop variable is `i` and it stands at `pc`. -/
def transcript : ClientPc → ℕ → Bytes
  | .connect, _ => []
  | pc, i => ascii "Connecting to hello world server...\n" ++
      (List.range i).flatMap (fun j => sending j ++ received) ++
      match pc with
      | .send | .recv | .report => sending i
      | _ => []

def requestLine : Bytes := ascii "Received request: [Hello]\n"

/-- The requests that a client has sent. -/
def Client.asked (v : Client) : ℕ :=
  match v.pc with
  | .recv => v.i + 1
  | .report => v.i + 1
  | _ => v.i

/-- Every client has printed what it should, and the server a line for every request that has reached
it. -/
structure Transcripts [Fintype ι] (s : State ι) : Prop where
  client : ∀ c, (s.clients c).out = transcript (s.clients c).pc (s.clients c).i
  server : ∃ k, s.server.out = (List.replicate k requestLine).flatten ∧
    k + total List.length s.sockets.requests + (if s.server.pc = .print then 1 else 0) =
      total Client.asked s.clients

/-- A client has asked ten times and has got ten replies. -/
def Finished (s : State ι) (c : ι) : Prop :=
  (s.clients c).pc = .finished ∧ (s.clients c).out = transcript .finished 10

/-! ### The clients -/

/-- A client between two statements. -/
structure Client.Ok (v : Client) : Prop where
  out : v.out = transcript v.pc v.i
  i : match v.pc with
    | .connect => v.i = 0
    | .finished => v.i = 10
    | _ => v.i < 10
  reply : v.pc = .report → v.reply = world

/-- The steps that a client has before it, those for what is outstanding apart. -/
def Client.load (v : Client) : ℕ :=
  match v.pc with
  | .connect => 81
  | .print => 8 * (9 - v.i) + 8
  | .send => 8 * (9 - v.i) + 7
  | .recv => 8 * (9 - v.i) + 1
  | .report => 8 * (9 - v.i) + 1
  | .finished => 0

omit [DecidableEq ι] in
theorem transcript_succ (i : ℕ) (pc : ClientPc) (hpc : pc = .print ∨ pc = .finished) :
    transcript .report i ++ received = transcript pc (i + 1) := by
  rcases hpc with rfl | rfl
  · simp [transcript, List.range_succ, List.flatMap_append]
  · simp [transcript, List.range_succ, List.flatMap_append]

/-- A statement of a client sends nothing, or it sends the request for which it waits next. -/
theorem client_statement {v w : Client} {xs : List Bytes} (hv : v.Ok)
    (h : v.statement = some (w, xs)) : w.Ok ∧
      (xs = [] ∧ v.pc ≠ .recv ∧ w.pc ≠ .recv ∧ w.load + 1 = v.load ∧ w.asked = v.asked ∨
        xs = [hello] ∧ v.pc ≠ .recv ∧ w.pc = .recv ∧ w.load + 6 = v.load ∧
          w.asked = v.asked + 1) := by
  obtain ⟨hout, hi, hreply⟩ := hv
  unfold Client.statement at h
  cases hpc : v.pc with
  | connect =>
    rw [hpc] at h hout hi
    obtain ⟨rfl, rfl⟩ := Prod.mk.inj (Option.some.inj h)
    refine ⟨⟨?_, ?_, by simp⟩, Or.inl ⟨rfl, by simp, by simp, ?_, ?_⟩⟩
    · dsimp only at hi ⊢
      rw [hout, hi]
      rfl
    · dsimp only at hi ⊢
      omega
    · dsimp only at hi
      simp only [Client.load, hpc, hi]
    · simp only [Client.asked, hpc]
  | print =>
    rw [hpc] at h hout hi
    obtain ⟨rfl, rfl⟩ := Prod.mk.inj (Option.some.inj h)
    refine ⟨⟨?_, hi, by simp⟩, Or.inl ⟨rfl, by simp, by simp, ?_, ?_⟩⟩
    · dsimp only
      rw [hout]
      simp [transcript, sending]
    · simp only [Client.load, hpc]
    · simp only [Client.asked, hpc]
  | send =>
    rw [hpc] at h hout hi
    obtain ⟨rfl, rfl⟩ := Prod.mk.inj (Option.some.inj h)
    refine ⟨⟨hout, hi, by simp⟩, Or.inr ⟨rfl, by simp, rfl, ?_, ?_⟩⟩
    · simp only [Client.load, hpc]
    · simp only [Client.asked, hpc]
  | recv =>
    rw [hpc] at h
    exact absurd h (by simp)
  | report =>
    rw [hpc] at h hout hi
    obtain ⟨rfl, rfl⟩ := Prod.mk.inj (Option.some.inj h)
    dsimp only at hi
    have htext : v.out ++ ascii "Received reply " ++ hello ++ ascii " [ " ++ v.reply ++
        ascii " ]\n" = transcript .report v.i ++ received := by
      rw [hout, hreply hpc]
      simp only [List.append_assoc]
      rfl
    by_cases hlast : v.i + 1 < 10
    · rw [if_pos hlast]
      refine ⟨⟨htext.trans (transcript_succ _ _ (Or.inl rfl)), hlast, by simp⟩,
        Or.inl ⟨rfl, by simp, by simp, ?_, ?_⟩⟩
      · simp only [Client.load, hpc]
        omega
      · simp only [Client.asked, hpc]
    · have hten : v.i = 9 := by omega
      rw [if_neg hlast]
      refine ⟨⟨htext.trans (transcript_succ _ _ (Or.inr rfl)), ?_, by simp⟩,
        Or.inl ⟨rfl, by simp, by simp, ?_, ?_⟩⟩
      · dsimp only
        omega
      · simp only [Client.load, hpc]
        omega
      · simp only [Client.asked, hpc]
  | finished =>
    rw [hpc] at h
    exact absurd h (by simp)

/-! ### The invariant -/

section Inv

variable [Fintype ι]

/-- What a client has outstanding. -/
def Client.due (v : Client) : ℕ := if v.pc = .recv then 1 else 0

theorem due_recv {v : Client} (h : v.pc = .recv) : v.due = 1 := if_pos h

theorem due_of_ne {v : Client} (h : v.pc ≠ .recv) : v.due = 0 := if_neg h

/-- A client has something outstanding when it waits for it, and the server owes a reply when it does
not wait for a request. -/
structure Inv (s : State ι) : Prop where
  client : ∀ c, (s.clients c).Ok
  carries : s.sockets.Carries (fun x => x = hello) (fun y => y = world)
  waits : ∀ c, s.sockets.outstanding c = (s.clients c).due
  requester : s.sockets.requester = none ↔ s.server.pc = .recv
  request : s.server.pc = .print → s.server.request = hello
  reply : s.server.pc = .send → s.server.reply = world
  served : ∃ k, s.server.out = (List.replicate k requestLine).flatten ∧
    k + total List.length s.sockets.requests + (if s.server.pc = .print then 1 else 0) =
      total Client.asked s.clients

/-- The steps for what is outstanding: a request on its way has five, a reply one. -/
def socketLoad (R : ReqRep ι Bytes) : ℕ :=
  5 * total List.length R.requests + total List.length R.replies

def Server.load (v : Server) : ℕ :=
  match v.pc with
  | .recv => 0
  | .print => 4
  | .make => 3
  | .send => 2

/-- The steps that are still to be taken. -/
def pending (s : State ι) : ℕ :=
  total Client.load s.clients + socketLoad s.sockets + s.server.load

variable {s t : State ι}

/-- A statement of a client. -/
theorem client_step {c : ι} (hi : Inv s) (h : step s (.client c) = some t) :
    Inv t ∧ pending t + 1 = pending s := by
  obtain ⟨⟨w, xs⟩, hst, rfl⟩ := Option.map_eq_some_iff.mp h
  obtain ⟨hw, hcase⟩ := client_statement (hi.client c) hst
  obtain ⟨k, hout, hk⟩ := hi.served
  have hclients : ∀ d, (Function.update s.clients c w d).Ok := by
    intro d
    by_cases hd : d = c
    · subst hd
      rwa [Function.update_self]
    · rw [Function.update_of_ne hd]
      exact hi.client d
  have hload := total_update Client.load s.clients c w
  have hasked := total_update Client.asked s.clients c w
  rcases hcase with ⟨rfl, hv, hpc, hl, ha⟩ | ⟨rfl, hv, hpc, hl, ha⟩
  · refine ⟨⟨hclients, hi.carries, fun d => ?_, hi.requester, hi.request, hi.reply, k, hout, ?_⟩, ?_⟩
    · rw [List.foldl_nil, hi.waits d]
      by_cases hd : d = c
      · subst hd
        dsimp only
        rw [Function.update_self, due_of_ne hv, due_of_ne hpc]
      · dsimp only
        rw [Function.update_of_ne hd]
    · rw [List.foldl_nil]
      dsimp only at hasked ⊢
      omega
    · unfold pending
      rw [List.foldl_nil]
      dsimp only at hload ⊢
      omega
  · have hreq := total_update List.length s.sockets.requests c (s.sockets.requests c ++ [hello])
    rw [List.length_append, List.length_singleton] at hreq
    refine ⟨⟨hclients, hi.carries.request rfl c, fun d => ?_, hi.requester, hi.request, hi.reply,
      k, hout, ?_⟩, ?_⟩
    · show (s.sockets.request c hello).outstanding d = _
      rw [ReqRep.outstanding_request, hi.waits d]
      by_cases hd : d = c
      · subst hd
        dsimp only
        rw [Function.update_self, due_of_ne hv, due_recv hpc, if_pos rfl]
      · dsimp only
        rw [Function.update_of_ne hd, if_neg hd, Nat.add_zero]
    · show k + total List.length (Function.update s.sockets.requests c _) +
        (if s.server.pc = .print then 1 else 0) = total Client.asked (Function.update s.clients c w)
      omega
    · show total Client.load (Function.update s.clients c w) +
        (5 * total List.length (Function.update s.sockets.requests c _) +
          total List.length s.sockets.replies) + s.server.load + 1 = _
      unfold pending socketLoad
      omega

/-- A client receives the reply it waits for. -/
theorem clientRecv_step {c : ι} (hi : Inv s) (h : step s (.clientRecv c) = some t) :
    Inv t ∧ pending t + 1 = pending s := by
  rw [step] at h
  split_ifs at h with hpc
  obtain ⟨⟨y, R⟩, hr, rfl⟩ := Option.map_eq_some_iff.mp h
  obtain ⟨hy, hcarries⟩ := hi.carries.receive hr
  obtain ⟨hreq, hrequester, hc, hother⟩ := ReqRep.receive_some hr
  obtain ⟨k, hout, hk⟩ := hi.served
  obtain ⟨hvout, hvi, -⟩ := hi.client c
  rw [hpc] at hvout hvi
  have hload := total_update Client.load s.clients c { s.clients c with reply := y, pc := .report }
  have hasked := total_update Client.asked s.clients c { s.clients c with reply := y, pc := .report }
  have hreplies := total_of_ne List.length hother
  rw [hc, List.length_cons] at hreplies
  have hl : Client.load { s.clients c with reply := y, pc := .report } = (s.clients c).load := by
    simp only [Client.load, hpc]
  have ha : Client.asked { s.clients c with reply := y, pc := .report } = (s.clients c).asked := by
    simp only [Client.asked, hpc]
  dsimp only at hload hasked hl ha
  refine ⟨⟨fun d => ?_, hcarries, fun d => ?_, ?_, hi.request, hi.reply, k, hout, ?_⟩, ?_⟩
  · by_cases hd : d = c
    · subst hd
      dsimp only
      rw [Function.update_self]
      exact ⟨hvout, hvi, fun _ => hy⟩
    · dsimp only
      rw [Function.update_of_ne hd]
      exact hi.client d
  · have hd := ReqRep.outstanding_receive hr d
    rw [hi.waits d] at hd
    by_cases hdc : d = c
    · subst hdc
      dsimp only
      rw [due_recv hpc, if_pos rfl] at hd
      rw [Function.update_self, due_of_ne (by simp)]
      omega
    · dsimp only
      rw [if_neg hdc, Nat.add_zero] at hd
      rw [Function.update_of_ne hdc, hd]
  · dsimp only
    rw [hrequester]
    exact hi.requester
  · dsimp only
    rw [hreq]
    omega
  · unfold pending socketLoad
    dsimp only
    rw [hreq]
    omega

/-- The server accepts a request. -/
theorem serverRecv_step {c : ι} (hi : Inv s) (h : step s (.serverRecv c) = some t) :
    Inv t ∧ pending t + 1 = pending s := by
  rw [step] at h
  split_ifs at h with hpc
  obtain ⟨⟨x, R⟩, hr, rfl⟩ := Option.map_eq_some_iff.mp h
  obtain ⟨hx, hcarries⟩ := hi.carries.accept hr
  obtain ⟨-, hbusy, hc, hother, hreplies⟩ := ReqRep.accept_some hr
  obtain ⟨k, hout, hk⟩ := hi.served
  have hreqs := total_of_ne List.length hother
  rw [hc, List.length_cons] at hreqs
  refine ⟨⟨hi.client, hcarries, fun d => ?_, ?_, fun _ => hx, by simp, k, hout, ?_⟩, ?_⟩
  · rw [ReqRep.outstanding_accept hr d, hi.waits d]
  · simp [hbusy]
  · rw [hpc, if_neg (by simp)] at hk
    dsimp only
    rw [if_pos rfl]
    omega
  · unfold pending socketLoad
    simp only [Server.load, hpc, hreplies]
    omega

/-- A statement of the server. -/
theorem server_step (hi : Inv s) (h : step s .server = some t) :
    Inv t ∧ pending t + 1 = pending s := by
  obtain ⟨⟨v, ys⟩, hst, h⟩ := Option.bind_eq_some_iff.mp h
  obtain ⟨k, hout, hk⟩ := hi.served
  unfold Server.statement at hst
  cases hpc : s.server.pc with
  | recv =>
    rw [hpc] at hst
    exact absurd hst (by simp)
  | print =>
    rw [hpc] at hst
    obtain ⟨rfl, rfl⟩ := Prod.mk.inj (Option.some.inj hst)
    obtain rfl := Option.some.inj h
    refine ⟨⟨hi.client, hi.carries, hi.waits, ?_, by simp, by simp, k + 1, ?_, ?_⟩, ?_⟩
    · rw [hi.requester, hpc]
      simp
    · dsimp only
      rw [hout, hi.request hpc, List.replicate_succ', List.flatten_append, List.append_assoc,
        List.append_assoc]
      rfl
    · rw [hpc, if_pos rfl] at hk
      dsimp only
      rw [if_neg (by simp)]
      omega
    · simp only [pending, Server.load, hpc]
  | make =>
    rw [hpc] at hst
    obtain ⟨rfl, rfl⟩ := Prod.mk.inj (Option.some.inj hst)
    obtain rfl := Option.some.inj h
    refine ⟨⟨hi.client, hi.carries, hi.waits, ?_, by simp, fun _ => rfl, k, hout, ?_⟩, ?_⟩
    · rw [hi.requester, hpc]
      simp
    · rw [hpc, if_neg (by simp)] at hk
      dsimp only
      rw [if_neg (by simp)]
      exact hk
    · simp only [pending, Server.load, hpc]
  | send =>
    rw [hpc] at hst
    obtain ⟨rfl, rfl⟩ := Prod.mk.inj (Option.some.inj hst)
    obtain ⟨R, hr, rfl⟩ := Option.map_eq_some_iff.mp h
    obtain ⟨c, -, hfree, hreq, hc, hother⟩ := ReqRep.reply_some hr
    have hreplies := total_of_ne List.length hother
    rw [hc, List.length_append, List.length_singleton] at hreplies
    refine ⟨⟨hi.client, hi.carries.reply (hi.reply hpc) hr, fun d => ?_, ?_, by simp, by simp, k,
      hout, ?_⟩, ?_⟩
    · rw [ReqRep.outstanding_reply hr d, hi.waits d]
    · simp [hfree]
    · rw [hpc, if_neg (by simp)] at hk
      dsimp only
      rw [hreq, if_neg (by simp)]
      exact hk
    · unfold pending socketLoad
      simp only [Server.load, hpc, hreq]
      omega

theorem inv_init : Inv (system : System (State ι) (Action ι)).init where
  client _ := ⟨rfl, rfl, fun h => absurd h (by simp [system])⟩
  carries := .empty
  waits _ := rfl
  requester := ⟨fun _ => rfl, fun _ => rfl⟩
  request h := absurd h (by simp [system])
  reply h := absurd h (by simp [system])
  served := ⟨0, rfl, by simp [system, ReqRep.empty, total, Client.asked]⟩

/-- Each step keeps the invariant and is one of those that are still to be taken. -/
theorem step_pending {a : Action ι} (hi : Inv s) (h : system.step s a = some t) :
    Inv t ∧ pending t + 1 = pending s := by
  cases a with
  | client c => exact client_step hi h
  | clientRecv c => exact clientRecv_step hi h
  | serverRecv c => exact serverRecv_step hi h
  | server => exact server_step hi h

/-- A client that is neither waiting nor finished can go on. -/
theorem client_ready {v : Client} (h1 : v.pc ≠ .recv) (h2 : v.pc ≠ .finished) :
    v.statement.isSome := by
  unfold Client.statement
  cases hpc : v.pc with
  | recv => exact absurd hpc h1
  | finished => exact absurd hpc h2
  | connect => rfl
  | print => rfl
  | send => rfl
  | report => rfl

omit [Fintype ι] in
/-- A server that has accepted a request can go on. -/
theorem server_ready (h : s.server.pc ≠ .recv) (hreq : s.sockets.requester ≠ none) :
    (step s .server).isSome := by
  rw [step, Server.statement]
  cases hpc : s.server.pc with
  | recv => exact absurd hpc h
  | print => rfl
  | make => rfl
  | send =>
    obtain ⟨c, hc⟩ := Option.ne_none_iff_exists'.mp hreq
    dsimp only [Option.bind_some]
    rw [ReqRep.reply, hc]
    rfl

omit [Fintype ι] in
theorem exists_step {a : Action ι} (h : (step s a).isSome) : ∃ a t, system.step s a = some t := by
  obtain ⟨t, ht⟩ := Option.isSome_iff_exists.mp h
  exact ⟨a, t, ht⟩

/-- Someone can go on until all clients have finished. -/
theorem progress (hi : Inv s) (h : ∃ c, (s.clients c).pc ≠ .finished) :
    ∃ a t, system.step s a = some t := by
  obtain ⟨c, hc⟩ := h
  by_cases hwait : (s.clients c).pc = .recv
  · by_cases hpc : s.server.pc = .recv
    · -- the server is free: the request or the reply of `c` is on its way
      have hfree := hi.requester.mpr hpc
      have hdue : 0 < s.sockets.outstanding c := by rw [hi.waits c, due_recv hwait]; exact Nat.one_pos
      rcases ReqRep.exists_of_outstanding hdue with ⟨x, r, hx⟩ | hbusy | ⟨y, r, hy⟩
      · refine exists_step (a := .serverRecv c) ?_
        rw [step, if_pos hpc, ReqRep.accept, hfree, hx]
        rfl
      · exact absurd (hfree.symm.trans hbusy) (by simp)
      · refine exists_step (a := .clientRecv c) ?_
        rw [step, if_pos hwait, ReqRep.receive, hy]
        rfl
    · exact exists_step (server_ready hpc fun hfree => hpc (hi.requester.mp hfree))
  · refine exists_step (a := .client c) ?_
    rw [step, Option.isSome_map]
    exact client_ready hwait hc

/-- With all clients finished nothing is pending. -/
theorem pending_finished (hi : Inv s) (h : ∀ c, (s.clients c).pc = .finished) : pending s = 0 := by
  have hnone : ∀ c, s.sockets.outstanding c = 0 := fun c => by
    rw [hi.waits c, due_of_ne (by simp [h c])]
  have hclients : total Client.load s.clients = 0 :=
    Finset.sum_eq_zero fun c _ => by simp [Client.load, h c]
  have hreqs : total List.length s.sockets.requests = 0 :=
    Finset.sum_eq_zero fun c _ => by
      have := hnone c
      unfold ReqRep.outstanding at this
      omega
  have hreplies : total List.length s.sockets.replies = 0 :=
    Finset.sum_eq_zero fun c _ => by
      have := hnone c
      unfold ReqRep.outstanding at this
      omega
  have hserver : s.server.pc = .recv := by
    refine hi.requester.mp (Option.eq_none_iff_forall_ne_some.mpr fun c hc => ?_)
    have := hnone c
    unfold ReqRep.outstanding at this
    rw [if_pos hc] at this
    omega
  have hidle : s.server.load = 0 := by rw [Server.load, hserver]
  rw [pending, socketLoad, hclients, hreqs, hreplies, hidle]

theorem countdown : (system : System (State ι) (Action ι)).Countdown (fun _ => True) Inv pending where
  keeps _ _ _ hi h := (step_pending hi h).1
  down _ _ _ hi _ h := (step_pending hi h).2
  progress s hi h := by
    have hopen : ∃ c, (s.clients c).pc ≠ .finished := by
      by_contra hall
      exact h.ne' (pending_finished hi fun c => not_not.mp fun hc => hall ⟨c, hc⟩)
    obtain ⟨a, t, ht⟩ := progress hi hopen
    exact ⟨a, t, trivial, ht⟩

end Inv

/-! ### The results -/

section Results

variable [Fintype ι]

/-- **Transcripts**: in every run of the server and any finite number of clients. -/
theorem hello_transcripts (as : List (Action ι)) : system.Always Transcripts as :=
  (System.always_of_step inv_init (fun _ _ _ hi h => (step_pending hi h).1) as).imp
    fun _ hi => ⟨fun c => (hi.client c).out, hi.served⟩

/-- A run that has come to `s`: how long it is, what it has come to if it cannot go on, and that it can
be carried on to such an end. -/
structure Completes (as : List (Action ι)) (s : State ι) : Prop where
  bounded : as.length ≤ 81 * Fintype.card ι
  rest : system.Stuck s → as.length = 81 * Fintype.card ι ∧ (∀ c, Finished s c) ∧
    s.server.out = (List.replicate (10 * Fintype.card ι) requestLine).flatten
  goesOn : system.Reaches s system.Stuck

theorem pending_init : pending (system : System (State ι) (Action ι)).init = 81 * Fintype.card ι := by
  simp [pending, socketLoad, system, total, Client.load, Server.load, ReqRep.empty, mul_comm]

theorem Inv.finished {s : State ι} (hi : Inv s) (h : pending s = 0) (c : ι) : Finished s c := by
  have hz := load_eq_zero Client.load (f := s.clients) (by unfold pending at h; omega) c
  have hpc : (s.clients c).pc = .finished := by
    unfold Client.load at hz
    split at hz
    all_goals first | assumption | omega
  obtain ⟨hout, hten, -⟩ := hi.client c
  rw [hpc] at hout hten
  exact ⟨hpc, hten ▸ hout⟩

/-- **The clients come to their end**, whatever the order of the steps. -/
theorem hello_completes (as : List (Action ι)) : system.Along Completes as := by
  intro pre _ s hs
  have hcount := countdown (ι := ι)
  have hlen := hcount.exec_length inv_init (fun _ _ => trivial) hs
  have hi := hcount.exec_keeps inv_init hs
  rw [pending_init] at hlen
  refine ⟨by omega, fun hstuck => ?_, ?_⟩
  · have hz := (hcount.quiet_iff hi).mp fun a _ => hstuck a
    have hfin : ∀ c, Finished s c := fun c => hi.finished hz c
    refine ⟨by omega, hfin, ?_⟩
    obtain ⟨k, hout, hk⟩ := hi.served
    -- every client has asked ten times, and nothing is on its way
    have hasked : total Client.asked s.clients = 10 * Fintype.card ι := by
      have hten : ∀ c, (s.clients c).asked = 10 := fun c => by
        have hvi := (hi.client c).i
        rw [(hfin c).1] at hvi
        simp only [Client.asked, (hfin c).1, hvi]
      simp [total, hten, mul_comm]
    have hserver : s.server.pc ≠ .print := fun hpc => by
      have hfour : s.server.load = 4 := by rw [Server.load, hpc]
      rw [pending, hfour] at hz
      omega
    rw [pending, socketLoad] at hz
    rw [if_neg hserver] at hk
    rw [hout, show k = 10 * Fintype.card ι by omega]
  · obtain ⟨bs, t, -, ht, hz⟩ := hcount.completes hi
    exact ⟨bs, t, ht, fun a => (hcount.quiet_iff (hcount.exec_keeps hi ht)).mpr hz a trivial⟩

end Results

end Fssn.Zmq.Hello
