import Fssn.Lib.Countdown
import Fssn.Zmq.DealerRouter

/-!
# Fssn.Zmq.Answered — every request to the dealer-router server is answered

A request takes seven steps from its client's socket to the line that shows its reply: one of the
proxy, the four statements of a worker, one of the proxy and one of the client.  `pending` counts the
steps that are still to be taken, whatever their order.

* `steps_per_request`: no step of the server is wasted.
* `requests_answered`: without new requests every run ends after `pending` steps, and then every
  client has received one reply to each of its requests.
* `replies_in_order`: with one worker they arrive in the order of the requests.
-/

namespace Fssn.Zmq.DealerRouter

open Fssn.Lib

variable {ι : Type*}

/-! ### The steps a request has to take -/

/-- The parts of a list of messages. -/
def frames {α : Type*} (ms : List (List α)) : ℕ := ms.flatten.length

/-- The steps of the requests that a client holds, to its `recv` of their replies. -/
def Client.load (v : Client ι) : ℕ := 7 * v.toRouter.length + frames v.toClient

def Pc.load : Pc ι → ℕ
  | .recvIden => 0
  | .recvMsg _ => 2
  | .sendIden _ _ => 4
  | .sendMsg _ => 3

/-- The steps of the requests that a worker holds; the two parts of a message that it has not read
stand for three steps each. -/
def Worker.load (v : Worker ι) : ℕ := 3 * frames v.inbox + v.pc.load + 2 * v.outbox.length

/-- The steps that are still to be taken for the requests sent. -/
def pending [Fintype ι] {n : ℕ} (s : State ι n) : ℕ :=
  total Client.load s.clients + total Worker.load s.workers

/-- A step for a request that was sent: any step but the sending of a new one. -/
def Serves {n : ℕ} : Action ι n → Prop
  | .clientSend _ => False
  | _ => True

theorem recvFrame_flatten {α : Type*} {ms r : List (List α)} {f : α}
    (h : recvFrame ms = some (f, r)) : ms.flatten = f :: r.flatten := by
  unfold recvFrame at h
  split at h
  · obtain ⟨rfl, rfl⟩ := Prod.mk.inj (Option.some.inj h)
    rfl
  · obtain ⟨rfl, rfl⟩ := Prod.mk.inj (Option.some.inj h)
    rfl
  · exact absurd h (by simp)

theorem recvFrame_frames {α : Type*} {ms r : List (List α)} {f : α}
    (h : recvFrame ms = some (f, r)) : frames r + 1 = frames ms := by
  rw [frames, frames, recvFrame_flatten h]
  rfl

theorem frames_concat {α : Type*} (ms : List (List α)) (m : List α) :
    frames (ms ++ [m]) = frames ms + m.length := by
  simp [frames]

theorem frames_cons {α : Type*} (m : List α) (ms : List (List α)) :
    frames (m :: ms) = m.length + frames ms := by
  simp [frames]

theorem send_load (c : ι) (v : Client ι) : (v.send c).load = v.load + 7 := by
  show 7 * (v.toRouter ++ [_]).length + frames v.toClient = _
  rw [List.length_append, Client.load]
  show 7 * (v.toRouter.length + 1) + _ = _
  omega

theorem recv_load {identity : Bytes} {v v' : Client ι} (h : v.recv identity = some v') :
    v'.load + 1 = v.load := by
  obtain ⟨⟨f, r⟩, hf, rfl⟩ := Option.map_eq_some_iff.mp h
  have := recvFrame_frames hf
  show 7 * v.toRouter.length + frames r + 1 = 7 * v.toRouter.length + frames v.toClient
  omega

/-- Each statement of a worker is one step for the request it has. -/
theorem work_load {id : ℕ} {v v' : Worker ι} (h : v.work id = some v') : v'.load + 1 = v.load := by
  unfold Worker.work at h
  cases hpc : v.pc with
  | recvIden =>
    rw [hpc] at h
    obtain ⟨⟨f, r⟩, hf, rfl⟩ := Option.map_eq_some_iff.mp h
    have := recvFrame_frames hf
    simp only [Worker.load, hpc, Pc.load]
    omega
  | recvMsg iden =>
    rw [hpc] at h
    obtain ⟨⟨f, r⟩, hf, rfl⟩ := Option.map_eq_some_iff.mp h
    have := recvFrame_frames hf
    simp only [Worker.load, hpc, Pc.load]
    omega
  | sendIden iden msg =>
    rw [hpc] at h
    obtain rfl := Option.some.inj h
    simp only [Worker.load, hpc, Pc.load]
    omega
  | sendMsg msg =>
    rw [hpc] at h
    obtain rfl := Option.some.inj h
    simp only [Worker.load, hpc, Pc.load, List.length_append, List.length_singleton]
    omega

section Heads

variable {cfg : Config ι} {toRouter toClient received inbox busy outbox : List (ι × ℕ)}

/-- The first message of a client is its first request, in one part. -/
theorem toRouter_head {v : Client ι} {f : Frame ι} {fs : List (Frame ι)} {ms : List (List (Frame ι))}
    (h : ClientRep toRouter toClient received v) (hv : v.toRouter = (f :: fs) :: ms) :
    ∃ o r, toRouter = o :: r ∧ f = msgFrame o ∧ fs = [] ∧ ms = r.map fun o => [msgFrame o] := by
  obtain ⟨o, r, hr, hhead, htail⟩ := List.map_eq_cons_iff.mp (h.toRouter.symm.trans hv)
  obtain ⟨hf, hfs⟩ := List.cons.inj hhead
  exact ⟨o, r, hr, hf.symm, hfs.symm, htail.symm⟩

/-- The first message of a worker is its first reply, behind the identity. -/
theorem outbox_head {v : Worker ι} {f : Frame ι} {fs : List (Frame ι)} {ms : List (List (Frame ι))}
    (h : WorkerRep cfg inbox busy outbox v) (hv : v.outbox = (f :: fs) :: ms) :
    ∃ o r, outbox = o :: r ∧ f = idenFrame cfg o ∧ fs = [msgFrame o] ∧
      ms = r.map fun o => [idenFrame cfg o, msgFrame o] := by
  obtain ⟨o, r, hr, hhead, htail⟩ := List.map_eq_cons_iff.mp (h.outbox.symm.trans hv)
  obtain ⟨hf, hfs⟩ := List.cons.inj hhead
  exact ⟨o, r, hr, hf.symm, hfs.symm, htail.symm⟩

end Heads

section Pending

variable [DecidableEq ι] [Fintype ι] {cfg : Config ι} {s t : State ι cfg.server_num}

/-- A step of one client and one worker. -/
theorem pending_update (c : ι) (v : Client ι) (w : Fin cfg.server_num) (u : Worker ι) :
    pending ⟨Function.update s.clients c v, Function.update s.workers w u⟩ +
        ((s.clients c).load + (s.workers w).load) = pending s + (v.load + u.load) := by
  have hc := total_update Client.load s.clients c v
  have hw := total_update Worker.load s.workers w u
  unfold pending
  dsimp only
  omega

/-- A step of one client. -/
theorem pending_client (c : ι) (v : Client ι) :
    pending { s with clients := Function.update s.clients c v } + (s.clients c).load =
      pending s + v.load := by
  have hc := total_update Client.load s.clients c v
  unfold pending
  dsimp only
  omega

omit [DecidableEq ι] in
/-- A step of one worker. -/
theorem pending_worker (w : Fin cfg.server_num) (u : Worker ι) :
    pending { s with workers := Function.update s.workers w u } + (s.workers w).load =
      pending s + u.load := by
  have hw := total_update Worker.load s.workers w u
  unfold pending
  dsimp only
  omega

theorem pending_send (c : ι) :
    pending { s with clients := Function.update s.clients c ((s.clients c).send c) } =
      pending s + 7 := by
  have hp := pending_client (s := s) c ((s.clients c).send c)
  rw [send_load] at hp
  omega

/-- Every step but a send takes one off what is pending. -/
theorem pending_step (hi : Inv cfg s) {a : Action ι cfg.server_num} (ha : Serves a)
    (h : (system cfg).step s a = some t) : pending t + 1 = pending s := by
  obtain ⟨places, -, hrep⟩ := hi
  change step cfg s a = some t at h
  cases a with
  | clientSend c => exact ha.elim
  | clientRecv c =>
    obtain ⟨v, hv, rfl⟩ := Option.map_eq_some_iff.mp h
    have hp := pending_client (s := s) c v
    have hl := recv_load hv
    omega
  | proxyRequest c w =>
    rw [step] at h
    split at h
    · rename_i f fs ms hto
      obtain rfl := Option.some.inj h
      -- a request is one part, to which the ROUTER adds one
      obtain ⟨_, _, -, -, hone, -⟩ := toRouter_head (hrep.client c) hto
      have hp := pending_update (s := s) c { s.clients c with toRouter := ms } w
        { s.workers w with
          inbox := (s.workers w).inbox ++ [⟨cfg.identity c, f.origin⟩ :: f :: fs] }
      simp only [Client.load, Worker.load, hto, hone, frames_concat, List.length_cons,
        List.length_nil] at hp ⊢
      omega
    · exact absurd h (by simp)
  | work w =>
    obtain ⟨v, hv, rfl⟩ := Option.map_eq_some_iff.mp h
    have hp := pending_worker (s := s) w v
    have hl := work_load hv
    omega
  | proxyReply w c =>
    rw [step] at h
    split at h
    · rename_i iden fs ms hto
      split_ifs at h with hc
      obtain rfl := Option.some.inj h
      have hone : fs.length = 1 := by
        obtain ⟨_, _, -, -, hfs, -⟩ := outbox_head (hrep.worker w) hto
        rw [hfs]
        rfl
      have hp := pending_update (s := s) c
        { s.clients c with toClient := (s.clients c).toClient ++ [fs] } w
        { s.workers w with outbox := ms }
      simp only [Client.load, Worker.load, hto, frames_concat, hone, List.length_cons] at hp ⊢
      omega
    · exact absurd h (by simp)

omit [Fintype ι] in
/-- A client that is changed in anything but its number of requests. -/
theorem reqs_update {v : Client ι} {c : ι} (hv : v.reqs = (s.clients c).reqs) (k : ι) :
    (Function.update s.clients c v k).reqs = (s.clients k).reqs := by
  by_cases hk : k = c
  · subst hk
    rw [Function.update_self, hv]
  · rw [Function.update_of_ne hk]

omit [Fintype ι] in
theorem reqs_step {a : Action ι cfg.server_num} (ha : Serves a)
    (h : (system cfg).step s a = some t) (k : ι) : (t.clients k).reqs = (s.clients k).reqs := by
  change step cfg s a = some t at h
  cases a with
  | clientSend c => exact ha.elim
  | clientRecv c =>
    obtain ⟨v, hv, rfl⟩ := Option.map_eq_some_iff.mp h
    obtain ⟨fr, -, rfl⟩ := Option.map_eq_some_iff.mp hv
    refine reqs_update ?_ k
    rfl
  | proxyRequest c w =>
    rw [step] at h
    split at h
    · obtain rfl := Option.some.inj h
      refine reqs_update ?_ k
      rfl
    · exact absurd h (by simp)
  | work w =>
    obtain ⟨v, -, rfl⟩ := Option.map_eq_some_iff.mp h
    rfl
  | proxyReply w c =>
    rw [step] at h
    split at h
    · split_ifs at h
      obtain rfl := Option.some.inj h
      refine reqs_update ?_ k
      rfl
    · exact absurd h (by simp)

omit [Fintype ι] in
theorem serving {a : Action ι cfg.server_num} (ha : Serves a) (h : (step cfg s a).isSome) :
    ∃ a t, Serves a ∧ (system cfg).step s a = some t := by
  obtain ⟨t, ht⟩ := Option.isSome_iff_exists.mp h
  exact ⟨a, t, ha, ht⟩

/-- Someone can go on while something is pending: there is a worker to take the requests. -/
theorem pending_progress (hpos : 0 < cfg.server_num) (hi : Inv cfg s) (h : 0 < pending s) :
    ∃ a t, Serves a ∧ (system cfg).step s a = some t := by
  obtain ⟨places, -, hrep⟩ := hi
  have hsum : 0 < total Client.load s.clients ∨ 0 < total Worker.load s.workers := by
    unfold pending at h
    omega
  rcases hsum with hsum | hsum
  · obtain ⟨c, hc⟩ := exists_of_total_pos Client.load hsum
    obtain ⟨hto, hcl, -⟩ := hrep.client c
    cases htok : places (.toRouter c) with
    | cons o r =>
      rw [htok] at hto
      refine serving (a := .proxyRequest c ⟨0, hpos⟩) trivial ?_
      rw [step, hto]
      rfl
    | nil =>
      rw [htok] at hto
      cases htok' : places (.toClient c) with
      | cons o r =>
        rw [htok'] at hcl
        refine serving (a := .clientRecv c) trivial ?_
        rw [step, Client.recv, hcl]
        rfl
      | nil =>
        rw [htok'] at hcl
        rw [Client.load, hto, hcl] at hc
        exact absurd hc (by simp [frames])
  · obtain ⟨w, hw⟩ := exists_of_total_pos Worker.load hsum
    obtain ⟨hin, hbusy, hout⟩ := hrep.worker w
    suffices hwork : (∃ v, (s.workers w).work w = some v) ∨
        ∃ o r, places (.outbox w) = o :: r by
      rcases hwork with ⟨v, hv⟩ | ⟨o, r, htok⟩
      · refine serving (a := .work w) trivial ?_
        rw [step, hv]
        rfl
      · rw [htok] at hout
        refine serving (a := .proxyReply w o.1) trivial ?_
        have hid : (idenFrame cfg o).data = cfg.identity o.1 := rfl
        rw [step, hout, List.map_cons]
        dsimp only
        rw [if_pos hid]
        rfl
    unfold Worker.work
    cases hpc : (s.workers w).pc with
    | sendIden iden msg => exact Or.inl ⟨_, rfl⟩
    | sendMsg msg => exact Or.inl ⟨_, rfl⟩
    | recvMsg iden =>
      rw [hpc] at hin hbusy
      obtain ⟨o, hb, -⟩ := hbusy
      rw [hin, hb]
      exact Or.inl ⟨_, rfl⟩
    | recvIden =>
      rw [hpc] at hin
      cases htok : places (.inbox w) with
      | cons o r =>
        rw [hin, htok]
        exact Or.inl ⟨_, rfl⟩
      | nil =>
        right
        rw [htok] at hin
        rw [Worker.load, hin, hpc] at hw
        refine List.exists_cons_of_ne_nil fun hnil => ?_
        rw [hnil] at hout
        rw [hout] at hw
        exact absurd hw (by simp [frames, unread, Pc.load])

theorem countdown (hpos : 0 < cfg.server_num) :
    (system cfg).Countdown Serves (Inv cfg) pending where
  keeps _ _ _ hi h := inv_step hi h
  down _ _ _ hi ha h := pending_step hi ha h
  progress _ hi h := pending_progress hpos hi h

/-! ### At the rest -/

/-- A client has one reply to each of its requests. -/
def Answered (s : State ι cfg.server_num) : Prop := ∀ c, (s.clients c).received.Perm
  ((List.range' 1 (s.clients c).reqs).map fun k => msgFrame (c, k))

/-- When nothing is pending the only place with requests are the clients' received replies. -/
theorem received_of_rest {places : Place ι cfg.server_num → List (ι × ℕ)} (hrep : Rep cfg places s)
    (h : pending s = 0) {l : Place ι cfg.server_num} {o : ι × ℕ} (ho : o ∈ places l) :
    ∃ c, l = .received c := by
  have hclient : ∀ c, (s.clients c).load = 0 := load_eq_zero Client.load (by unfold pending at h; omega)
  have hworker : ∀ w, (s.workers w).load = 0 := load_eq_zero Worker.load (by unfold pending at h; omega)
  have hempty : places l ≠ [] := List.ne_nil_of_mem ho
  cases l with
  | received c => exact ⟨c, rfl⟩
  | toRouter c =>
    have hz := hclient c
    rw [Client.load, (hrep.client c).toRouter, List.length_map] at hz
    exact absurd (List.length_eq_zero_iff.mp (by omega)) hempty
  | toClient c =>
    have hz := hclient c
    rw [Client.load, (hrep.client c).toClient] at hz
    cases htok : places (.toClient c) with
    | nil => exact absurd htok hempty
    | cons x r =>
      rw [htok, List.map_cons, frames_cons, List.length_singleton] at hz
      omega
  | outbox w =>
    have hz := hworker w
    rw [Worker.load, (hrep.worker w).outbox, List.length_map] at hz
    exact absurd (List.length_eq_zero_iff.mp (by omega)) hempty
  | busy w =>
    have hz := hworker w
    have hbusy := (hrep.worker w).busy
    rw [Worker.load] at hz
    cases hpc : (s.workers w).pc with
    | recvIden =>
      rw [hpc] at hbusy
      exact absurd hbusy.1 hempty
    | recvMsg iden => simp [hpc, Pc.load] at hz
    | sendIden iden msg => simp [hpc, Pc.load] at hz
    | sendMsg msg => simp [hpc, Pc.load] at hz
  | inbox w =>
    have hz := hworker w
    rw [Worker.load, (hrep.worker w).inbox] at hz
    cases htok : places (.inbox w) with
    | nil => exact absurd htok hempty
    | cons x r =>
      simp only [htok, List.map_cons, frames, List.flatten_append, List.flatten_cons,
        List.length_append, List.length_cons] at hz
      omega

theorem answered_of_rest (hi : Inv cfg s) (h : pending s = 0) : Answered s := by
  obtain ⟨places, hex, hrep⟩ := hi
  intro c
  have hperm : (places (.received c)).Perm
      ((List.range' 1 (s.clients c).reqs).map fun k => (c, k)) := by
    have hnodup : ((List.range' 1 (s.clients c).reqs).map fun k => (c, k)).Nodup :=
      (List.nodup_range' (h := Nat.one_pos)).map fun _ _ hkk => (Prod.mk.inj hkk).2
    refine (List.perm_ext_iff_of_nodup (hex.nodup _) hnodup).mpr fun o => ?_
    have hrange : o ∈ (List.range' 1 (s.clients c).reqs).map (fun k => (c, k)) ↔
        o.1 = c ∧ Issued cfg s o := by
      rw [List.mem_map]
      constructor
      · rintro ⟨k, hk, rfl⟩
        rw [List.mem_range'_1] at hk
        exact ⟨rfl, hk.1, show k ≤ (s.clients c).reqs by omega⟩
      · rintro ⟨rfl, h1, h2⟩
        exact ⟨o.2, List.mem_range'_1.mpr ⟨h1, by omega⟩, rfl⟩
    rw [hrange]
    constructor
    · intro ho
      exact ⟨hrep.own _ c rfl o ho, (hex.mem_iff o).mp ⟨_, ho⟩⟩
    · rintro ⟨rfl, hissued⟩
      obtain ⟨l, hl⟩ := (hex.mem_iff o).mpr hissued
      obtain ⟨d, rfl⟩ := received_of_rest hrep h hl
      rw [hrep.own _ d rfl o hl]
      exact hl
  have hmap := hperm.map msgFrame
  rw [List.map_map, ← (hrep.client c).received] at hmap
  exact hmap

end Pending

/-! ### One worker -/

/-- The requests of the messages in a queue, each taken from its first part. -/
def heads (ms : List (List (Frame ι))) : List (ι × ℕ) := ms.filterMap fun m => m.head?.map Frame.origin

/-- The request a worker is at. -/
def Pc.inHand : Pc ι → List (ι × ℕ)
  | .recvIden => []
  | .recvMsg iden => [iden.origin]
  | .sendIden iden _ => [iden.origin]
  | .sendMsg msg => [msg.origin]

/-- The messages of which a worker has read no part. -/
def Worker.untouched (v : Worker ι) : List (List (Frame ι)) :=
  match v.pc with
  | .recvMsg _ => v.inbox.tail
  | _ => v.inbox

/-- The requests that pass through a worker, the first first. -/
def Worker.line (v : Worker ι) : List (ι × ℕ) := heads v.outbox ++ v.pc.inHand ++ heads v.untouched

section OneWorker

variable [DecidableEq ι] {cfg : Config ι} {s t : State ι cfg.server_num}

/-- The requests of a client on their way through the worker `w`. -/
def trail (s : State ι cfg.server_num) (w : Fin cfg.server_num) (c : ι) : List (ι × ℕ) :=
  ((s.clients c).received ++ (s.clients c).toClient.flatten).map Frame.origin ++
    (s.workers w).line.filter (fun o => o.1 = c) ++
    (s.clients c).toRouter.flatten.map Frame.origin

omit [DecidableEq ι] in
theorem heads_messages (os : List (ι × ℕ)) :
    heads (os.map fun o => [idenFrame cfg o, msgFrame o]) = os := by
  induction os with
  | nil => rfl
  | cons o os ih => exact congrArg (o :: ·) ih

omit [DecidableEq ι] in
/-- The line of a worker are its tokens. -/
theorem WorkerRep.line {inbox busy outbox : List (ι × ℕ)} {v : Worker ι}
    (h : WorkerRep cfg inbox busy outbox v) : v.line = outbox ++ busy ++ inbox := by
  obtain ⟨hin, hbusy, hout⟩ := h
  unfold Worker.line Worker.untouched
  rw [hout, heads_messages]
  cases hpc : v.pc with
  | recvIden =>
    rw [hpc] at hin hbusy
    rw [hbusy.1]
    show outbox ++ [] ++ heads v.inbox = _
    rw [hin]
    exact congrArg (outbox ++ [] ++ ·) (heads_messages inbox)
  | recvMsg iden =>
    rw [hpc] at hin hbusy
    obtain ⟨o, rfl, rfl, -⟩ := hbusy
    show outbox ++ [o] ++ heads v.inbox.tail = _
    rw [hin]
    exact congrArg (outbox ++ [o] ++ ·) (heads_messages inbox)
  | sendIden iden msg =>
    rw [hpc] at hin hbusy
    obtain ⟨o, rfl, rfl, -⟩ := hbusy
    show outbox ++ [o] ++ heads v.inbox = _
    rw [hin]
    exact congrArg (outbox ++ [o] ++ ·) (heads_messages inbox)
  | sendMsg msg =>
    rw [hpc] at hin hbusy
    obtain ⟨o, rfl, rfl, -⟩ := hbusy
    show outbox ++ [o] ++ heads v.inbox = _
    rw [hin]
    exact congrArg (outbox ++ [o] ++ ·) (heads_messages inbox)

omit [DecidableEq ι] in
/-- A statement of a worker leaves its line as it is. -/
theorem work_line {id : ℕ} {inbox busy outbox : List (ι × ℕ)} {v v' : Worker ι}
    (h : WorkerRep cfg inbox busy outbox v) (hw : v.work id = some v') : v'.line = v.line := by
  rw [h.line]
  rcases work_rep h hw with ⟨o, r, rfl, rfl, hv⟩ | hv | ⟨o, rfl, hv⟩
  · rw [hv.line]
    simp
  · rw [hv.line]
  · rw [hv.line]
    simp

/-- A send puts its request at the end of its client's trail. -/
theorem trail_send (w : Fin cfg.server_num) (c d : ι) :
    trail { s with clients := Function.update s.clients d ((s.clients d).send d) } w c =
      trail s w c ++ if c = d then [(c, (s.clients c).reqs + 1)] else [] := by
  unfold trail
  dsimp only
  by_cases hc : c = d
  · subst hc
    rw [Function.update_self, if_pos rfl]
    simp [Client.send]
  · rw [Function.update_of_ne hc, if_neg hc, List.append_nil]

/-- A client takes a reply off its connection. -/
theorem trail_recv {d : ι} {v : Client ι} (hv : (s.clients d).recv (cfg.name d) = some v)
    (w : Fin cfg.server_num) (c : ι) :
    trail { s with clients := Function.update s.clients d v } w c = trail s w c := by
  obtain ⟨⟨f, r⟩, hf, rfl⟩ := Option.map_eq_some_iff.mp hv
  unfold trail
  dsimp only
  by_cases hc : c = d
  · subst hc
    rw [Function.update_self]
    simp [recvFrame_flatten hf]
  · rw [Function.update_of_ne hc]

/-- The proxy takes a request to the worker. -/
theorem trail_request {places : Place ι cfg.server_num → List (ι × ℕ)} (hrep : Rep cfg places s)
    {d : ι} {w : Fin cfg.server_num} {f : Frame ι} {fs : List (Frame ι)} {ms : List (List (Frame ι))}
    (hto : (s.clients d).toRouter = (f :: fs) :: ms) (c : ι) :
    trail ⟨Function.update s.clients d { s.clients d with toRouter := ms },
      Function.update s.workers w { s.workers w with
        inbox := (s.workers w).inbox ++ [⟨cfg.identity d, f.origin⟩ :: f :: fs] }⟩ w c =
      trail s w c := by
  obtain ⟨o, r, htok, rfl, rfl, rfl⟩ := toRouter_head (hrep.client d) hto
  have ho : o.1 = d := hrep.own (.toRouter d) d rfl o (htok ▸ List.mem_cons_self)
  have hline : Worker.line { s.workers w with
      inbox := (s.workers w).inbox ++ [[⟨cfg.identity d, o⟩, msgFrame o]] } =
      (s.workers w).line ++ [o] := by
    have hold := hrep.worker w
    have hnew : WorkerRep cfg (places (.inbox w) ++ [o]) (places (.busy w)) (places (.outbox w))
        { s.workers w with inbox := (s.workers w).inbox ++ [[⟨cfg.identity d, o⟩, msgFrame o]] } := by
      refine ⟨?_, hold.busy, hold.outbox⟩
      dsimp only
      rw [hold.inbox, List.map_append, List.append_assoc, ← ho]
      rfl
    rw [hnew.line, hold.line, ← List.append_assoc]
  unfold trail
  dsimp only
  rw [Function.update_self, show (msgFrame o).origin = o from rfl, hline]
  by_cases hc : c = d
  · subst hc
    rw [Function.update_self, hto]
    simp [ho, msgFrame]
  · have hoc : ¬ o.1 = c := fun heq => hc (heq.symm.trans ho)
    rw [Function.update_of_ne hc]
    simp [hoc]

/-- The proxy takes a reply to the client of its request. -/
theorem trail_reply {places : Place ι cfg.server_num → List (ι × ℕ)} (hrep : Rep cfg places s)
    {d : ι} {w : Fin cfg.server_num} {iden : Frame ι} {fs : List (Frame ι)}
    {ms : List (List (Frame ι))} (hto : (s.workers w).outbox = (iden :: fs) :: ms)
    (hd : iden.data = cfg.identity d) (c : ι) :
    trail ⟨Function.update s.clients d { s.clients d with
        toClient := (s.clients d).toClient ++ [fs] },
      Function.update s.workers w { s.workers w with outbox := ms }⟩ w c = trail s w c := by
  obtain ⟨o, r, htok, rfl, rfl, hms⟩ := outbox_head (hrep.worker w) hto
  -- the ROUTER finds the client of the request
  have ho : o.1 = d := cfg.identity_injective (by rw [← hd]; rfl)
  have hline : (s.workers w).line = o :: Worker.line { s.workers w with outbox := ms } := by
    have hold := hrep.worker w
    have hnew : WorkerRep cfg (places (.inbox w)) (places (.busy w)) r
        { s.workers w with outbox := ms } := ⟨hold.inbox, hold.busy, hms⟩
    rw [hnew.line, hold.line, htok]
    rfl
  unfold trail
  dsimp only
  rw [Function.update_self, hline]
  by_cases hc : c = d
  · subst hc
    rw [Function.update_self]
    simp [ho, msgFrame]
  · have hoc : ¬ o.1 = c := fun heq => hc (heq.symm.trans ho)
    rw [Function.update_of_ne hc]
    simp [hoc]

/-- The other steps of a server with one worker leave the trails as they are. -/
theorem trail_step (hone : cfg.server_num = 1) (hi : Inv cfg s) {a : Action ι cfg.server_num}
    (ha : Serves a) (h : (system cfg).step s a = some t) (w : Fin cfg.server_num) (c : ι) :
    trail t w c = trail s w c := by
  obtain ⟨places, -, hrep⟩ := hi
  have hsame : ∀ x : Fin cfg.server_num, x = w := fun x => Fin.ext (by omega)
  change step cfg s a = some t at h
  cases a with
  | clientSend d => exact ha.elim
  | clientRecv d =>
    obtain ⟨v, hv, rfl⟩ := Option.map_eq_some_iff.mp h
    exact trail_recv hv w c
  | proxyRequest d x =>
    rw [step] at h
    split at h
    · rename_i f fs ms hto
      obtain rfl := Option.some.inj h
      obtain rfl := hsame x
      exact trail_request hrep hto c
    · exact absurd h (by simp)
  | work x =>
    obtain ⟨v, hv, rfl⟩ := Option.map_eq_some_iff.mp h
    obtain rfl := hsame x
    unfold trail
    dsimp only
    rw [Function.update_self, work_line (hrep.worker x) hv]
  | proxyReply x d =>
    rw [step] at h
    split at h
    · rename_i iden fs ms hto
      split_ifs at h with hd
      obtain rfl := Option.some.inj h
      obtain rfl := hsame x
      exact trail_reply hrep hto hd c
    · exact absurd h (by simp)

/-- With one worker the trail of a client are its requests in order. -/
theorem trail_exec (hone : cfg.server_num = 1) {as : List (Action ι cfg.server_num)}
    (h : (system cfg).exec (system cfg).init as = some s) (w : Fin cfg.server_num) (c : ι) :
    trail s w c = (List.range' 1 (s.clients c).reqs).map fun k => (c, k) := by
  refine (System.exec_induction (P := fun _ s => Inv cfg s ∧ ∀ w c,
    trail s w c = (List.range' 1 (s.clients c).reqs).map fun k => (c, k)) ⟨inv_init, ?_⟩ ?_ h).2 w c
  · intro w c
    rfl
  · rintro as s a t - ⟨hi, htrail⟩ hat
    refine ⟨inv_step hi hat, fun w c => ?_⟩
    by_cases ha : Serves a
    · rw [trail_step hone hi ha hat, reqs_step ha hat, htrail]
    · cases a with
      | clientSend d =>
        obtain rfl := Option.some.inj hat
        rw [trail_send, htrail]
        dsimp only
        by_cases hc : c = d
        · subst hc
          have hreqs : ((s.clients c).send c).reqs = (s.clients c).reqs + 1 := rfl
          rw [if_pos rfl, Function.update_self, hreqs, List.range'_concat, List.map_append,
            Nat.one_mul, Nat.add_comm 1]
          rfl
        · rw [if_neg hc, Function.update_of_ne hc, List.append_nil]
      | clientRecv d => exact absurd trivial ha
      | proxyRequest d x => exact absurd trivial ha
      | work x => exact absurd trivial ha
      | proxyReply x d => exact absurd trivial ha

end OneWorker

/-! ### The results -/

section Results

variable [DecidableEq ι] [Fintype ι] (cfg : Config ι)

/-- From here, without new requests: no run is longer than `pending` says, one that cannot go on has
this length and leaves every request answered, and there is one. -/
structure Answers (s : State ι cfg.server_num) : Prop where
  bounded : ∀ as t, (∀ a ∈ as, Serves a) → (system cfg).exec s as = some t →
    as.length ≤ pending s
  rest : ∀ as t, (∀ a ∈ as, Serves a) → (system cfg).exec s as = some t →
    (system cfg).Quiet Serves t → as.length = pending s ∧ Answered t
  reached : ∃ as t, (∀ a ∈ as, Serves a) ∧ (system cfg).exec s as = some t ∧
    (system cfg).Quiet Serves t

variable {cfg}

theorem Inv.answers {s : State ι cfg.server_num} (hi : Inv cfg s) (hpos : 0 < cfg.server_num) :
    Answers cfg s := by
  have hcount := countdown (ι := ι) hpos
  refine ⟨fun as t has ht => ?_, fun as t has ht hq => ?_, ?_⟩
  · have := hcount.exec_length hi has ht
    omega
  · have hlen := hcount.exec_length hi has ht
    have hit := hcount.exec_keeps hi ht
    have hz := (hcount.quiet_iff hit).mp hq
    exact ⟨by omega, answered_of_rest hit hz⟩
  · obtain ⟨as, t, has, ht, hz⟩ := hcount.completes hi
    exact ⟨as, t, has, ht, (hcount.quiet_iff (hcount.exec_keeps hi ht)).mpr hz⟩

/-- **Every request is answered**, once, whatever the order of the steps, if there is a worker. -/
theorem requests_answered (cfg : Config ι) (hpos : 0 < cfg.server_num)
    (as : List (Action ι cfg.server_num)) : (system cfg).Always (Answers cfg) as :=
  (System.always_of_step inv_init (fun _ _ _ => inv_step) as).imp fun _ hi => hi.answers hpos

/-- A server with one worker and one client, which does not present its name. -/
def soloConfig : Config Unit := ⟨fun _ => ascii "c", fun _ => [16, 32, 0, 0], fun _ _ _ => rfl, 1⟩

theorem requests_answered_solo :
    0 < soloConfig.server_num ∧ (system soloConfig).Always (Answers soloConfig) [.clientSend ()] :=
  ⟨Nat.one_pos, requests_answered soloConfig Nat.one_pos [.clientSend ()]⟩

omit [Fintype ι] in
/-- **One worker keeps the order**: a client receives the replies to its requests in the order in which
it has sent them. -/
theorem replies_in_order (cfg : Config ι) (hone : cfg.server_num = 1)
    (as : List (Action ι cfg.server_num)) :
    (system cfg).Always (fun s => ∀ c, ∃ k ≤ (s.clients c).reqs,
      (s.clients c).received = (List.range' 1 k).map fun j => msgFrame (c, j)) as := by
  intro pre _ s hs c
  have hi : Inv cfg s := System.exec_preserves (fun _ _ _ => inv_step) inv_init hs
  have htrail := trail_exec hone hs ⟨0, by omega⟩ c
  obtain ⟨places, -, hrep⟩ := hi
  have hrec := (hrep.client c).received
  -- what was received is the first part of the trail
  have hpre : places (.received c) <+:
      (List.range' 1 (s.clients c).reqs).map fun k => (c, k) := by
    rw [← htrail, trail, List.map_append, hrec, List.map_map]
    have hid : Frame.origin ∘ msgFrame = (id : ι × ℕ → ι × ℕ) := rfl
    rw [hid, List.map_id, List.append_assoc, List.append_assoc]
    exact List.prefix_append _ _
  have hlen := hpre.length_le
  rw [List.length_map, List.length_range'] at hlen
  refine ⟨(places (.received c)).length, hlen, ?_⟩
  have htake : places (.received c) =
      (List.range' 1 (places (.received c)).length).map fun k => (c, k) := by
    rw [← List.take_range'_of_length_ge hlen, List.map_take]
    exact List.prefix_iff_eq_take.mp hpre
  rw [hrec]
  conv_lhs => rw [htake]
  rw [List.map_map]
  rfl

/-- The way of a request and its reply, by the one worker. -/
def soloRound : List (Action Unit soloConfig.server_num) :=
  [.proxyRequest () ⟨0, Nat.one_pos⟩, .work ⟨0, Nat.one_pos⟩, .work ⟨0, Nat.one_pos⟩,
    .work ⟨0, Nat.one_pos⟩, .work ⟨0, Nat.one_pos⟩, .proxyReply ⟨0, Nat.one_pos⟩ (), .clientRecv ()]

/-- Two requests, answered one after the other. -/
theorem replies_in_order_solo :
    soloConfig.server_num = 1 ∧
    (((system soloConfig).exec (system soloConfig).init
      ([.clientSend (), .clientSend ()] ++ soloRound ++ soloRound)).map fun s =>
        (s.clients ()).received) = some [msgFrame ((), 1), msgFrame ((), 2)] ∧
    (system soloConfig).Always (fun s => ∀ c, ∃ k ≤ (s.clients c).reqs,
      (s.clients c).received = (List.range' 1 k).map fun j => msgFrame (c, j))
        ([.clientSend (), .clientSend ()] ++ soloRound ++ soloRound) :=
  ⟨rfl, rfl,
    replies_in_order soloConfig rfl ([.clientSend (), .clientSend ()] ++ soloRound ++ soloRound)⟩

/-- **Seven steps a request**: in every run the steps taken and the steps pending together are eight
for each request sent, its sending included. -/
theorem steps_per_request (cfg : Config ι) (as : List (Action ι cfg.server_num)) :
    (system cfg).Along (fun as s => as.length + pending s = 8 * ∑ c, (s.clients c).reqs) as := by
  intro pre _ s hs
  refine (System.exec_induction (P := fun as s => Inv cfg s ∧
    as.length + pending s = 8 * total Client.reqs s.clients) ⟨inv_init, ?_⟩ ?_ hs).2
  · simp [pending, total, system, Client.load, Worker.load, frames, Pc.load]
  · rintro as s a t - ⟨hi, hlen⟩ hat
    refine ⟨inv_step hi hat, ?_⟩
    rw [List.length_append, List.length_singleton]
    by_cases ha : Serves a
    · have hone := pending_step hi ha hat
      have hreqs : total Client.reqs t.clients = total Client.reqs s.clients :=
        Finset.sum_congr rfl fun c _ => reqs_step ha hat c
      omega
    · cases a with
      | clientSend c =>
        obtain rfl := Option.some.inj hat
        have hp := pending_send (s := s) c
        have hreqs := total_update Client.reqs s.clients c ((s.clients c).send c)
        have hsend : ((s.clients c).send c).reqs = (s.clients c).reqs + 1 := rfl
        dsimp only at hp ⊢
        omega
      | clientRecv c => exact absurd trivial ha
      | proxyRequest c w => exact absurd trivial ha
      | work w => exact absurd trivial ha
      | proxyReply w c => exact absurd trivial ha

end Results

end Fssn.Zmq.DealerRouter
