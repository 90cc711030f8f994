import Fssn.Lib.Decimal
import Fssn.Lib.Transition

/-!
# Fssn.Zmq.PushClient — the clients that subscribe and push

`lec-05-prg-06` and `lec-05-prg-08` poll a SUB socket and, when nothing has arrived, push a message
with the flag 1, `ZMQ_DONTWAIT`.  They print that they have sent it without looking at what `send`
returns, which is `false` when the socket cannot take the message.

One pass of the loop is `pass`, the two clients differ in what they send and print (`Program`).
`announced_iff`: what is announced is what the socket has been given exactly in the runs without such
a send.
-/

namespace Fssn.Zmq.PushClient

open Fssn.Lib

/-- How `zmq_msg_send` ends: the message is in the socket's queue, or the result is -1 with `EAGAIN` or
with another error. -/
inductive SendResult
  | queued
  | again
  | failed
deriving DecidableEq

/-- `socket_base::send`: its result and the messages that the socket has taken.  `none` is its
exception. -/
def send (queue : List Bytes) (msg : Bytes) : SendResult → Option (Bool × List Bytes)
  | .queued => some (true, queue ++ [msg])
  | .again => some (false, queue)
  | .failed => none

/-- A message to push and the line that announces it. -/
structure Status where
  message : Bytes
  line : Bytes
deriving DecidableEq

/-- What the clients' loops do differently: what they push for the number drawn, and what they print
for a message received. -/
structure Program where
  pick : ℕ → Option Status
  onMessage : Bytes → Bytes

/-- `lec-05-prg-06`. -/
def pubSubClient : Program where
  pick random :=
    if random < 10 then
      some ⟨decimal random, ascii "I: sending message " ++ decimal random ++ ascii "\n"⟩
    else none
  onMessage m := ascii "I: received message b'" ++ m ++ ascii "'\n"

/-- `lec-05-prg-08`. -/
def pubSubClientV2 (clientID : Bytes) : Program where
  pick random :=
    if random < 10 then
      some ⟨ascii "b'(" ++ clientID ++ ascii ":ON)'",
        clientID ++ ascii ": send status - activated\n"⟩
    else
      some ⟨ascii "b'(" ++ clientID ++ ascii ":OFF)'",
        clientID ++ ascii ": send status - deactivated\n"⟩
  onMessage m := clientID ++ ascii ": received status => " ++ m ++ ascii "\n"

/-- The two clients; the second one has a name. -/
inductive Client
  | pubSub
  | pubSubV2 (clientID : CString)

def Client.program : Client → Program
  | .pubSub => pubSubClient
  | .pubSubV2 clientID => pubSubClientV2 clientID.bytes

/-- What one pass of the loop gets from outside: the result of `zmq_poll` and the events it has
stored, the message that `recv` would give (`none` if it throws), the number `rand` would give, and how
a send would end. -/
structure Turn where
  rc : ℤ
  revents : ℤ
  message : Option Bytes
  rand : ℕ
  sent : SendResult

/-- The messages that the PUSH socket has taken, the lines that announce a sending, and the whole
output. -/
structure World where
  queued : List Bytes
  announced : List Bytes
  out : Bytes

def ZMQ_POLLIN : ℕ := 1

/-- `p[0].revents !=0 & ZMQ_POLLIN`, where the comparison is the operand of `&`. -/
def readable (revents : ℤ) : Bool :=
  decide (((if revents ≠ 0 then 1 else 0) &&& ZMQ_POLLIN) ≠ 0)

/-- One pass of the loop; `none` is an exception, which ends the program. -/
def pass (p : Program) (w : World) (t : Turn) : Option World :=
  if t.rc < 0 then none
  else if t.rc ≠ 0 then
    if readable t.revents then
      t.message.map fun m => { w with out := w.out ++ p.onMessage m }
    else some w
  else
    match p.pick (t.rand % 100 + 1) with
    | none => some w
    | some s => (send w.queued s.message t.sent).map fun r =>
        -- the result of `send` is dropped
        { queued := r.2
          announced := w.announced ++ [s.line]
          out := w.out ++ s.line }

/-- The client's loop, one pass a step. -/
def client (p : Program) : System World Turn where
  init := ⟨[], [], []⟩
  step := pass p

/-- The announced statuses are the pushed ones: one list of statuses the program knows gives the lines
and the messages. -/
def Agree (p : Program) (w : World) : Prop := ∃ ss : List Status,
  (∀ s ∈ ss, ∃ random, p.pick random = some s) ∧
    w.announced = ss.map Status.line ∧ w.queued = ss.map Status.message

/-- In the pass `t` the client sends, and the socket cannot take the message. -/
def Refused (p : Program) (t : Turn) : Prop :=
  t.rc = 0 ∧ (p.pick (t.rand % 100 + 1)).isSome ∧ t.sent = .again

instance (p : Program) (t : Turn) : Decidable (Refused p t) :=
  inferInstanceAs (Decidable (_ ∧ _ ∧ _))

/-! ### One pass -/

section Pass

variable {p : Program} {w w' : World} {t : Turn}

theorem send_cases {queue : List Bytes} {msg : Bytes} {sent : SendResult} {r : Bool × List Bytes}
    (h : send queue msg sent = some r) :
    (sent = .queued ∧ r.2 = queue ++ [msg]) ∨ (sent = .again ∧ r.2 = queue) := by
  cases sent with
  | queued => exact Or.inl ⟨rfl, by rw [← Option.some.inj h]⟩
  | again => exact Or.inr ⟨rfl, by rw [← Option.some.inj h]⟩
  | failed => simp [send] at h

/-- What a pass can do: send nothing, push a status and announce it, or announce a status that the
socket has refused. -/
theorem pass_cases (h : pass p w t = some w') :
    (¬ Refused p t ∧ w'.announced = w.announced ∧ w'.queued = w.queued) ∨
    ∃ s random, p.pick random = some s ∧ w'.announced = w.announced ++ [s.line] ∧
      ((¬ Refused p t ∧ w'.queued = w.queued ++ [s.message]) ∨
        (Refused p t ∧ w'.queued = w.queued)) := by
  unfold pass at h
  split_ifs at h with hneg hrc hpoll
  · obtain ⟨m, -, rfl⟩ := Option.map_eq_some_iff.mp h
    exact Or.inl ⟨fun href => hrc href.1, rfl, rfl⟩
  · obtain rfl := Option.some.inj h
    exact Or.inl ⟨fun href => hrc href.1, rfl, rfl⟩
  · cases hpick : p.pick (t.rand % 100 + 1) with
    | none =>
      rw [hpick] at h
      obtain rfl := Option.some.inj h
      refine Or.inl ⟨fun ⟨_, hsome, _⟩ => ?_, rfl, rfl⟩
      simp [hpick] at hsome
    | some s =>
      rw [hpick] at h
      obtain ⟨r, hr, rfl⟩ := Option.map_eq_some_iff.mp h
      refine Or.inr ⟨s, _, hpick, rfl, ?_⟩
      obtain ⟨hsent, hq⟩ | ⟨hsent, hq⟩ := send_cases hr
      · refine Or.inl ⟨fun ⟨_, _, hagain⟩ => ?_, hq⟩
        exact absurd (hsent.symm.trans hagain) (by decide)
      · exact Or.inr ⟨⟨not_not.mp hrc, by rw [hpick]; rfl, hsent⟩, hq⟩

end Pass

/-! ### A whole run -/

/-- One more status, announced and pushed. -/
theorem Agree.concat {p : Program} {w w' : World} {s : Status} {random : ℕ} (h : Agree p w)
    (hpick : p.pick random = some s) (hann : w'.announced = w.announced ++ [s.line])
    (hq : w'.queued = w.queued ++ [s.message]) : Agree p w' := by
  obtain ⟨ss, hss, ha, hm⟩ := h
  refine ⟨ss ++ [s], ?_, ?_, ?_⟩
  · exact List.forall_mem_append.mpr ⟨hss, List.forall_mem_singleton.mpr ⟨random, hpick⟩⟩
  · rw [hann, ha, List.map_append, List.map_singleton]
  · rw [hq, hm, List.map_append, List.map_singleton]

/-- How many sends of a run the socket has refused. -/
def refusals (p : Program) (ts : List Turn) : ℕ := ts.countP fun t => decide (Refused p t)

theorem refusals_concat (p : Program) (ts : List Turn) (t : Turn) :
    refusals p (ts ++ [t]) = refusals p ts + if Refused p t then 1 else 0 := by
  unfold refusals
  rw [List.countP_append, List.countP_singleton]
  simp only [decide_eq_true_eq]

/-- Refused sends are announced, and nothing but them keeps the lists apart. -/
structure Inv (p : Program) (ts : List Turn) (w : World) : Prop where
  count : w.queued.length + refusals p ts = w.announced.length
  agree : (∀ t ∈ ts, ¬ Refused p t) → Agree p w

theorem inv_step {p : Program} {ts : List Turn} {w w' : World} {t : Turn} (hw : Inv p ts w)
    (h : pass p w t = some w') : Inv p (ts ++ [t]) w' := by
  have hcount := hw.count
  refine ⟨?_, fun hall => ?_⟩
  · rw [refusals_concat]
    obtain ⟨href, hann, hq⟩ | ⟨s, random, -, hann, ⟨href, hq⟩ | ⟨href, hq⟩⟩ := pass_cases h
    · rw [if_neg href, hann, hq]
      omega
    · rw [if_neg href, hann, hq, List.length_append, List.length_append]
      show w.queued.length + 1 + _ = w.announced.length + 1
      omega
    · rw [if_pos href, hann, hq, List.length_append]
      show _ = w.announced.length + 1
      omega
  · rw [List.forall_mem_append, List.forall_mem_singleton] at hall
    have hagree := hw.agree hall.1
    obtain ⟨-, hann, hq⟩ | ⟨s, random, hpick, hann, ⟨-, hq⟩ | ⟨href, -⟩⟩ := pass_cases h
    · unfold Agree
      rw [hann, hq]
      exact hagree
    · exact hagree.concat hpick hann hq
    · exact absurd href hall.2

theorem inv_exec {p : Program} {ts : List Turn} {w : World}
    (h : (client p).exec (client p).init ts = some w) : Inv p ts w := by
  have hinit : Inv p [] (client p).init := ⟨rfl, fun _ => ⟨[], by simp, rfl, rfl⟩⟩
  exact System.exec_induction hinit (fun _ _ _ _ _ hw hstep => inv_step hw hstep) h

/-- Lists that agree have the same length. -/
theorem Agree.length_eq {p : Program} {w : World} (h : Agree p w) :
    w.announced.length = w.queued.length := by
  obtain ⟨ss, -, ha, hm⟩ := h
  rw [ha, hm, List.length_map, List.length_map]

/-- **Announced sends**: after a run of one of the clients, the statuses announced are the messages
that the socket has taken if and only if it has taken the message of every pass that sends. -/
theorem announced_iff (c : Client) (ts : List Turn) (w : World)
    (h : (client c.program).exec (client c.program).init ts = some w) :
    Agree c.program w ↔ ∀ t ∈ ts, ¬ Refused c.program t := by
  have hw := inv_exec h
  constructor
  · intro hagree t ht href
    have hpos : 0 < refusals c.program ts :=
      List.countP_pos_iff.mpr ⟨t, ht, decide_eq_true href⟩
    have hlen := hagree.length_eq
    have hcount := hw.count
    omega
  · exact hw.agree

/-- A pass in which poll reports nothing, `rand` gives `r` and the send ends as `sent`. -/
def sendingTurn (r : ℕ) (sent : SendResult) : Turn := ⟨0, 0, none, r, sent⟩

theorem announced_one_sent :
    Agree pubSubClient ⟨[decimal 1], [ascii "I: sending message " ++ decimal 1 ++ ascii "\n"],
        ascii "I: sending message " ++ decimal 1 ++ ascii "\n"⟩ ↔
      ∀ t ∈ [sendingTurn 0 .queued], ¬ Refused pubSubClient t :=
  announced_iff .pubSub [sendingTurn 0 .queued] _ rfl

/-- The line that announces the number 1. -/
def lineOne : Bytes := ascii "I: sending message " ++ decimal 1 ++ ascii "\n"

/-- Some passes that push a 1, all of which the socket takes. -/
theorem exec_taken (w : World) (n : ℕ) :
    (client pubSubClient).exec w (List.replicate n (sendingTurn 0 .queued)) =
      some ⟨w.queued ++ List.replicate n (decimal 1), w.announced ++ List.replicate n lineOne,
        w.out ++ (List.replicate n lineOne).flatten⟩ := by
  induction n generalizing w with
  | zero => simp
  | succ n ih =>
    have hstep : (client pubSubClient).step w (sendingTurn 0 .queued) =
        some ⟨w.queued ++ [decimal 1], w.announced ++ [lineOne], w.out ++ lineOne⟩ := rfl
    rw [List.replicate_succ, System.exec_cons, hstep]
    refine (ih _).trans ?_
    simp only [List.append_assoc, List.singleton_append, List.replicate_succ, List.flatten_cons]

/-- A queue of `n` messages is full, and the socket refuses one more, which is announced. -/
theorem refused_behind (n : ℕ) : ∃ w,
    (client pubSubClient).exec (client pubSubClient).init
        (List.replicate n (sendingTurn 0 .queued) ++ [sendingTurn 0 .again]) = some w ∧
      w.announced = List.replicate n lineOne ++ [lineOne] ∧ w.queued = List.replicate n (decimal 1) ∧
      ¬ Agree pubSubClient w := by
  refine ⟨⟨List.replicate n (decimal 1), List.replicate n lineOne ++ [lineOne],
    (List.replicate n lineOne).flatten ++ lineOne⟩, ?_, rfl, rfl, fun hagree => ?_⟩
  · rw [System.exec_append, exec_taken]
    rfl
  · have hlen := hagree.length_eq
    rw [List.length_append, List.length_replicate, List.length_replicate] at hlen
    exact absurd hlen (Nat.succ_ne_self n)

/-- The queue of a socket with the default limit. -/
theorem not_always_announced : ∃ w,
    (client pubSubClient).exec (client pubSubClient).init
        (List.replicate 1000 (sendingTurn 0 .queued) ++ [sendingTurn 0 .again]) = some w ∧
      w.announced = List.replicate 1000 lineOne ++ [lineOne] ∧
      w.queued = List.replicate 1000 (decimal 1) ∧ ¬ Agree pubSubClient w :=
  refused_behind 1000

end Fssn.Zmq.PushClient
