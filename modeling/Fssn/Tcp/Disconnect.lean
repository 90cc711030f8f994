import Fssn.Tcp.Session

/-!
# Fssn.Tcp.Disconnect — what the servers do when a client is gone

When a client closes its connection, or the connection fails, every further `recv` returns 0 or -1
and leaves the buffer as it is.  The loops look at the buffer only: they take the last text once
more, for every such result.  `ends_iff`: the loop ends at the disconnect only if nothing was
received on the connection and its buffer already holds `quit`.
-/

namespace Fssn.Tcp

open Fssn.Lib

/-- How a `recv` on a lost connection returns. -/
inductive Lost
  | closed
  | failed

def Lost.result : Lost → RecvResult
  | .closed => .closed
  | .failed => .failed

/-- The results of the receive calls for a client that disconnects: the data `received` before, and
from then on end of file or an error each time. -/
structure Outcomes where
  received : List Bytes
  pos : ∀ p ∈ received, p ≠ []
  le : ∀ p ∈ received, p.length ≤ bufSize
  lost : ℕ → Lost

/-- The data and the first `m` results after it. -/
def Outcomes.upTo (o : Outcomes) (m : ℕ) : List RecvResult :=
  o.received.map .data ++ (List.range m).map fun k => (o.lost k).result

/-- The servers that count their clients. -/
def Program.hasThreadNum : Program → Bool
  | .echo _ => false
  | .socketserver _ => false
  | .multithread _ _ => true
  | .multithreadChat => true

/-- How often the loop executes `threadNum--`, which stands in the `quit` branch. -/
def decrements (p : Program) : Buffer bufSize → List RecvResult → ℕ
  | _, [] => 0
  | b, r :: rs =>
    let buffer := recv b r
    if isQuit buffer.bytes then (if p.hasThreadNum then 1 else 0) else decrements p buffer rs

section Law

variable (p : Program) (env : ℕ → Shared) (b : Buffer bufSize) (o : Outcomes)

/-- The session after `m` results of the lost connection. -/
def after (m : ℕ) : Session := session p.handler env b (o.upTo m)

/-- The loop ends at the first result after the disconnect, sends nothing for it and does nothing
after it, and `threadNum` is lowered once. -/
structure EndsSession : Prop where
  ended : (after p env b o 1).ended = true
  silent : (after p env b o 1).sent = (after p env b o 0).sent
  final : ∀ m, after p env b o (m + 1) = after p env b o 1
  counted : p.hasThreadNum = true → ∀ m, decrements p b (o.upTo (m + 1)) = 1

end Law

/-! ### The buffer when the connection is lost -/

section Loop

variable {h : Handler} {env : ℕ → Shared} {b : Buffer bufSize} {r : RecvResult}
  {rs : List RecvResult}

/-- The buffer after the receive results `rs`. -/
def bufferAfter (b : Buffer bufSize) (rs : List RecvResult) : Buffer bufSize := rs.foldl recv b

theorem recv_lost (b : Buffer bufSize) (l : Lost) : recv b l.result = b := by
  cases l <;> rfl

/-- One more result ends the loop if it has ended before or the buffer then holds `quit`. -/
theorem ended_concat :
    (session h env b (rs ++ [r])).ended =
      ((session h env b rs).ended || isQuit (bufferAfter b (rs ++ [r])).bytes) := by
  induction rs generalizing env b with
  | nil =>
    show (session h env b [r]).ended = isQuit (recv b r).bytes
    rw [session]
    by_cases hq : isQuit (recv b r).bytes = true
    · rw [if_pos hq, hq]
    · rw [if_neg hq]
      exact (Bool.not_eq_true _ ▸ hq).symm
  | cons s rs ih =>
    rw [List.cons_append, session, session]
    by_cases hq : isQuit (recv b s).bytes = true
    · rw [if_pos hq, if_pos hq]
      rfl
    · rw [if_neg hq, if_neg hq]
      exact ih

/-- While the loop has not ended, its buffer does not hold `quit`. -/
theorem isQuit_bufferAfter (hne : rs ≠ []) (hend : (session h env b rs).ended = false) :
    isQuit (bufferAfter b rs).bytes = false := by
  obtain ⟨rs, r, rfl⟩ := (List.eq_nil_or_concat rs).resolve_left hne
  rw [List.concat_eq_append, ended_concat, Bool.or_eq_false_iff] at hend
  rw [List.concat_eq_append]
  exact hend.2

end Loop

section Disconnect

variable {p : Program} {env : ℕ → Shared} {b : Buffer bufSize} {o : Outcomes}

theorem upTo_succ (o : Outcomes) (m : ℕ) : o.upTo (m + 1) = o.upTo m ++ [(o.lost m).result] := by
  rw [Outcomes.upTo, Outcomes.upTo, List.range_succ, List.map_append, List.append_assoc]
  rfl

/-- The results of the lost connection leave the buffer as it is. -/
theorem bufferAfter_upTo (o : Outcomes) (m : ℕ) :
    bufferAfter b (o.upTo m) = bufferAfter b (o.received.map .data) := by
  induction m with
  | zero => rw [Outcomes.upTo, List.range_zero, List.map_nil, List.append_nil]
  | succ m ih =>
    rw [upTo_succ, bufferAfter, List.foldl_concat, recv_lost]
    exact ih

/-- Every result after the disconnect is one more comparison of the same buffer. -/
theorem ended_after (hend : (session p.handler env b (o.received.map .data)).ended = false) (m : ℕ) :
    (after p env b o (m + 1)).ended = isQuit (bufferAfter b (o.received.map .data)).bytes := by
  rw [after, upTo_succ, ended_concat, ← upTo_succ, bufferAfter_upTo]
  induction m with
  | zero =>
    have hzero : o.upTo 0 = o.received.map .data := List.append_nil _
    rw [hzero, hend, Bool.false_or]
  | succ m ih => rw [upTo_succ, ended_concat, ← upTo_succ, bufferAfter_upTo, ih, Bool.or_self]

/-- Otherwise no number of these results ends the loop, and it sends its buffer for each of them.  What
ends it is the signal that a `send` to a closed connection raises at last. -/
theorem endless (hend : (session p.handler env b (o.received.map .data)).ended = false)
    (hlive : isQuit (bufferAfter b (o.received.map .data)).bytes = false) (m : ℕ) :
    (after p env b o (m + 1)).ended = false ∧
      (after p env b o (m + 1)).sent.length = o.received.length + (m + 1) := by
  have hno : (after p env b o (m + 1)).ended = false := by rw [ended_after hend, hlive]
  refine ⟨hno, ?_⟩
  rw [after, (lengths hno).2, Outcomes.upTo, List.length_append, List.length_map, List.length_map,
    List.length_range]

theorem of_endsSession (hend : (session p.handler env b (o.received.map .data)).ended = false)
    (hlaw : EndsSession p env b o) : o.received = [] ∧ isQuit b.bytes = true := by
  have hq : isQuit (bufferAfter b (o.received.map .data)).bytes = true := by
    rw [← ended_after hend 0]
    exact hlaw.ended
  by_cases hnil : o.received = []
  · rw [hnil] at hq
    exact ⟨hnil, hq⟩
  · have hno := isQuit_bufferAfter (fun h => hnil (List.map_eq_nil_iff.mp h)) hend
    rw [hno] at hq
    exact absurd hq (by simp)

theorem endsSession_of_stale (hnil : o.received = []) (hq : isQuit b.bytes = true) :
    EndsSession p env b o := by
  have hrs : ∀ m, o.upTo (m + 1) =
      (o.lost 0).result :: (List.range m).map fun k => (o.lost (k + 1)).result := by
    intro m
    rw [Outcomes.upTo, hnil, List.range_succ_eq_map, List.map_cons, List.map_map]
    rfl
  have hrun : ∀ m, after p env b o (m + 1) =
      ⟨[cText b.bytes], [], p.handler.onQuit (env 0) (cText b.bytes), true⟩ := by
    intro m
    rw [after, hrs, session, recv_lost]
    exact if_pos hq
  have hzero : after p env b o 0 = ⟨[], [], [], false⟩ := by
    rw [after, Outcomes.upTo, hnil]
    rfl
  refine ⟨by rw [hrun], by rw [hrun, hzero], fun m => by rw [hrun, hrun], fun hp m => ?_⟩
  rw [hrs, decrements, recv_lost]
  simp only [hq, hp, if_true]

end Disconnect

/-- **Disconnect.**  For a client whose data held no `quit`, the session loop ends at the disconnect
if and only if there were no data and the buffer already holds `quit`. -/
theorem ends_iff (p : Program) (env : ℕ → Shared) (b : Buffer bufSize) (o : Outcomes)
    (hend : (session p.handler env b (o.received.map .data)).ended = false) :
    EndsSession p env b o ↔ o.received = [] ∧ isQuit b.bytes = true :=
  ⟨of_endsSession hend, fun h => endsSession_of_stale h.1 h.2⟩

/-- A client that sends `hi` and closes its connection. -/
def hiThenClosed : Outcomes where
  received := [hi.bytes]
  pos p hp := by
    rw [List.mem_singleton.mp hp]
    exact List.ne_nil_of_mem hi.nul
  le p hp := by
    rw [List.mem_singleton.mp hp]
    exact hi.length_eq.le
  lost _ := .closed

/-- In a buffer that holds older bytes. -/
theorem ends_iff_hiThenClosed :
    (session (Program.echo 4).handler (fun _ => ⟨0, []⟩) (.const bufSize 120)
      (hiThenClosed.received.map .data)).ended = false ∧
    (EndsSession (.echo 4) (fun _ => ⟨0, []⟩) (.const bufSize 120) hiThenClosed ↔
      hiThenClosed.received = [] ∧ isQuit (Buffer.const bufSize 120).bytes = true) :=
  ⟨rfl, ends_iff (.echo 4) (fun _ => ⟨0, []⟩) (.const bufSize 120) hiThenClosed rfl⟩

/-- Its `hi` is echoed again after the connection is closed. -/
theorem not_always_endsSession :
    ¬ ∀ (p : Program) (env : ℕ → Shared) (b : Buffer bufSize) (o : Outcomes),
      (session p.handler env b (o.received.map .data)).ended = false → EndsSession p env b o := by
  intro h
  have hlaw := h (.echo 4) (fun _ => ⟨0, []⟩) (.const bufSize 0) hiThenClosed rfl
  exact absurd (of_endsSession rfl hlaw).1 (List.cons_ne_nil _ _)

end Fssn.Tcp
