import Fssn.Tcp.SocketServer

/-!
# Fssn.Tcp.Recovery — the sequential server after a failed accept

A failed `accept` of the outer loop sets `isExit`, and the loop goes on: the inner loop finds the
`quit` of the last client in its buffer and leaves at once, but every client accepted from then on is
closed before it is served.  When the very first `accept` fails, `isExit` stays false and the inner
loop turns for ever on what the buffer happens to hold, unless that is a `quit`.

`settles_sent`: what has been sent in the end.  `recovers_iff`: for which outcomes that is what it
would be without the failed ones.
-/

namespace Fssn.Tcp.SocketServer

open Fssn.Lib

/-- A client that sends whole frames, the last of them a `quit`. -/
structure Visit where
  csock : ℤ
  pos : 0 < csock
  sin_port : UInt16
  frames : List TextFrame
  quits : ∃ f ∈ frames, isQuit f.bytes = true

def Visit.connection (v : Visit) : Connection where
  csock := v.csock
  pos := v.pos
  sin_port := v.sin_port
  results := v.frames.map fun f => .whole f.toBuffer

/-- An attempt to accept a client: `none` fails. -/
def attempt : Option Visit → Accept
  | none => .failed
  | some v => .connected v.connection

/-- The state `m` steps after the start, with these outcomes of `accept`. -/
def after (buffer : Buffer bufSize) (as : List (Option Visit)) (m : ℕ) : State :=
  next^[m] (start buffer (as.map attempt))

/-- The frames before the `quit`, back on the client's connection. -/
def Visit.echoes (v : Visit) : List (ℤ × Buffer bufSize) :=
  (relayed v.frames).map fun f => (v.csock, f.toBuffer)

/-- The echoes of all clients that were accepted, in order. -/
def echoes (as : List (Option Visit)) : List (ℤ × Buffer bufSize) :=
  (as.map fun a => a.elim [] Visit.echoes).flatten

/-- In the end, every accepted client has had each of its frames before `quit` echoed back, and all
that was sent is what is sent when the failed attempts are left out. -/
structure Recovers (buffer : Buffer bufSize) (as : List (Option Visit)) : Prop where
  echoed : ∃ n, ∀ m, n ≤ m → (after buffer as m).sent = echoes as
  as_if : ∃ n, ∀ m, n ≤ m →
    (after buffer as m).sent = (after buffer (as.filter Option.isSome) m).sent

/-- These clients send nothing before their `quit`. -/
def Silent (as : List (Option Visit)) : Prop := ∀ v, some v ∈ as → relayed v.frames = []

/-! ### What is sent in the end -/

section Sessions

variable {s : State} {v : Visit} {as : List (Option Visit)}

/-- The whole frames of a client are served and it leaves its `quit` in the buffer. -/
theorem serve_visit (hpc : s.pc = .recv) (hconn : s.conn = some v.connection.results)
    (hclient : s.client = v.csock) :
    Leads next (fun t => t.pc = .accept ∧ isQuit t.buffer.bytes = true ∧ t.isExit = s.isExit ∧
      t.accepts = s.accepts ∧ t.sent = s.sent ++ v.echoes) s := by
  have hresults : (v.connection.results.map fun c => RecvResult.data c.bytes) =
      v.frames.map fun f => .data f.bytes := by
    rw [Visit.connection, List.map_map]
    rfl
  have hframed := framedRight_frames (Tcp.socketserver s.client) (fun _ => ⟨0, []⟩) s.buffer v.frames
  refine (serve_session (fun _ => ⟨0, []⟩) hpc hconn).trans fun t ht => .here ?_
  rw [hresults] at ht
  generalize session (Tcp.socketserver s.client) (fun _ => ⟨0, []⟩) s.buffer
    (v.frames.map fun f => .data f.bytes) = r at hframed ht
  obtain ⟨hpc', hq⟩ := ht.ended (hframed.ended.trans (List.any_eq_true.mpr v.quits))
  refine ⟨hpc', hq, ht.isExit, ht.accepts, ?_⟩
  have hsent : r.sent.map (fun x => (s.client, x.2)) = v.echoes := by
    calc r.sent.map (fun x => (s.client, x.2))
        = (r.sent.map Prod.snd).map fun b => (s.client, b) := List.map_map.symm
      _ = ((relayed v.frames).map TextFrame.toBuffer).map fun b => (s.client, b) := by
          rw [hframed.buffers]
      _ = v.echoes := by
          rw [List.map_map, hclient]
          rfl
  rw [ht.sent, hsent]

/-- On a descriptor that is no connection, a `quit` in the buffer ends the session at once. -/
theorem serve_lost (hpc : s.pc = .recv) (hconn : s.conn = none)
    (hq : isQuit s.buffer.bytes = true) :
    Leads next (fun t => t.pc = .accept ∧ isQuit t.buffer.bytes = true ∧ t.isExit = s.isExit ∧
      t.accepts = s.accepts ∧ t.sent = s.sent) s := by
  refine .of_step (.here ?_)
  rw [next_recv_lost hpc hconn, turn_quit hq]
  exact ⟨rfl, hq, rfl, rfl, rfl⟩

/-- With any other text in the buffer the inner loop turns for ever. -/
theorem settles_lost (hpc : s.pc = .recv) (hconn : s.conn = none)
    (hq : isQuit s.buffer.bytes = false) : Settles next (fun t => t.sent = s.sent) s := by
  refine .of_invariant (I := fun t => t.pc = .recv ∧ t.conn = none ∧
    isQuit t.buffer.bytes = false ∧ t.sent = s.sent) ?_ (fun t ht => ht.2.2.2) ⟨hpc, hconn, hq, rfl⟩
  rintro t ⟨hpc, hconn, hq, hsent⟩
  rw [next_recv_lost hpc hconn, turn_frame hq]
  exact ⟨hpc, rfl, hq, hsent⟩

/-- What the outer loop will have sent from its `accept` on: with `isExit` nothing, else the echoes up
to the next failure. -/
def remaining (isExit : Bool) (as : List (Option Visit)) : List (ℤ × Buffer bufSize) :=
  if isExit then [] else echoes (as.takeWhile Option.isSome)

theorem settles_accept (hpc : s.pc = .accept) (hq : isQuit s.buffer.bytes = true)
    (has : s.accepts = as.map attempt) :
    Settles next (fun t => t.sent = s.sent ++ remaining s.isExit as) s := by
  induction as generalizing s with
  | nil =>
    refine .of_fixed (next_waits (by simp [hpc]) has) ?_
    cases s.isExit <;> simp [remaining, echoes]
  | cons a as ih =>
    cases a with
    | none =>
      -- the buffer's `quit` ends the session on -1, and `isExit` is set
      have hnext := next_accept_failed hpc has
      have hlead := serve_lost (s := next s) (by rw [hnext]) (by rw [hnext]) (by rw [hnext]; exact hq)
      refine (Leads.of_step hlead).settles ?_
      rintro t ⟨hpc', hq', hexit, has', hsent⟩
      rw [hnext] at hexit has' hsent
      refine (ih hpc' hq' has').mono fun u hu => ?_
      rw [hu, hexit, hsent]
      cases s.isExit <;> simp [remaining, echoes]
    | some v =>
      have hnext := next_accept_connected hpc has
      cases hexit : s.isExit with
      | true =>
        rw [hexit] at hnext
        have hlead := serve_lost (s := next s) (by rw [hnext]) (by rw [hnext]; rfl)
          (by rw [hnext]; exact hq)
        refine (Leads.of_step hlead).settles ?_
        rintro t ⟨hpc', hq', hexit', has', hsent⟩
        rw [hnext] at hexit' has' hsent
        refine (ih hpc' hq' has').mono fun u hu => ?_
        rw [hu, hexit', hsent]
        simp [remaining]
      | false =>
        rw [hexit] at hnext
        have hlead := serve_visit (s := next s) (v := v) (by rw [hnext]) (by rw [hnext]; rfl)
          (by rw [hnext]; rfl)
        refine (Leads.of_step hlead).settles ?_
        rintro t ⟨hpc', hq', hexit', has', hsent⟩
        rw [hnext] at hexit' has' hsent
        refine (ih hpc' hq' has').mono fun u hu => ?_
        rw [hu, hexit', hsent]
        simp [remaining, echoes]

end Sessions

/-- What has been sent in the end. -/
def finalSent (buffer : Buffer bufSize) : List (Option Visit) → List (ℤ × Buffer bufSize)
  | [] => []
  | none :: as => if isQuit buffer.bytes then remaining false as else []
  | some v :: as => v.echoes ++ remaining false as

theorem settles_sent (buffer : Buffer bufSize) (as : List (Option Visit)) :
    Settles next (fun t => t.sent = finalSent buffer as) (start buffer (as.map attempt)) := by
  cases as with
  | nil => exact .of_fixed (next_waits (by simp [start]) rfl) rfl
  | cons a as =>
    cases a with
    | none =>
      have hnext := next_first_failed (s := start buffer ((none :: as).map attempt)) rfl rfl
      cases hq : isQuit buffer.bytes with
      | true =>
        have hlead := serve_lost (s := next (start buffer ((none :: as).map attempt)))
          (by rw [hnext]) (by rw [hnext]) (by rw [hnext]; exact hq)
        refine (Leads.of_step hlead).settles ?_
        rintro t ⟨hpc', hq', hexit, has, hsent⟩
        rw [hnext] at hexit has hsent
        refine (settles_accept hpc' hq' has).mono fun u hu => ?_
        rw [hu, hexit, hsent, finalSent, if_pos hq]
        rfl
      | false =>
        have hlost := settles_lost (s := next (start buffer ((none :: as).map attempt)))
          (by rw [hnext]) (by rw [hnext]) (by rw [hnext]; exact hq)
        refine (hlost.mono fun u hu => ?_).of_step
        rw [hu, hnext, finalSent, if_neg (by simp [hq])]
        rfl
    | some v =>
      have hnext := next_first_connected (s := start buffer ((some v :: as).map attempt)) rfl rfl
      have hlead := serve_visit (s := next (start buffer ((some v :: as).map attempt))) (v := v)
        (by rw [hnext]) (by rw [hnext]) (by rw [hnext]; rfl)
      refine (Leads.of_step hlead).settles ?_
      rintro t ⟨hpc', hq', hexit, has, hsent⟩
      rw [hnext] at hexit has hsent
      refine (settles_accept hpc' hq' has).mono fun u hu => ?_
      rw [hu, hexit, hsent]
      rfl

/-! ### When nothing is missing -/

section Echoes

variable {buffer : Buffer bufSize} {as : List (Option Visit)} {v : Visit}

theorem echoes_none (as : List (Option Visit)) : echoes (none :: as) = echoes as := by
  rw [echoes, List.map_cons, List.flatten_cons]
  rfl

theorem echoes_some (v : Visit) (as : List (Option Visit)) :
    echoes (some v :: as) = v.echoes ++ echoes as := by
  rw [echoes, List.map_cons, List.flatten_cons]
  rfl

theorem remaining_none (as : List (Option Visit)) : remaining false (none :: as) = [] := rfl

theorem remaining_some (v : Visit) (as : List (Option Visit)) :
    remaining false (some v :: as) = v.echoes ++ remaining false as :=
  echoes_some v _

theorem echoes_eq_nil_iff : echoes as = [] ↔ Silent as := by
  simp only [echoes, List.flatten_eq_nil_iff, List.forall_mem_map, Silent]
  constructor
  · intro h v hv
    exact List.map_eq_nil_iff.mp (h (some v) hv)
  · intro h a ha
    cases a with
    | none => rfl
    | some v => exact List.map_eq_nil_iff.mpr (h v ha)

theorem echoes_filter (as : List (Option Visit)) : echoes (as.filter Option.isSome) = echoes as := by
  induction as with
  | nil => rfl
  | cons a as ih =>
    cases a with
    | none => rw [List.filter_cons_of_neg (by simp), ih, echoes_none]
    | some v => rw [List.filter_cons_of_pos (by simp), echoes_some, echoes_some, ih]

/-- Behind a failure of the outer loop nothing is echoed: nothing is missing exactly if nothing had
to be. -/
theorem remaining_eq_echoes_iff :
    remaining false as = echoes as ↔ ∀ p q, as = p ++ none :: q → Silent q := by
  induction as with
  | nil =>
    refine iff_of_true rfl fun p q h => ?_
    exact absurd (congrArg List.length h) (by simp)
  | cons a as ih =>
    cases a with
    | none =>
      rw [remaining_none, echoes_none, eq_comm, echoes_eq_nil_iff]
      constructor
      · intro h p q hpq v hv
        cases p with
        | nil =>
          obtain rfl : as = q := (List.cons.inj hpq).2
          exact h v hv
        | cons x p =>
          obtain rfl : as = p ++ none :: q := (List.cons.inj hpq).2
          exact h v (List.mem_append_right _ (List.mem_cons_of_mem _ hv))
      · intro h
        exact h [] as rfl
    | some v =>
      rw [remaining_some, echoes_some, List.append_cancel_left_eq, ih]
      constructor
      · intro h p q hpq
        cases p with
        | nil => exact absurd (List.cons.inj hpq).1 (by simp)
        | cons x p => exact h p q (List.cons.inj hpq).2
      · intro h p q hpq
        exact h (some v :: p) q (by rw [hpq, List.cons_append])

theorem finalSent_filter (buffer : Buffer bufSize) (as : List (Option Visit)) :
    finalSent buffer (as.filter Option.isSome) = echoes as := by
  rw [← echoes_filter]
  cases has : as.filter Option.isSome with
  | nil => rfl
  | cons a bs =>
    have hsome : ∀ x ∈ a :: bs, x.isSome = true := by
      rw [← has]
      intro x hx
      exact (List.mem_filter.mp hx).2
    have hbs : bs.takeWhile Option.isSome = bs :=
      List.takeWhile_eq_self_iff.mpr fun x hx => hsome x (List.mem_cons_of_mem _ hx)
    cases a with
    | none => exact absurd (hsome none List.mem_cons_self) (by simp)
    | some v =>
      show v.echoes ++ echoes (bs.takeWhile Option.isSome) = _
      rw [hbs, echoes_some]

theorem recovers_iff_finalSent : Recovers buffer as ↔ finalSent buffer as = echoes as := by
  have hrun := settles_sent buffer as
  constructor
  · intro h
    exact hrun.unique h.echoed
  · intro h
    obtain ⟨n, hn⟩ := hrun
    obtain ⟨k, hk⟩ := settles_sent buffer (as.filter Option.isSome)
    refine ⟨⟨n, fun m hm => (hn m hm).trans h⟩, max n k, fun m hm => ?_⟩
    have hleft : (after buffer as m).sent = finalSent buffer as := hn m (by omega)
    have hright : (after buffer (as.filter Option.isSome) m).sent =
        finalSent buffer (as.filter Option.isSome) := hk m (by omega)
    rw [hleft, hright, h, finalSent_filter]

/-- Every failed `accept` is the first of all, with a `quit` in the buffer, or comes before no client
that sends a frame before its `quit`. -/
def FailuresHarmless (buffer : Buffer bufSize) (as : List (Option Visit)) : Prop :=
  ∀ p q, as = p ++ none :: q → (p = [] ∧ isQuit buffer.bytes = true) ∨ Silent q

theorem finalSent_eq_echoes_iff : finalSent buffer as = echoes as ↔ FailuresHarmless buffer as := by
  cases as with
  | nil =>
    refine iff_of_true rfl fun p q h => ?_
    exact absurd (congrArg List.length h) (by simp)
  | cons a as =>
    cases a with
    | some v =>
      rw [finalSent, ← remaining_some, remaining_eq_echoes_iff]
      refine forall₂_congr fun p q => imp_congr_right fun hpq => (or_iff_right ?_).symm
      rintro ⟨rfl, -⟩
      exact absurd (List.cons.inj hpq).1 (by simp)
    | none =>
      rw [finalSent, echoes_none]
      by_cases hq : isQuit buffer.bytes = true
      · rw [if_pos hq, remaining_eq_echoes_iff]
        constructor
        · intro h p q hpq
          cases p with
          | nil => exact Or.inl ⟨rfl, hq⟩
          | cons x p => exact Or.inr (h p q (List.cons.inj hpq).2)
        · intro h p q hpq
          refine (h (none :: p) q (by rw [hpq, List.cons_append])).resolve_left ?_
          exact fun hnil => absurd hnil.1 (List.cons_ne_nil _ _)
      · rw [if_neg hq, eq_comm, echoes_eq_nil_iff]
        constructor
        · intro h p q hpq
          refine Or.inr fun v hv => h v ?_
          cases p with
          | nil =>
            obtain rfl : as = q := (List.cons.inj hpq).2
            exact hv
          | cons x p =>
            obtain rfl : as = p ++ none :: q := (List.cons.inj hpq).2
            exact List.mem_append_right _ (List.mem_cons_of_mem _ hv)
        · intro h
          exact (h [] as rfl).resolve_left fun hquit => hq hquit.2

end Echoes

/-- **Recovery.**  The sequential server recovers from its failed accepts exactly if they are
harmless: the first of all with a `quit` in the buffer, or before no client that has anything to be
echoed. -/
theorem recovers_iff (buffer : Buffer bufSize) (as : List (Option Visit)) :
    Recovers buffer as ↔ FailuresHarmless buffer as :=
  recovers_iff_finalSent.trans finalSent_eq_echoes_iff

/-- A client that sends `hi` and `quit`. -/
def hiAndQuit (csock : ℤ) (pos : 0 < csock) : Visit where
  csock := csock
  pos := pos
  sin_port := 0
  frames := [hi, quitFrame]
  quits := ⟨quitFrame, by simp, by rfl⟩

/-- A client, a failure, and a client that is accepted and closed. -/
theorem not_always_recovers : ¬ ∀ buffer as, Recovers buffer as := by
  intro h
  have hsent := recovers_iff_finalSent.mp (h (.const bufSize 0)
    [some (hiAndQuit 4 (by decide)), none, some (hiAndQuit 5 (by decide))])
  exact absurd (congrArg List.length hsent) (by decide)

end Fssn.Tcp.SocketServer
