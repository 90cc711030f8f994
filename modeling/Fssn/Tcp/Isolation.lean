import Fssn.Lib.Pipes
import Fssn.Tcp.SocketServer

/-!
# Fssn.Tcp.Isolation — what a session of the sequential server shows of the ones before it

The sequential server keeps its buffer between sessions, so the first short receive result of a
session is sent back with the bytes of the last client behind it.  `sameReplies_iff`: what is sent in
a session is decided by its own receive results exactly if the first of them fills the buffer or
begins with a whole `quit`.
-/

namespace Fssn.Tcp.SocketServer

open Fssn.Lib
open Pipes (cameFrom cameFrom_append cameFrom_of_ne)

/-- The outcomes of `accept` for the sessions `hist` and then one with the client `c`. -/
def sessions (hist : List Connection) (c : Connection) : List Accept :=
  (hist ++ [c]).map .connected

/-- The sessions `hist` come to their end, so that `c` is accepted next. -/
def Arrives (buffer : Buffer bufSize) (hist : List Connection) (c : Connection) : Prop :=
  Leads next (fun s => s.accepts = [.connected c] ∧ s.pc ≠ .recv) (start buffer (sessions hist c))

/-- In the end, `c` has been accepted and the buffers `bufs` were sent on its descriptor. -/
def Replies (buffer : Buffer bufSize) (hist : List Connection) (c : Connection)
    (bufs : List (Buffer bufSize)) : Prop :=
  Settles next (fun s => s.accepts = [] ∧ cameFrom c.csock s.sent = bufs)
    (start buffer (sessions hist c))

/-- After any two histories of sessions on other descriptors, a session with the receive results `cs`
has the same buffers sent on its connection. -/
def SameReplies (cs : List Chunk) : Prop :=
  ∀ buffer hist hist' c, c.results = cs → (∀ e ∈ hist ++ hist', e.csock ≠ c.csock) →
    Arrives buffer hist c → Arrives buffer hist' c →
      ∃ bufs, Replies buffer hist c bufs ∧ Replies buffer hist' c bufs

/-- The first receive result fills the buffer or begins with `quit` and its NUL. -/
def FirstDecides (cs : List Chunk) : Prop :=
  ∀ c ∈ cs.head?, c.bytes.length = bufSize ∨ ascii "quit" ++ [0] <+: c.bytes

/-! ### The last session -/

section Last

variable {s : State} {c : Connection}

/-- What a session sends that finds `b` in the buffer. -/
def sends (b : Buffer bufSize) (cs : List Chunk) : List (Buffer bufSize) :=
  (session (Tcp.socketserver 0) (fun _ => ⟨0, []⟩) b (cs.map fun c => .data c.bytes)).sent.map Prod.snd

theorem cameFrom_tag (i : ℤ) (l : List (Buffer bufSize)) :
    cameFrom i (l.map fun b => (i, b)) = l := by
  simp [cameFrom, List.filter_map, Function.comp_def]

/-- Whom a session sends to does not change what it sends. -/
theorem sent_socketserver (client : ℤ) (env : ℕ → Shared) (b : Buffer bufSize)
    (rs : List RecvResult) : (session (Tcp.socketserver client) env b rs).sent.map Prod.snd =
      (session (Tcp.socketserver 0) env b rs).sent.map Prod.snd := by
  induction rs generalizing env b with
  | nil => rfl
  | cons r rs ih =>
    rw [session, session]
    by_cases hq : isQuit (recv b r).bytes = true
    · rw [if_pos hq, if_pos hq]
    · rw [if_neg hq, if_neg hq, List.map_cons, List.map_cons, ih]

theorem next_arrived (hacc : s.accepts = [.connected c]) (hpc : s.pc ≠ .recv)
    (hexit : s.isExit = false) : (next s).accepts = [] ∧ (next s).pc = .recv ∧
      (next s).client = c.csock ∧ (next s).conn = some c.results ∧ (next s).buffer = s.buffer ∧
      (next s).sent = s.sent := by
  cases hs : s.pc with
  | recv => exact absurd hs hpc
  | first =>
    rw [next_first_connected hs hacc]
    exact ⟨rfl, rfl, rfl, rfl, rfl, rfl⟩
  | accept =>
    rw [next_accept_connected hs hacc]
    exact ⟨rfl, rfl, rfl, by rw [hexit]; rfl, rfl, rfl⟩

/-- From the `accept` of the last client on, its session is all that happens. -/
theorem settles_arrived (hacc : s.accepts = [.connected c]) (hpc : s.pc ≠ .recv)
    (hexit : s.isExit = false) (hnew : cameFrom c.csock s.sent = []) :
    Settles next (fun t => t.accepts = [] ∧ cameFrom c.csock t.sent = sends s.buffer c.results)
      s := by
  obtain ⟨hacc', hpc', hclient, hconn, hbuffer, hsent⟩ := next_arrived hacc hpc hexit
  have hserve := serve_session (fun _ => ⟨0, []⟩) hpc' hconn
  refine (Leads.of_step hserve).settles fun t ht => ?_
  have hwaits : next t = t := by
    cases hr : (session (Tcp.socketserver (next s).client) (fun _ => ⟨0, []⟩) (next s).buffer
        (c.results.map fun c => .data c.bytes)).ended with
    | true => exact next_waits (by rw [(ht.ended hr).1]; decide) (ht.accepts.trans hacc')
    | false => exact next_recv_waits (ht.waits hr).1 (ht.waits hr).2
  refine .of_fixed hwaits ⟨ht.accepts.trans hacc', ?_⟩
  have htag := cameFrom_tag c.csock (sends s.buffer c.results)
  rw [sends, ← sent_socketserver c.csock, List.map_map] at htag
  rw [ht.sent, hsent, hclient, hbuffer, cameFrom_append, hnew, List.nil_append, sends,
    ← sent_socketserver c.csock]
  exact htag

end Last

/-! ### The sessions before it -/

section Before

variable {s : State} {c : Connection}

/-- The client `c` is still to be accepted, and nothing was sent on its descriptor. -/
structure Pending (c : Connection) (s : State) : Prop where
  isExit : s.isExit = false
  client : s.client ≠ c.csock
  sent : cameFrom c.csock s.sent = []
  accepts : ∃ hist, (∀ e ∈ hist, e.csock ≠ c.csock) ∧ s.accepts = sessions hist c

theorem pending_turn (h : Pending c s) (b : Buffer bufSize) (conn : Option (List Chunk)) :
    Pending c (s.turn b conn) := by
  unfold State.turn
  split_ifs
  · exact ⟨h.isExit, h.client, h.sent, h.accepts⟩
  · refine ⟨h.isExit, h.client, ?_, h.accepts⟩
    show cameFrom c.csock (s.sent ++ [(s.client, b)]) = []
    rw [cameFrom_append, h.sent, cameFrom_of_ne h.client, List.nil_append]
  · exact ⟨h.isExit, h.client, h.sent, h.accepts⟩

/-- A step keeps `c` pending, or accepts it. -/
theorem pending_next (h : Pending c s) : Pending c (next s) ∨ (next s).accepts = [] := by
  obtain ⟨hist, hne, hacc⟩ := h.accepts
  cases hpc : s.pc with
  | recv =>
    refine Or.inl ?_
    cases hconn : s.conn with
    | none =>
      rw [next_recv_lost hpc hconn]
      exact pending_turn h _ _
    | some ks =>
      cases ks with
      | nil =>
        rw [next_recv_waits hpc hconn]
        exact h
      | cons k ks =>
        rw [next_recv_data hpc hconn]
        exact pending_turn h _ _
  | first =>
    cases hist with
    | nil => exact Or.inr (next_arrived hacc (by simp [hpc]) h.isExit).1
    | cons e hist =>
      rw [next_first_connected hpc hacc]
      exact Or.inl ⟨h.isExit, hne e List.mem_cons_self, h.sent, hist,
        fun x hx => hne x (List.mem_cons_of_mem _ hx), rfl⟩
  | accept =>
    cases hist with
    | nil => exact Or.inr (next_arrived hacc (by simp [hpc]) h.isExit).1
    | cons e hist =>
      rw [next_accept_connected hpc hacc]
      exact Or.inl ⟨h.isExit, hne e List.mem_cons_self, h.sent, hist,
        fun x hx => hne x (List.mem_cons_of_mem _ hx), rfl⟩

theorem accepts_next (h : s.accepts = []) : (next s).accepts = [] := by
  cases hpc : s.pc with
  | recv =>
    cases hconn : s.conn with
    | none =>
      rw [next_recv_lost hpc hconn, State.turn]
      split_ifs <;> exact h
    | some ks =>
      cases ks with
      | nil =>
        rw [next_recv_waits hpc hconn]
        exact h
      | cons k ks =>
        rw [next_recv_data hpc hconn, State.turn]
        split_ifs <;> exact h
  | first =>
    rw [next_waits (by simp [hpc]) h]
    exact h
  | accept =>
    rw [next_waits (by simp [hpc]) h]
    exact h

theorem pending_iterate (h : Pending c s) (n : ℕ) :
    Pending c (next^[n] s) ∨ (next^[n] s).accepts = [] := by
  induction n with
  | zero => exact Or.inl h
  | succ n ih =>
    rw [Function.iterate_succ_apply']
    rcases ih with ih | ih
    · exact pending_next ih
    · exact Or.inr (accepts_next ih)

theorem pending_start (buffer : Buffer bufSize) {hist : List Connection}
    (hne : ∀ e ∈ hist, e.csock ≠ c.csock) : Pending c (start buffer (sessions hist c)) :=
  ⟨rfl, ne_of_lt c.pos, rfl, hist, hne, rfl⟩

/-- What is sent in the session of `c` is what its loop sends, from some buffer. -/
theorem replies_of_arrives {buffer : Buffer bufSize} {hist : List Connection}
    (hne : ∀ e ∈ hist, e.csock ≠ c.csock) (h : Arrives buffer hist c) :
    ∃ b, Replies buffer hist c (sends b c.results) := by
  obtain ⟨n, hacc, hpc⟩ := h
  have hpend : Pending c (next^[n] (start buffer (sessions hist c))) := by
    refine (pending_iterate (pending_start buffer hne) n).resolve_right fun hnil => ?_
    exact absurd (hacc.symm.trans hnil) (List.cons_ne_nil _ _)
  have hlead : Leads next (fun t => t = next^[n] (start buffer (sessions hist c)))
      (start buffer (sessions hist c)) := ⟨n, rfl⟩
  refine ⟨(next^[n] (start buffer (sessions hist c))).buffer, hlead.settles ?_⟩
  rintro t rfl
  exact settles_arrived hacc hpc hpend.isExit hpend.sent

end Before

/-! ### The first receive result -/

section First

variable {cs : List Chunk} {c : Chunk}

theorem sends_quit {b : Buffer bufSize} (hq : isQuit (b.fill c.bytes).bytes = true) :
    sends b (c :: cs) = [] := by
  rw [sends, List.map_cons, session_quit hq]
  rfl

theorem sends_frame {b : Buffer bufSize} (hq : isQuit (b.fill c.bytes).bytes = false) :
    sends b (c :: cs) = b.fill c.bytes :: sends (b.fill c.bytes) cs := by
  rw [sends, List.map_cons, session_frame hq]
  rfl

theorem isQuit_fill {b : Buffer bufSize} (h : ascii "quit" ++ [0] <+: c.bytes) :
    isQuit (b.fill c.bytes).bytes = true :=
  strcmpEq_iff.mpr (h.trans (Buffer.prefix_fill c.le))

/-- The condition is enough. -/
theorem sends_eq (h : FirstDecides cs) (b b' : Buffer bufSize) : sends b cs = sends b' cs := by
  cases cs with
  | nil => rfl
  | cons c cs =>
    rcases h c rfl with hfull | hquit
    · have hfill : b.fill c.bytes = b'.fill c.bytes :=
        Buffer.ext ((Buffer.fill_full hfull).trans (Buffer.fill_full hfull).symm)
      by_cases hq : isQuit (b'.fill c.bytes).bytes = true
      · rw [sends_quit (hfill ▸ hq), sends_quit hq]
      · rw [Bool.not_eq_true] at hq
        rw [sends_frame (hfill ▸ hq), sends_frame hq, hfill]
    · rw [sends_quit (isQuit_fill hquit), sends_quit (isQuit_fill hquit)]

/-- A `quit` frame with the byte `1` behind its NUL. -/
def quitOnes : Buffer bufSize := (Buffer.const bufSize 1).fill (ascii "quit" ++ [0])

theorem isQuit_quitOnes : isQuit quitOnes.bytes = true :=
  strcmpEq_iff.mpr (Buffer.prefix_fill (by decide))

theorem getLast?_quitOnes : quitOnes.bytes.getLast? = some 1 := by
  rw [quitOnes, Buffer.fill_bytes (by decide), Buffer.const, List.drop_replicate,
    List.getLast?_append, List.getLast?_replicate]
  rfl

/-- A short first result that does not begin with `quit` shows the last byte of the buffer. -/
theorem sends_ne (h : ¬ FirstDecides cs) : sends (.const bufSize 2) cs ≠ sends quitOnes cs := by
  cases cs with
  | nil => exact absurd (fun c hc => absurd hc (by simp)) h
  | cons c cs =>
    have hfirst : ¬ (c.bytes.length = bufSize ∨ ascii "quit" ++ [0] <+: c.bytes) := by
      intro hc
      refine h fun x hx => ?_
      obtain rfl : c = x := Option.some.inj hx
      exact hc
    obtain ⟨hlen, hquit⟩ := not_or.mp hfirst
    have hlt : c.bytes.length < bufSize := lt_of_le_of_ne c.le hlen
    have hno : isQuit ((Buffer.const bufSize 2).fill c.bytes).bytes = false := by
      rw [← Bool.not_eq_true, isQuit, strcmpEq_iff, Buffer.fill_bytes c.le]
      intro hpre
      refine hquit (prefix_of_prefix_append ?_ hpre)
      rw [Buffer.const, List.drop_replicate]
      exact fun hmem => absurd (List.eq_of_mem_replicate hmem) (by decide)
    rw [sends_frame hno]
    by_cases hq : isQuit (quitOnes.fill c.bytes).bytes = true
    · rw [sends_quit hq]
      exact List.cons_ne_nil _ _
    · rw [sends_frame (Bool.not_eq_true _ ▸ hq)]
      intro heq
      refine Buffer.fill_ne_fill hlt ?_ (List.cons.inj heq).1
      rw [getLast?_quitOnes, Buffer.getLast?_const (by decide)]
      decide

end First

/-! ### The two histories -/

theorem arrives_nil (buffer : Buffer bufSize) (c : Connection) : Arrives buffer [] c :=
  .here ⟨rfl, by simp [start]⟩

theorem replies_nil (buffer : Buffer bufSize) (c : Connection) :
    Replies buffer [] c (sends buffer c.results) :=
  settles_arrived rfl (by simp [start]) rfl rfl

/-- A session in which the client sends `quitOnes`. -/
def quitSession (csock : ℤ) (pos : 0 < csock) : Connection := ⟨csock, pos, 0, [.whole quitOnes]⟩

/-- That session comes to its end and leaves its frame in the buffer. -/
theorem leads_quitSession (buffer : Buffer bufSize) (csock : ℤ) (pos : 0 < csock) (c : Connection) :
    Leads next (fun s => s.accepts = [.connected c] ∧ s.pc = .accept ∧ s.buffer = quitOnes ∧
        s.isExit = false ∧ s.sent = [])
      (start buffer (sessions [quitSession csock pos] c)) := by
  have hfirst := next_first_connected (s := start buffer (sessions [quitSession csock pos] c)) rfl rfl
  refine .of_step (.of_step (.here ?_))
  rw [hfirst]
  generalize hs : State.mk _ _ _ _ _ _ _ _ _ _ = s
  have hconn : s.conn = some [.whole quitOnes] := by rw [← hs]; rfl
  have hfill : s.buffer.fill (Chunk.whole quitOnes).bytes = quitOnes := Buffer.fill_frame _ _
  rw [next_recv_data (by rw [← hs]) hconn, hfill, turn_quit isQuit_quitOnes, ← hs]
  exact ⟨rfl, rfl, rfl, rfl, rfl⟩

theorem arrives_quitSession (buffer : Buffer bufSize) (csock : ℤ) (pos : 0 < csock)
    (c : Connection) : Arrives buffer [quitSession csock pos] c := by
  refine (leads_quitSession buffer csock pos c).trans fun s hs => .here ⟨hs.1, ?_⟩
  rw [hs.2.1]
  decide

theorem replies_quitSession (buffer : Buffer bufSize) (csock : ℤ) (pos : 0 < csock)
    (c : Connection) :
    Replies buffer [quitSession csock pos] c (sends quitOnes c.results) := by
  refine (leads_quitSession buffer csock pos c).settles ?_
  rintro s ⟨hacc, hpc, hbuffer, hexit, hsent⟩
  rw [← hbuffer]
  exact settles_arrived hacc (by rw [hpc]; decide) hexit (by rw [hsent]; rfl)

/-- What is sent in a session is decided by its own receive results exactly if the first of them
fills the buffer or begins with `quit` and its NUL. -/
theorem sameReplies_iff (cs : List Chunk) : SameReplies cs ↔ FirstDecides cs := by
  constructor
  · intro h
    by_contra hfirst
    refine sends_ne hfirst ?_
    have hne : ∀ e ∈ [] ++ [quitSession 4 (by decide)], e.csock ≠ 5 := by
      intro e he
      rw [List.mem_singleton.mp he]
      decide
    obtain ⟨bufs, hnil, hquit⟩ := h (.const bufSize 2) [] [quitSession 4 (by decide)]
      ⟨5, by decide, 0, cs⟩ rfl hne (arrives_nil _ _) (arrives_quitSession _ _ _ _)
    have h1 := (replies_nil (.const bufSize 2) ⟨5, by decide, 0, cs⟩).mono fun _ ht => ht.2
    have h2 := (replies_quitSession (.const bufSize 2) 4 (by decide) ⟨5, by decide, 0, cs⟩).mono
      fun _ ht => ht.2
    exact (h1.unique (hnil.mono fun _ ht => ht.2)).trans
      ((hquit.mono fun _ ht => ht.2).unique h2)
  · intro hfirst buffer hist hist' c hcs hne harr harr'
    obtain ⟨b, hb⟩ := replies_of_arrives (fun e he => hne e (List.mem_append_left _ he)) harr
    obtain ⟨b', hb'⟩ := replies_of_arrives (fun e he => hne e (List.mem_append_right _ he)) harr'
    rw [hcs, sends_eq hfirst b b'] at hb
    rw [hcs] at hb'
    exact ⟨_, hb, hb'⟩

end Fssn.Tcp.SocketServer
