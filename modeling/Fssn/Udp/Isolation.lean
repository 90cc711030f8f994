import Fssn.Udp.ChatServer

/-!
# Fssn.Udp.Isolation — which datagrams the UDP chat server handles by themselves

`recvfrom` writes a payload over the front of the one buffer and the server drops the received
length, so a short payload is read, and relayed, with the bytes of earlier datagrams behind it.  Two
histories that leave the same registry may leave different buffers.

`Isolated q d`: with the registry `q`, the datagram `d` has the same outcome after every history.
`isolated_iff` says for which datagrams that is so (`InputDecides`).
-/

namespace Fssn.Udp

open Fssn.Lib Registry

def commandTexts : List Bytes := [ascii "#REG", ascii "#DEREG", ascii "quit"]

/-- The same datagram in two worlds: the same new registry and the same sends with the same bytes. -/
def SameOutcome (w v : World) (d : Datagram) : Prop :=
  ∃ it jt, iteration w.server d = some it ∧ iteration v.server d = some jt ∧
    it.server.elems = jt.server.elems ∧ it.sends = jt.sends

/-- After any two histories that leave the registry `q`, the datagram `d` has one outcome. -/
def Isolated (q : List SockaddrIn) (d : Datagram) : Prop :=
  ∀ junk ds es w v, serve junk ds = some w → serve junk es = some v →
    w.server.elems = q → v.server.elems = q → SameOutcome w v d

/-- The payload fills the buffer, or it begins with a whole command and its NUL, or its sender is
unregistered and older bytes cannot complete it to a `#REG`. -/
def InputDecides (q : List SockaddrIn) (d : Datagram) : Prop :=
  d.payload.length = bufSize ∨ (∃ t ∈ commandTexts, t ++ [0] <+: d.payload) ∨
    (d.client_addr.sin_port ∉ q.map SockaddrIn.sin_port ∧ ¬ d.payload <+: ascii "#REG")

instance (q : List SockaddrIn) (d : Datagram) : Decidable (InputDecides q d) :=
  inferInstanceAs (Decidable (_ ∨ _ ∨ _))

/-! ### Commands at the front of the buffer -/

section Front

variable {p r t mem : Bytes}

theorem nul_not_mem_of_mem_commandTexts (ht : t ∈ commandTexts) : (0 : UInt8) ∉ t := by
  revert t
  decide

/-- A command that stands whole in the payload is read from it. -/
theorem cText_of_prefix (ht : 0 ∉ t) (h : t ++ [0] <+: mem) : cText mem = t := by
  obtain ⟨s, rfl⟩ := h
  rw [List.append_assoc]
  exact cText_append_nul ht s

theorem opOf_ne_other_iff : opOf mem ≠ .other ↔ ∃ t ∈ commandTexts, t ++ [0] <+: mem := by
  unfold opOf commandTexts
  simp only [List.mem_cons, List.not_mem_nil, or_false, exists_eq_or_imp, exists_eq_left,
    Bool.or_eq_true, strcmpEq_iff]
  split_ifs <;> simp [*]

end Front

/-! ### The outcome as a function of registry and buffer -/

theorem sameOutcome_iff {q : List SockaddrIn} (hnd : (q.map SockaddrIn.sin_port).Nodup)
    {w v : World} (hwq : w.server.elems = q) (hvq : v.server.elems = q) (d : Datagram) :
    SameOutcome w v d ↔
      apply SockaddrIn.sin_port q (opOf (w.server.buffer.fill d.payload).bytes, d.client_addr) =
        apply SockaddrIn.sin_port q (opOf (v.server.buffer.fill d.payload).bytes, d.client_addr) ∧
      sendsOf q (opOf (w.server.buffer.fill d.payload).bytes) d.client_addr
          (w.server.buffer.fill d.payload) =
        sendsOf q (opOf (v.server.buffer.fill d.payload).bytes) d.client_addr
          (v.server.buffer.fill d.payload) := by
  subst hwq
  obtain ⟨it, hit, -, helems, hsends⟩ := iteration_spec hnd d
  obtain ⟨jt, hjt, -, helems', hsends'⟩ := iteration_spec (hvq.symm ▸ hnd) d
  rw [hvq] at helems' hsends'
  rw [← helems, ← helems', ← hsends, ← hsends']
  constructor
  · rintro ⟨it', jt', h1, h2, h3⟩
    obtain rfl := Option.some.inj (h1.symm.trans hit)
    obtain rfl := Option.some.inj (h2.symm.trans hjt)
    exact h3
  · intro h
    exact ⟨it, jt, hit, hjt, h⟩

/-- The operation of a datagram that begins with a whole command does not depend on the buffer. -/
theorem opOf_fill_eq {b c : Buffer bufSize} {p : Bytes} (hp : p.length ≤ bufSize)
    (h : ∃ t ∈ commandTexts, t ++ [0] <+: p) :
    opOf (b.fill p).bytes = opOf (c.fill p).bytes ∧ opOf (b.fill p).bytes ≠ .other := by
  obtain ⟨t, ht, htp⟩ := h
  have hnul := nul_not_mem_of_mem_commandTexts ht
  have hb := htp.trans (Buffer.prefix_fill (b := b) hp)
  have hc := htp.trans (Buffer.prefix_fill (b := c) hp)
  refine ⟨?_, opOf_ne_other_iff.mpr ⟨t, ht, hb⟩⟩
  rw [opOf_cText (hb.subset (by simp)), opOf_cText (hc.subset (by simp)), cText_of_prefix hnul hb,
    cText_of_prefix hnul hc]

/-- Bytes behind a payload that is no start of `#REG` do not make it a `#REG`. -/
theorem opOf_fill_join {b : Buffer bufSize} {p : Bytes} (hp : p.length ≤ bufSize)
    (h : ¬ p <+: ascii "#REG") :
    opOf (b.fill p).bytes = .join ↔ ascii "#REG" ++ [0] <+: p := by
  rw [opOf_eq_join]
  constructor
  · intro hpre
    rcases List.prefix_or_prefix_of_prefix hpre (Buffer.prefix_fill (b := b) hp) with h1 | h1
    · exact h1
    · rcases List.prefix_concat_iff.mp h1 with h2 | h2
      · rw [h2]
      · exact absurd h2 h
  · intro hpre
    exact hpre.trans (Buffer.prefix_fill hp)

/-- The condition is enough. -/
theorem isolated_of_inputDecides {q : List SockaddrIn} {d : Datagram}
    (hq : (q.map SockaddrIn.sin_port).Nodup) (hd : d.payload.length ≤ bufSize)
    (h : InputDecides q d) : Isolated q d := by
  intro _ _ _ w v _ _ hwq hvq
  rw [sameOutcome_iff hq hwq hvq]
  rcases h with hfull | hcmd | ⟨hport, hno⟩
  · have heq : w.server.buffer.fill d.payload = v.server.buffer.fill d.payload :=
      Buffer.ext ((Buffer.fill_full hfull).trans (Buffer.fill_full hfull).symm)
    rw [heq]
    exact ⟨rfl, rfl⟩
  · obtain ⟨hop, hne⟩ := opOf_fill_eq (b := w.server.buffer) (c := v.server.buffer) hd hcmd
    rw [sendsOf, sendsOf, if_neg (fun h => hne h.1), if_neg (fun h => hne (hop.trans h.1)), hop]
    exact ⟨rfl, rfl⟩
  · -- an unregistered sender: only a `#REG` has an effect
    have hkeep : ∀ op : Op, op ≠ .join →
        apply SockaddrIn.sin_port q (op, d.client_addr) = q := by
      intro op hop
      cases op with
      | join => exact absurd rfl hop
      | leave =>
        rw [apply_leave, List.filter_eq_self.mpr]
        intro e he
        rw [decide_eq_true_iff]
        exact fun hep => hport (List.mem_map.mpr ⟨e, he, hep⟩)
      | other => rfl
    refine ⟨?_, ?_⟩
    · by_cases hreg : ascii "#REG" ++ [0] <+: d.payload
      · rw [(opOf_fill_join hd hno).mpr hreg, (opOf_fill_join hd hno).mpr hreg]
      · rw [hkeep _ fun h => hreg ((opOf_fill_join hd hno).mp h),
          hkeep _ fun h => hreg ((opOf_fill_join hd hno).mp h)]
    · rw [sendsOf, sendsOf, if_neg (fun h => hport h.2), if_neg (fun h => hport h.2)]

/-! ### Histories that leave chosen bytes behind -/

/-- `#REG` in a buffer of NULs. -/
def regFrame : Buffer bufSize := (Buffer.const bufSize 0).fill (ascii "#REG")

theorem opOf_regFrame : opOf regFrame.bytes = .join := by
  rw [opOf_eq_join, regFrame, Buffer.fill_bytes (by decide)]
  exact ⟨List.replicate 1019 0, rfl⟩

theorem bufferAfter_frames (b : Buffer bufSize) (q : List SockaddrIn) :
    bufferAfter b (q.map fun a => ⟨a, b.bytes⟩) = b := by
  induction q with
  | nil => rfl
  | cons a q ih =>
    rw [List.map_cons, bufferAfter, List.foldl_cons, Buffer.fill_frame]
    exact ih

theorem events_regFrames (q : List SockaddrIn) :
    events regFrame (q.map fun a => ⟨a, regFrame.bytes⟩) = q.map fun a => (.join, a) := by
  induction q with
  | nil => rfl
  | cons a q ih =>
    rw [List.map_cons, events]
    dsimp only
    rw [Buffer.fill_frame, ih, opOf_regFrame]
    rfl

/-- Every registry with distinct ports is left by a history whose last bytes are a `#REG` frame, and
then by one whose last bytes are any message frame. -/
theorem exists_history {q : List SockaddrIn} (hq : (q.map SockaddrIn.sin_port).Nodup) :
    (∃ ds w, serve regFrame ds = some w ∧ w.server.elems = q ∧ w.server.buffer = regFrame) ∧
    ∀ m : Buffer bufSize, opOf m.bytes = .other →
      ∃ ds w, serve regFrame ds = some w ∧ w.server.elems = q ∧ w.server.buffer = m := by
  let regs : List Datagram := q.map fun a => ⟨a, regFrame.bytes⟩
  have hrun : run SockaddrIn.sin_port (events regFrame regs) = q := by
    rw [events_regFrames, run_joins hq]
  refine ⟨?_, fun m hm => ?_⟩
  · obtain ⟨w, hw, helems, hbuf⟩ := chat_refines regFrame regs
    exact ⟨regs, w, hw, by rw [helems, hrun], by rw [hbuf, bufferAfter_frames]⟩
  · obtain ⟨w, hw, helems, hbuf⟩ := chat_refines regFrame (regs ++ [⟨⟨0, 0⟩, m.bytes⟩])
    rw [events_concat, run_concat, hrun, Buffer.fill_frame, hm] at helems
    rw [bufferAfter_concat, Buffer.fill_frame] at hbuf
    exact ⟨_, w, hw, helems, hbuf⟩

theorem opOf_const {x : UInt8} (hx : x ≠ 0) : opOf (Buffer.const bufSize x).bytes = .other := by
  by_contra h
  obtain ⟨t, -, ht⟩ := opOf_ne_other_iff.mp h
  have hmem : (0 : UInt8) ∈ (Buffer.const bufSize x).bytes := ht.subset (by simp)
  exact hx (List.eq_of_mem_replicate hmem).symm

/-- Over a buffer without NULs, a short payload that holds no whole command is a message. -/
theorem opOf_fill_const {p : Bytes} (hp : p.length ≤ bufSize)
    (h : ¬ ∃ t ∈ commandTexts, t ++ [0] <+: p) {x : UInt8} (hx : x ≠ 0) :
    opOf ((Buffer.const bufSize x).fill p).bytes = .other := by
  by_contra hop
  obtain ⟨t, ht, hpre⟩ := opOf_ne_other_iff.mp hop
  rw [Buffer.fill_bytes hp] at hpre
  refine h ⟨t, ht, prefix_of_prefix_append (fun h0 => ?_) hpre⟩
  exact hx (List.eq_of_mem_replicate (List.mem_of_mem_drop h0)).symm

/-- The condition is needed: otherwise two histories with the same registry differ in the outcome. -/
theorem not_isolated {q : List SockaddrIn} {d : Datagram} (hq : (q.map SockaddrIn.sin_port).Nodup)
    (hd : d.payload.length ≤ bufSize) (h : ¬ InputDecides q d) : ¬ Isolated q d := by
  unfold InputDecides at h
  rw [not_or, not_or] at h
  obtain ⟨hshort, hcmd, hsender⟩ := h
  intro hiso
  obtain ⟨hregs, hmsgs⟩ := exists_history hq
  obtain ⟨es, v, hv, hvq, hvb⟩ := hmsgs (.const bufSize 1) (opOf_const (by decide))
  have hop := opOf_fill_const hd hcmd (x := 1) (by decide)
  by_cases hport : d.client_addr.sin_port ∈ q.map SockaddrIn.sin_port
  · -- a registered sender: the leftover bytes are relayed
    obtain ⟨ds, w, hw, hwq, hwb⟩ := hmsgs (.const bufSize 2) (opOf_const (by decide))
    have hop2 := opOf_fill_const hd hcmd (x := 2) (by decide)
    have hsends := ((sameOutcome_iff hq hwq hvq d).mp (hiso _ ds es w v hw hv hwq hvq)).2
    rw [hwb, hvb, hop, hop2, sendsOf, sendsOf, if_pos ⟨rfl, hport⟩, if_pos ⟨rfl, hport⟩] at hsends
    obtain ⟨e, he, -⟩ := List.mem_map.mp hport
    have hpair := List.map_inj_left.mp hsends e he
    have hlt : d.payload.length < bufSize := lt_of_le_of_ne hd hshort
    exact Buffer.fill_const_ne (by decide) hlt (Prod.mk.inj hpair).2
  · -- an unregistered sender: the leftover bytes complete the payload to a `#REG`
    have hpre : d.payload <+: ascii "#REG" := by
      by_contra hno
      exact hsender ⟨hport, hno⟩
    obtain ⟨ds, w, hw, hwq, hwb⟩ := hregs
    have hjoin : opOf (regFrame.fill d.payload).bytes = .join := by
      have hself : regFrame.fill d.payload = regFrame := by
        obtain ⟨s, hs⟩ := hpre
        refine Buffer.ext ?_
        rw [Buffer.fill_bytes hd, regFrame, Buffer.fill_bytes (by decide), ← hs, List.append_assoc,
          List.drop_left]
      rw [hself, opOf_regFrame]
    have helems := ((sameOutcome_iff hq hwq hvq d).mp (hiso _ ds es w v hw hv hwq hvq)).1
    rw [hwb, hvb, hop, hjoin, apply_join_new hport, apply_other] at helems
    simp at helems

/-- **Input isolation**, exactly: for a registry the server can have and a payload of at most 1024
bytes, the outcome is the same after all histories if and only if `InputDecides`. -/
theorem isolated_iff (q : List SockaddrIn) (d : Datagram) (hq : (q.map SockaddrIn.sin_port).Nodup)
    (hd : d.payload.length ≤ bufSize) : Isolated q d ↔ InputDecides q d := by
  constructor
  · intro h
    by_contra hno
    exact not_isolated hq hd hno h
  · exact isolated_of_inputDecides hq hd

/-- One registered client. -/
def soloClient : SockaddrIn := ⟨0x0100007F, 5000⟩

/-- The three bytes `hi\0` from the registered client: what is relayed behind them is what an earlier
datagram left. -/
def shortHi : Datagram := ⟨soloClient, ascii "hi" ++ [0]⟩

theorem isolated_iff_shortHi : Isolated [soloClient] shortHi ↔ InputDecides [soloClient] shortHi :=
  isolated_iff [soloClient] shortHi (by decide) (by decide)

/-- A registered client's short datagram is not handled by itself. -/
theorem not_always_isolated : ¬ ∀ (q : List SockaddrIn) (d : Datagram),
    (q.map SockaddrIn.sin_port).Nodup → d.payload.length ≤ bufSize → Isolated q d := by
  intro h
  have hno : ¬ InputDecides [soloClient] shortHi := by decide
  exact not_isolated (by decide) (by decide) hno (h [soloClient] shortHi (by decide) (by decide))

end Fssn.Udp
