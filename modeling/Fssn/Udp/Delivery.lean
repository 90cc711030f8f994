import Fssn.Udp.Membership
import Mathlib.Data.List.Forall2

/-!
# Fssn.Udp.Delivery — what the UDP chat server sends, against what it received

A frame is relayed to a port (`Relayed`) when it is no command and both its sender's port and that
port are registered at its arrival.  `delivery`: over a whole run, the sends to a port are exactly the
relayed frames, one each, unaltered, in arrival order, to the address registered for the port then.
-/

namespace Fssn.Udp

open Fssn.Lib Registry

/-- Every frame of a history together with the frames received before it. -/
def withPast (past : List ClientFrame) : List ClientFrame → List (List ClientFrame × ClientFrame)
  | [] => []
  | c :: cs => (past, c) :: withPast (past ++ [c]) cs

/-- Frame `c`, received after `past`, is a message that goes to port `p`. -/
def Relayed (p : UInt16) (past : List ClientFrame) (c : ClientFrame) : Prop :=
  ¬ c.IsCommand ∧ Registered past c.port ∧ Registered past p

instance (p : UInt16) (past : List ClientFrame) (c : ClientFrame) : Decidable (Relayed p past c) :=
  inferInstanceAs (Decidable (_ ∧ _ ∧ _))

/-- `a` is the address that last registered its port, and the port still is registered. -/
def RegisteredAs (past : List ClientFrame) (a : SockaddrIn) : Prop :=
  ∃ j, LastRegistration past j a

theorem withPast_concat (past cs : List ClientFrame) (c : ClientFrame) :
    withPast past (cs ++ [c]) = withPast past cs ++ [(past ++ cs, c)] := by
  induction cs generalizing past with
  | nil => rw [List.append_nil]; rfl
  | cons d cs ih =>
    rw [List.cons_append, withPast, ih, List.append_assoc]
    rfl

theorem mem_group_queue_iff {junk : Buffer bufSize} {cs : List ClientFrame} {w : World}
    (h : serve junk (cs.map ClientFrame.toDatagram) = some w) (a : SockaddrIn) :
    a ∈ w.server.elems ↔ RegisteredAs cs a := by
  obtain ⟨L, -, hmem, helems⟩ := exists_arrivals h
  rw [helems, List.mem_map]
  constructor
  · rintro ⟨⟨j, b⟩, hb, rfl⟩
    exact ⟨j, (hmem j b).mp hb⟩
  · rintro ⟨j, hj⟩
    exact ⟨(j, a), (hmem j a).mpr hj, rfl⟩

/-- A registered port has one entry, and it is the address registered for it. -/
theorem filter_port_eq {junk : Buffer bufSize} {cs : List ClientFrame} {w : World}
    (h : serve junk (cs.map ClientFrame.toDatagram) = some w) {p : UInt16} (hp : Registered cs p) :
    ∃ a, w.server.elems.filter (fun e => e.sin_port = p) = [a] ∧ a.sin_port = p ∧
      RegisteredAs cs a := by
  obtain ⟨a, ha, hap⟩ := List.mem_map.mp ((mem_ports_iff h p).mpr hp)
  have hfilter := filter_eq_entry (nodup_ports h) p
  have hmem : a ∈ w.server.elems.filter fun e => e.sin_port = p :=
    List.mem_filter.mpr ⟨ha, by simpa using hap⟩
  cases he : entry SockaddrIn.sin_port w.server.elems p with
  | none =>
    rw [hfilter, he] at hmem
    simp at hmem
  | some b =>
    rw [hfilter, he] at hmem
    obtain rfl : a = b := by simpa using hmem
    exact ⟨a, by rw [hfilter, he]; rfl, hap, (mem_group_queue_iff h a).mp ha⟩

/-- One more frame: what it adds to the sends. -/
theorem serve_frame {junk : Buffer bufSize} {cs : List ClientFrame} {w : World}
    (h : serve junk (cs.map ClientFrame.toDatagram) = some w) (c : ClientFrame) :
    ∃ v, serve junk ((cs ++ [c]).map ClientFrame.toDatagram) = some v ∧
      v.server.elems = apply SockaddrIn.sin_port w.server.elems c.event ∧
      v.sent = w.sent ++ if ¬ c.IsCommand ∧ Registered cs c.port then
        w.server.elems.map fun e => (e, c.frame.toBuffer) else [] := by
  obtain ⟨it, hit, -, helems, hsends⟩ := iteration_spec (nodup_ports h) c.toDatagram
  have hfill : w.server.buffer.fill c.toDatagram.payload = c.frame.toBuffer := Buffer.fill_frame _ _
  rw [hfill] at helems hsends
  refine ⟨⟨it.server, w.sent ++ it.sends⟩, ?_, helems, ?_⟩
  · rw [List.map_append]
    exact serve_concat h hit
  · have hiff : opOf c.frame.bytes = .other ∧ c.port ∈ w.server.elems.map SockaddrIn.sin_port ↔
        ¬ c.IsCommand ∧ Registered cs c.port := by
      rw [mem_ports_iff h, ← opOf_ne_other, not_not]
    show w.sent ++ it.sends = _
    rw [hsends, sendsOf]
    congr 1
    exact if_congr hiff rfl rfl

/-- The relation between a send and the frame it relays. -/
def Delivers (p : UInt16) (x : SockaddrIn × Buffer bufSize)
    (y : List ClientFrame × ClientFrame) : Prop :=
  x.1.sin_port = p ∧ RegisteredAs y.1 x.1 ∧ x.2 = y.2.frame.toBuffer

/-- One frame: what is sent of it to port `p`. -/
theorem delivers_frame {junk : Buffer bufSize} {cs : List ClientFrame} {w : World}
    (h : serve junk (cs.map ClientFrame.toDatagram) = some w) (c : ClientFrame) (p : UInt16) :
    List.Forall₂ (Delivers p)
      ((if ¬ c.IsCommand ∧ Registered cs c.port then
        w.server.elems.map fun e => (e, c.frame.toBuffer) else []).filter fun x => x.1.sin_port = p)
      (if Relayed p cs c then [(cs, c)] else []) := by
  by_cases hrel : Relayed p cs c
  · -- the frame goes to every entry, and one entry has port `p`
    obtain ⟨a, hfilter, hap, ha⟩ := filter_port_eq h hrel.2.2
    have hone : (w.server.elems.map fun e => (e, c.frame.toBuffer)).filter (fun x => x.1.sin_port = p) =
        [(a, c.frame.toBuffer)] := by
      rw [List.filter_map, Function.comp_def, hfilter]
      rfl
    rw [if_pos ⟨hrel.1, hrel.2.1⟩, hone, if_pos hrel]
    exact List.Forall₂.cons ⟨hap, ha, rfl⟩ List.Forall₂.nil
  · rw [if_neg hrel]
    split_ifs with hsend
    · -- everyone is sent the frame, but no entry has port `p`
      have hno : ¬ Registered cs p := fun hp => hrel ⟨hsend.1, hsend.2, hp⟩
      have hnone : (w.server.elems.map fun e => (e, c.frame.toBuffer)).filter
          (fun x => x.1.sin_port = p) = [] := by
        rw [List.filter_eq_nil_iff]
        intro x hx hxp
        obtain ⟨e, he, rfl⟩ := List.mem_map.mp hx
        exact hno ((mem_ports_iff h p).mp (List.mem_map.mpr ⟨e, he, by simpa using hxp⟩))
      rw [hnone]
      exact List.Forall₂.nil
    · exact List.Forall₂.nil

/-- A whole run: what is sent to port `p`. -/
theorem delivers_run {junk : Buffer bufSize} {cs : List ClientFrame} {w : World}
    (h : serve junk (cs.map ClientFrame.toDatagram) = some w) (p : UInt16) :
    List.Forall₂ (Delivers p) (w.sent.filter fun x => x.1.sin_port = p)
      ((withPast [] cs).filter fun y => Relayed p y.1 y.2) := by
  induction cs using List.reverseRecOn generalizing w with
  | nil =>
    obtain rfl := Option.some.inj h
    exact List.Forall₂.nil
  | append_singleton cs c ih =>
    obtain ⟨u, hu, -⟩ := serve_frames junk cs
    obtain ⟨v, hv, -, hsent⟩ := serve_frame hu c
    obtain rfl := Option.some.inj (h.symm.trans hv)
    have hlast : ([(cs, c)].filter fun y => Relayed p y.1 y.2) =
        if Relayed p cs c then [(cs, c)] else [] := by
      rw [List.filter_singleton]
      simp
    rw [hsent, withPast_concat, List.filter_append, List.filter_append, List.nil_append, hlast]
    exact List.rel_append (ih hu) (delivers_frame hu c p)

/-- A frame from an unregistered port changes `group_queue` only by a `#REG`. -/
theorem apply_unregistered {junk : Buffer bufSize} {cs : List ClientFrame} {w : World}
    (h : serve junk (cs.map ClientFrame.toDatagram) = some w) {c : ClientFrame}
    (hno : ¬ Registered cs c.port) (htext : c.text ≠ ascii "#REG") :
    apply SockaddrIn.sin_port w.server.elems c.event = w.server.elems := by
  rw [ClientFrame.event]
  cases hop : opOf c.frame.bytes with
  | join => exact absurd ((opOf_eq_join_text c).mp hop) htext
  | leave =>
    rw [apply_leave, List.filter_eq_self.mpr]
    intro e he
    rw [decide_eq_true_iff]
    intro hport
    exact hno ((mem_ports_iff h _).mp (List.mem_map.mpr ⟨e, he, hport⟩))
  | other => rfl

/-- **Delivery.**  The sends to port `p` over a whole run are the frames relayed to `p`, each once and
unaltered, in arrival order, to the address registered for `p` at the time.  A command, or a frame
from an unregistered port, adds no send; the latter changes `group_queue` only by a `#REG`. -/
theorem delivery (junk : Buffer bufSize) (cs : List ClientFrame) (p : UInt16) :
    ∃ w, serve junk (cs.map ClientFrame.toDatagram) = some w ∧
      List.Forall₂ (Delivers p) (w.sent.filter fun x => x.1.sin_port = p)
        ((withPast [] cs).filter fun y => Relayed p y.1 y.2) ∧
      ∀ c : ClientFrame, ∃ v, serve junk ((cs ++ [c]).map ClientFrame.toDatagram) = some v ∧
        (c.IsCommand ∨ ¬ Registered cs c.port → v.sent = w.sent) ∧
        (¬ Registered cs c.port → c.text ≠ ascii "#REG" → v.server.elems = w.server.elems) := by
  obtain ⟨w, hw, -⟩ := serve_frames junk cs
  refine ⟨w, hw, delivers_run hw p, fun c => ?_⟩
  obtain ⟨v, hv, helems, hsent⟩ := serve_frame hw c
  refine ⟨v, hv, ?_, fun hno htext => ?_⟩
  · intro h
    rw [hsent, if_neg, List.append_nil]
    rintro ⟨h1, h2⟩
    exact h.elim h1 (fun h3 => h3 h2)
  · rw [helems]
    exact apply_unregistered hw hno htext

end Fssn.Udp
