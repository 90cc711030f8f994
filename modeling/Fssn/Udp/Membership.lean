import Fssn.Udp.ChatServer

/-!
# Fssn.Udp.Membership — who is in `group_queue` when clients send whole frames

A `ClientFrame` is a datagram as the repository's UDP client sends it: all 1024 bytes of a buffer that
holds a NUL-terminated text.  A whole frame replaces the server's buffer, so the operation a datagram
selects is a function of its text (`opOf_text`), and `group_queue` follows the texts alone.

* `group_queue_law`: distinct ports, presence by the latest command of the port, order of arrival.
* `membership_by_port`: an address's membership depends only on the commands from its port.  The
  server compares ports and not addresses, so two hosts with one port do disturb each other
  (`membership_not_by_address`).
-/

namespace Fssn.Udp

open Fssn.Lib Registry

/-- A whole frame with its sender. -/
structure ClientFrame where
  client_addr : SockaddrIn
  frame : TextFrame

namespace ClientFrame

abbrev text (c : ClientFrame) : Bytes := c.frame.text

def toDatagram (c : ClientFrame) : Datagram := ⟨c.client_addr, c.frame.bytes⟩

abbrev port (c : ClientFrame) : UInt16 := c.client_addr.sin_port

/-- The text is one of the three commands. -/
def IsCommand (c : ClientFrame) : Prop :=
  c.text = ascii "#REG" ∨ c.text = ascii "#DEREG" ∨ c.text = ascii "quit"

instance (c : ClientFrame) : Decidable c.IsCommand := inferInstanceAs (Decidable (_ ∨ _ ∨ _))

/-- The registry operation of a frame, with its sender. -/
def event (c : ClientFrame) : Op × SockaddrIn := (opOf c.frame.bytes, c.client_addr)

end ClientFrame

/-- The latest command from port `p` is `#REG`. -/
def Registered (cs : List ClientFrame) (p : UInt16) : Prop :=
  (cs.filter fun c => c.port = p ∧ c.IsCommand).getLast?.map ClientFrame.text = some (ascii "#REG")

instance (cs : List ClientFrame) (p : UInt16) : Decidable (Registered cs p) :=
  inferInstanceAs (Decidable (_ = _))

/-- Frame `j` is the `#REG` from `a` at which `a`'s port last went from absent to present. -/
def LastRegistration (cs : List ClientFrame) (j : ℕ) (a : SockaddrIn) : Prop :=
  (∃ c, cs[j]? = some c ∧ c.text = ascii "#REG" ∧ c.client_addr = a) ∧
    ¬ Registered (cs.take j) a.sin_port ∧
    ∀ m, j < m → m ≤ cs.length → Registered (cs.take m) a.sin_port

/-! ### From texts to registry operations -/

section Texts

variable (c : ClientFrame) (cs : List ClientFrame)

theorem opOf_text : opOf c.frame.bytes =
    if c.text = ascii "#REG" then .join
    else if c.text = ascii "#DEREG" ∨ c.text = ascii "quit" then .leave else .other :=
  opOf_cText c.frame.nul

theorem opOf_eq_join_text : opOf c.frame.bytes = .join ↔ c.text = ascii "#REG" := by
  rw [opOf_text]
  split_ifs <;> simp [*]

theorem opOf_ne_other : opOf c.frame.bytes ≠ .other ↔ c.IsCommand := by
  rw [opOf_text, ClientFrame.IsCommand]
  split_ifs with h1 h2
  · exact iff_of_true (by simp) (Or.inl h1)
  · exact iff_of_true (by simp) (Or.inr h2)
  · exact iff_of_false (by simp) (fun h => h.elim h1 h2)

variable {c cs}

theorem commandsOf_map_event (p : UInt16) :
    commandsOf SockaddrIn.sin_port p (cs.map ClientFrame.event) =
      (cs.filter fun c => c.port = p ∧ c.IsCommand).map ClientFrame.event := by
  rw [commandsOf, List.filter_map]
  congr 1
  refine List.filter_congr fun c _ => ?_
  rw [Function.comp_apply, decide_eq_decide]
  exact and_congr_right fun _ => opOf_ne_other c

theorem registered_iff_member (p : UInt16) :
    Registered cs p ↔ Member SockaddrIn.sin_port (cs.map ClientFrame.event) p := by
  rw [Registered, Member, commandsOf_map_event, List.getLast?_map, Option.map_map]
  cases (cs.filter fun c => c.port = p ∧ c.IsCommand).getLast? with
  | none => simp
  | some c =>
    rw [Option.map_some, Option.map_some, Option.some.injEq, Option.some.injEq]
    exact (opOf_eq_join_text c).symm

theorem lastRegistration_iff (j : ℕ) (a : SockaddrIn) : LastRegistration cs j a ↔
    LastJoin SockaddrIn.sin_port (cs.map ClientFrame.event) j a := by
  unfold LastRegistration LastJoin
  simp only [registered_iff_member, List.map_take, List.length_map, List.getElem?_map,
    Option.map_eq_some_iff]
  refine and_congr_left fun _ => exists_congr fun c => and_congr_right fun _ => ?_
  rw [ClientFrame.event, Prod.mk.injEq, opOf_eq_join_text]

/-- A whole frame leaves nothing of the older bytes, so the operations do not depend on them. -/
theorem events_frames (b : Buffer bufSize) :
    events b (cs.map ClientFrame.toDatagram) = cs.map ClientFrame.event := by
  induction cs generalizing b with
  | nil => rfl
  | cons c cs ih =>
    rw [List.map_cons, events, ih, List.map_cons]
    show (opOf (b.fill c.frame.bytes).bytes, _) :: _ = _
    rw [Buffer.fill_frame]
    rfl

end Texts

/-! ### The law of `group_queue` -/

/-- The registry after a run over whole frames. -/
theorem serve_frames (junk : Buffer bufSize) (cs : List ClientFrame) :
    ∃ w, serve junk (cs.map ClientFrame.toDatagram) = some w ∧
      w.server.elems = run SockaddrIn.sin_port (cs.map ClientFrame.event) := by
  obtain ⟨w, hw, helems, -⟩ := chat_refines junk (cs.map ClientFrame.toDatagram)
  exact ⟨w, hw, by rw [helems, events_frames]⟩

section Law

variable {junk : Buffer bufSize} {cs : List ClientFrame} {w : World}
  (h : serve junk (cs.map ClientFrame.toDatagram) = some w)

include h

theorem elems_eq_run : w.server.elems = run SockaddrIn.sin_port (cs.map ClientFrame.event) := by
  obtain ⟨v, hv, helems⟩ := serve_frames junk cs
  obtain rfl := Option.some.inj (h.symm.trans hv)
  exact helems

theorem nodup_ports : (w.server.elems.map SockaddrIn.sin_port).Nodup := by
  rw [elems_eq_run h]
  exact nodup_run _

theorem mem_ports_iff (p : UInt16) :
    p ∈ w.server.elems.map SockaddrIn.sin_port ↔ Registered cs p := by
  rw [elems_eq_run h, mem_run_iff, registered_iff_member]

theorem exists_arrivals : ∃ L : List (ℕ × SockaddrIn), (L.Pairwise fun x y => x.1 < y.1) ∧
    (∀ j a, (j, a) ∈ L ↔ LastRegistration cs j a) ∧ w.server.elems = L.map Prod.snd := by
  obtain ⟨L, ⟨hsorted, hmem⟩, hrun⟩ : ∃ L, Arrivals SockaddrIn.sin_port (cs.map ClientFrame.event) L ∧
      run SockaddrIn.sin_port (cs.map ClientFrame.event) = L.map Prod.snd := run_order _
  refine ⟨L, hsorted, fun j a => ?_, by rw [elems_eq_run h, hrun]⟩
  rw [hmem, lastRegistration_iff]

end Law

/-- **Membership, uniqueness and order** after every sequence of whole frames. -/
theorem group_queue_law (junk : Buffer bufSize) (cs : List ClientFrame) :
    ∃ w, serve junk (cs.map ClientFrame.toDatagram) = some w ∧
      (w.server.elems.map SockaddrIn.sin_port).Nodup ∧
      (∀ p, p ∈ w.server.elems.map SockaddrIn.sin_port ↔ Registered cs p) ∧
      ∃ L : List (ℕ × SockaddrIn), (L.Pairwise fun x y => x.1 < y.1) ∧
        (∀ j a, (j, a) ∈ L ↔ LastRegistration cs j a) ∧ w.server.elems = L.map Prod.snd := by
  obtain ⟨w, hw, -⟩ := serve_frames junk cs
  exact ⟨w, hw, nodup_ports hw, mem_ports_iff hw, exists_arrivals hw⟩

/-! ### One port at a time -/

/-- The commands received from port `p`. -/
def commandsFrom (p : UInt16) (cs : List ClientFrame) : List ClientFrame :=
  cs.filter fun c => c.port = p ∧ c.IsCommand

/-- Two histories with the same commands from a port agree on the addresses with that port. -/
theorem mem_run_congr {cs ds : List ClientFrame} {a : SockaddrIn}
    (h : commandsFrom a.sin_port cs = commandsFrom a.sin_port ds) :
    a ∈ run SockaddrIn.sin_port (cs.map ClientFrame.event) ↔
      a ∈ run SockaddrIn.sin_port (ds.map ClientFrame.event) := by
  have hfilter : ∀ es : List ClientFrame, a ∈ run SockaddrIn.sin_port (es.map ClientFrame.event) ↔
      a ∈ run SockaddrIn.sin_port ((commandsFrom a.sin_port es).map ClientFrame.event) := by
    intro es
    have hrun := filter_run SockaddrIn.sin_port (es.map ClientFrame.event) a.sin_port
    rw [commandsOf_map_event] at hrun
    have hmem : ∀ l : List SockaddrIn, a ∈ l ↔ a ∈ l.filter fun b => b.sin_port = a.sin_port := by
      intro l
      rw [List.mem_filter]
      simp
    rw [hmem, hrun, ← hmem]
    rfl
  rw [hfilter cs, hfilter ds, h]

/-- **Membership goes by port.**  Whether the address `a` is an entry depends only on the commands
received from `a`'s port; a frame from another port changes nothing for `a`, wherever it arrives; and
a frame from a port that never sent `#REG` is sent to nobody. -/
theorem membership_by_port (junk : Buffer bufSize) (cs : List ClientFrame) (a : SockaddrIn) :
    (∃ w v, serve junk (cs.map ClientFrame.toDatagram) = some w ∧
      serve junk ((commandsFrom a.sin_port cs).map ClientFrame.toDatagram) = some v ∧
      (a ∈ w.server.elems ↔ a ∈ v.server.elems)) ∧
    (∀ (b : ClientFrame) (ds : List ClientFrame), b.port ≠ a.sin_port →
      ∃ w v, serve junk ((cs ++ b :: ds).map ClientFrame.toDatagram) = some w ∧
        serve junk ((cs ++ ds).map ClientFrame.toDatagram) = some v ∧
        (a ∈ w.server.elems ↔ a ∈ v.server.elems)) ∧
    (∀ m : ClientFrame, (∀ c ∈ cs, c.port = m.port → c.text ≠ ascii "#REG") →
      ∃ w v, serve junk (cs.map ClientFrame.toDatagram) = some w ∧
        serve junk ((cs ++ [m]).map ClientFrame.toDatagram) = some v ∧ v.sent = w.sent) := by
  refine ⟨?_, ?_, ?_⟩
  · obtain ⟨w, hw, hwe⟩ := serve_frames junk cs
    obtain ⟨v, hv, hve⟩ := serve_frames junk (commandsFrom a.sin_port cs)
    refine ⟨w, v, hw, hv, ?_⟩
    rw [hwe, hve]
    refine mem_run_congr ?_
    rw [commandsFrom, commandsFrom, List.filter_filter]
    exact List.filter_congr fun c _ => by rw [Bool.and_self]
  · intro b ds hb
    obtain ⟨w, hw, hwe⟩ := serve_frames junk (cs ++ b :: ds)
    obtain ⟨v, hv, hve⟩ := serve_frames junk (cs ++ ds)
    refine ⟨w, v, hw, hv, ?_⟩
    rw [hwe, hve]
    refine mem_run_congr ?_
    rw [commandsFrom, commandsFrom, List.filter_append, List.filter_append,
      List.filter_cons_of_neg (by simpa using fun h => absurd h hb)]
  · intro m hno
    obtain ⟨w, hw, -⟩ := serve_frames junk cs
    have hnot : ¬ Registered cs m.port := by
      intro h
      obtain ⟨c, hc, hct⟩ := Option.map_eq_some_iff.mp h
      have hmem := List.mem_filter.mp (List.mem_of_getLast? hc)
      rw [decide_eq_true_iff] at hmem
      exact hno c hmem.1 hmem.2.1 hct
    rw [← mem_ports_iff hw] at hnot
    obtain ⟨it, hit, -, -, hsends⟩ := iteration_spec (nodup_ports hw) m.toDatagram
    refine ⟨w, ⟨it.server, w.sent ++ it.sends⟩, hw, ?_, ?_⟩
    · rw [List.map_append]
      exact serve_concat hw hit
    · show w.sent ++ it.sends = w.sent
      rw [hsends, sendsOf, if_neg (fun h => hnot h.2), List.append_nil]

/-- Two hosts that use one port number. -/
def hostA : SockaddrIn := ⟨0x0100000A, 5000⟩
def hostB : SockaddrIn := ⟨0x0200000A, 5000⟩

/-- Membership does not go by address: a `#REG` from another host with the same port keeps `hostA`
out. -/
theorem membership_not_by_address : ¬ ∀ (junk : Buffer bufSize) (cs : List ClientFrame)
    (a : SockaddrIn) (w v : World), serve junk (cs.map ClientFrame.toDatagram) = some w →
    serve junk ((cs.filter fun c => c.client_addr = a).map ClientFrame.toDatagram) = some v →
    (a ∈ w.server.elems ↔ a ∈ v.server.elems) := by
  intro h
  let reg : SockaddrIn → ClientFrame := fun a => ⟨a, .ofText (ascii "#REG") (by decide)⟩
  obtain ⟨w, hw, hwe⟩ := serve_frames (.const bufSize 0) [reg hostB, reg hostA]
  obtain ⟨v, hv, hve⟩ := serve_frames (.const bufSize 0) [reg hostA]
  have hreg : ∀ a, (reg a).event = (.join, a) := by
    intro a
    rfl
  have key := h _ _ hostA w v hw hv
  rw [hwe, hve, List.map_cons, List.map_cons, hreg, hreg] at key
  exact absurd key (by decide)

end Fssn.Udp
