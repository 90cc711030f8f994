import Fssn.Udp.Isolation

/-!
# Fssn.Udp.Range — which passes of the UDP chat server index group_queue in range

Three of the four loops over `group_queue` leave it as it is while they run.  The deregistration loop
erases under the bound it read before, and goes on to that bound: behind the erase its last access is
one past the end, unless the erase was in its last round.  `scansInRange_iff`: a pass stays in range
exactly if it removes no client or the last one.
-/

namespace Fssn.Udp

open Fssn.Lib Registry StdVector

/-- The pass for the datagram `d`, after the datagrams `ds`, accesses `group_queue` in range only. -/
def ScansInRange (junk : Buffer bufSize) (ds : List Datagram) (d : Datagram) : Prop :=
  ∃ w it, serve junk ds = some w ∧ iteration w.server d = some it ∧ InRange it.accesses

/-- After the datagrams `ds`, the datagram `d` is read as no `#DEREG` or `quit`, or its sender's port
is not registered, or it is the port of the last entry. -/
def RemovesLast (junk : Buffer bufSize) (ds : List Datagram) (d : Datagram) : Prop :=
  ∃ w, serve junk ds = some w ∧
    (opOf (w.server.buffer.fill d.payload).bytes ≠ .leave ∨
      d.client_addr.sin_port ∉ w.server.elems.map SockaddrIn.sin_port ∨
      (w.server.elems.map SockaddrIn.sin_port).getLast? = some d.client_addr.sin_port)

/-! ### The branches -/

section Branches

variable {q : StdVector SockaddrIn} {b : Buffer bufSize} {a : SockaddrIn} {it : Iteration}

theorem registerBranch_inRange (h : registerBranch q b a = some it) : InRange it.accesses := by
  obtain ⟨s, hs, rfl⟩ := Option.map_eq_some_iff.mp h
  split
  · exact findLoop_inRange hs
  · exact findLoop_inRange hs

theorem broadcastBranch_inRange (h : broadcastBranch q b a = some it) : InRange it.accesses := by
  obtain ⟨s, hs, h⟩ := Option.bind_eq_some_iff.mp h
  have hacc := findLoop_inRange hs
  split_ifs at h
  · obtain rfl := Option.some.inj h
    exact hacc
  · obtain ⟨r, hr, rfl⟩ := Option.map_eq_some_iff.mp h
    exact inRange_append hacc (visitLoop_inRange hr)
  · obtain rfl := Option.some.inj h
    exact hacc

/-- Where the sender's entry stands, if it has one. -/
theorem hit_last_iff (hnd : (q.elems.map SockaddrIn.sin_port).Nodup) :
    (∀ (k : ℕ) (e : SockaddrIn), q.elems[k]? = some e → samePort a e = true → k + 1 = q.size) ↔
      a.sin_port ∉ q.elems.map SockaddrIn.sin_port ∨
        (q.elems.map SockaddrIn.sin_port).getLast? = some a.sin_port := by
  have hport : ∀ (k : ℕ), (q.elems.map SockaddrIn.sin_port)[k]? = some a.sin_port ↔
      ∃ e, q.elems[k]? = some e ∧ samePort a e = true := fun k => by
    simp only [List.getElem?_map, Option.map_eq_some_iff, samePort, beq_iff_eq]
  have hlast : (q.elems.map SockaddrIn.sin_port).getLast? =
      (q.elems.map SockaddrIn.sin_port)[q.size - 1]? := by
    rw [List.getLast?_eq_getElem?, List.length_map, length_elems]
  rw [hlast]
  constructor
  · intro hall
    by_cases hmem : a.sin_port ∈ q.elems.map SockaddrIn.sin_port
    · obtain ⟨k, hk⟩ := List.mem_iff_getElem?.mp hmem
      obtain ⟨e, he, hae⟩ := (hport k).mp hk
      have := hall k e he hae
      exact Or.inr (by rwa [← this, Nat.add_sub_cancel])
    · exact Or.inl hmem
  · intro h k e hk hae
    have hkp := (hport k).mpr ⟨e, hk, hae⟩
    have hlt := (List.getElem?_eq_some_iff.mp hkp).1
    rcases h with hno | hl
    · exact absurd (List.mem_of_getElem? hkp) hno
    · have heq : k = q.size - 1 := (List.getElem?_inj hlt hnd).mp (hkp.trans hl.symm)
      rw [List.length_map, length_elems] at hlt
      omega

theorem deregisterBranch_inRange_iff (hnd : (q.elems.map SockaddrIn.sin_port).Nodup)
    (h : deregisterBranch q b a = some it) : InRange it.accesses ↔
      a.sin_port ∉ q.elems.map SockaddrIn.sin_port ∨
        (q.elems.map SockaddrIn.sin_port).getLast? = some a.sin_port := by
  obtain ⟨s, hs, rfl⟩ := Option.map_eq_some_iff.mp h
  rw [← hit_last_iff hnd]
  exact eraseLoop_inRange_iff (atMostOne_samePort hnd a) hs

end Branches

/-- One pass of the loop. -/
theorem iteration_inRange_iff {s : Server} {d : Datagram} {it : Iteration}
    (hnd : (s.elems.map SockaddrIn.sin_port).Nodup) (h : iteration s d = some it) :
    InRange it.accesses ↔ opOf (s.buffer.fill d.payload).bytes ≠ .leave ∨
      d.client_addr.sin_port ∉ s.elems.map SockaddrIn.sin_port ∨
      (s.elems.map SockaddrIn.sin_port).getLast? = some d.client_addr.sin_port := by
  unfold iteration at h
  unfold opOf
  dsimp only at h
  split_ifs at h ⊢ with h1 h2
  · exact iff_of_true (registerBranch_inRange h) (Or.inl (by simp))
  · rw [deregisterBranch_inRange_iff hnd h]
    exact ⟨Or.inr, fun h => h.resolve_left (by simp)⟩
  · exact iff_of_true (broadcastBranch_inRange h) (Or.inl (by simp))

/-- The next pass, and the registry it starts from. -/
theorem exists_pass (junk : Buffer bufSize) (ds : List Datagram) (d : Datagram) :
    ∃ w it, serve junk ds = some w ∧ iteration w.server d = some it ∧
      (w.server.elems.map SockaddrIn.sin_port).Nodup := by
  obtain ⟨w, hw, helems, -⟩ := chat_refines junk ds
  have hnd : (w.server.elems.map SockaddrIn.sin_port).Nodup := by
    rw [helems]
    exact nodup_run _
  obtain ⟨it, hit, -⟩ := iteration_spec hnd d
  exact ⟨w, it, hw, hit, hnd⟩

section Pass

variable {junk : Buffer bufSize} {ds : List Datagram} {d : Datagram}

theorem removesLast_of_scansInRange (h : ScansInRange junk ds d) : RemovesLast junk ds d := by
  obtain ⟨w, it, hw, hit, hin⟩ := h
  obtain ⟨w', it', hw', hit', hnd⟩ := exists_pass junk ds d
  obtain rfl := Option.some.inj (hw.symm.trans hw')
  exact ⟨w, hw, (iteration_inRange_iff hnd hit).mp hin⟩

theorem scansInRange_of_removesLast (h : RemovesLast junk ds d) : ScansInRange junk ds d := by
  obtain ⟨w, hw, hlast⟩ := h
  obtain ⟨w', it, hw', hit, hnd⟩ := exists_pass junk ds d
  obtain rfl := Option.some.inj (hw.symm.trans hw')
  exact ⟨w, it, hw, hit, (iteration_inRange_iff hnd hit).mpr hlast⟩

end Pass

/-- **Scans in range.**  After every sequence of datagrams, the pass for the next one accesses
`group_queue` in range only, exactly if it removes nobody or the last client. -/
theorem scansInRange_iff (junk : Buffer bufSize) (ds : List Datagram) (d : Datagram) :
    ScansInRange junk ds d ↔ RemovesLast junk ds d :=
  ⟨removesLast_of_scansInRange, scansInRange_of_removesLast⟩

def client₁ : SockaddrIn := ⟨0x0100007F, 1⟩
def client₂ : SockaddrIn := ⟨0x0100007F, 2⟩

theorem opOf_quitFrame : opOf quitFrame.bytes = .leave := by
  have htext : cText quitFrame.bytes = ascii "quit" := text_quitFrame
  rw [opOf_cText quitFrame.nul, htext]
  decide

/-- Two clients are registered and the first of them leaves: the loop reads behind the end. -/
theorem not_always_scansInRange : ¬ ∀ junk ds d, ScansInRange junk ds d := by
  intro h
  obtain ⟨ds, w, hw, helems, -⟩ := (exists_history (q := [client₁, client₂]) (by decide)).1
  obtain ⟨v, hv, hlast⟩ :=
    removesLast_of_scansInRange (h regFrame ds ⟨client₁, quitFrame.bytes⟩)
  obtain rfl := Option.some.inj (hw.symm.trans hv)
  rw [helems] at hlast
  rcases hlast with hop | hno | hl
  · rw [Buffer.fill_full quitFrame.length_eq] at hop
    exact hop opOf_quitFrame
  · exact absurd hno (by decide)
  · exact absurd hl (by decide)

end Fssn.Udp
