import Mathlib.Data.List.SplitLengths
import Mathlib.Algebra.Group.Action.Defs
import Mathlib.Algebra.Order.Ring.Nat
import Mathlib.Algebra.Order.BigOperators.Group.List
import Fssn.Lib.CString

/-!
# Fssn.Lib.Chunks — a byte stream that arrives in pieces

A stream transport keeps the bytes and their order but not the boundaries of the writes.  A
`Splits n chunks stream` is one way it may deliver `stream` to a receiver that asks for at most `n`
bytes at a time.  A chunk is whole when it has all `n` bytes.
-/

namespace Fssn.Lib

/-- The chunks are non-empty, of at most `n` bytes, and together they are the stream. -/
structure Splits (n : ℕ) (chunks : List Bytes) (stream : Bytes) : Prop where
  pos : ∀ c ∈ chunks, 0 < c.length
  le : ∀ c ∈ chunks, c.length ≤ n
  flatten_eq : chunks.flatten = stream

namespace Splits

variable {n : ℕ} {chunks : List Bytes} {c p stream : Bytes}

theorem eq_nil (h : Splits n chunks []) : chunks = [] := by
  cases chunks with
  | nil => rfl
  | cons c cs =>
    have hpos := h.pos c List.mem_cons_self
    have hnil := List.append_eq_nil_iff.mp h.flatten_eq
    rw [hnil.1] at hpos
    exact absurd hpos (Nat.lt_irrefl 0)

theorem tail (h : Splits n (c :: chunks) (c ++ stream)) : Splits n chunks stream where
  pos d hd := h.pos d (List.mem_cons_of_mem _ hd)
  le d hd := h.le d (List.mem_cons_of_mem _ hd)
  flatten_eq := List.append_cancel_left h.flatten_eq

/-- A whole first chunk is the first frame of the stream. -/
theorem head_eq (h : Splits n (c :: chunks) (p ++ stream)) (hc : c.length = n) (hp : p.length = n) :
    c = p :=
  (List.append_inj h.flatten_eq (hc.trans hp.symm)).1

/-- As many chunks as there are frames in the stream: every chunk is whole. -/
theorem whole_of_length (h : Splits n chunks stream) (hlen : stream.length = chunks.length * n) :
    ∀ c ∈ chunks, c.length = n := by
  have hsum : (chunks.map List.length).sum = chunks.length * n := by
    rw [← List.length_flatten, h.flatten_eq, hlen]
  have hle := h.le
  clear h hlen
  induction chunks with
  | nil => exact fun c hc => absurd hc List.not_mem_nil
  | cons d cs ih =>
    have hd : d.length ≤ n := hle d List.mem_cons_self
    have hcs : (cs.map List.length).sum ≤ cs.length * n := by
      have := List.sum_le_card_nsmul (cs.map List.length) n fun k hk => by
        obtain ⟨c, hc, rfl⟩ := List.mem_map.mp hk
        exact hle c (List.mem_cons_of_mem _ hc)
      rwa [List.length_map, smul_eq_mul] at this
    rw [List.map_cons, List.sum_cons, List.length_cons, Nat.succ_mul] at hsum
    intro c hc
    rcases List.mem_cons.mp hc with rfl | hc
    · omega
    · exact ih (by omega) (fun c hc => hle c (List.mem_cons_of_mem _ hc)) c hc

/-- Any two streams of one length can be split at the same places. -/
theorem resplit (h : Splits n chunks stream) (hlen : p.length = stream.length) :
    Splits n ((chunks.map List.length).splitLengths p) p ∧
      ((chunks.map List.length).splitLengths p).map List.length = chunks.map List.length := by
  have hsum : (chunks.map List.length).sum = p.length := by
    rw [← List.length_flatten, h.flatten_eq, hlen]
  have hmap := List.map_splitLengths_length p (chunks.map List.length) hsum.le
  have hsize : ∀ d ∈ (chunks.map List.length).splitLengths p, ∃ c ∈ chunks, c.length = d.length := by
    intro d hd
    have hd' := List.mem_map_of_mem (f := List.length) hd
    rw [hmap] at hd'
    exact List.mem_map.mp hd'
  refine ⟨⟨fun d hd => ?_, fun d hd => ?_, List.flatten_splitLengths p _ hsum.ge⟩, hmap⟩
  · obtain ⟨c, hc, hcd⟩ := hsize d hd
    exact hcd ▸ h.pos c hc
  · obtain ⟨c, hc, hcd⟩ := hsize d hd
    exact hcd ▸ h.le c hc

end Splits

end Fssn.Lib
