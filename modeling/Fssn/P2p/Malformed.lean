import Fssn.P2p.Dechat

/-!
# Fssn.P2p.Malformed — messages that have fewer fields than the p2p chat reads

`split` drops empty fields and stops at a NUL, and the program indexes its result after checking, at
most, that the message is not empty.  `split_indices`: which messages of other peers keep the indices
inside the vector.
-/

namespace Fssn.P2p

open Fssn.Lib

/-- The indices `search_nameserver` uses on a message it received are below the size of the vector:
0, and 1 when the first field is `NAMESERVER`. -/
def SearchInRange (res : Bytes) : Prop :=
  0 < res.length → 0 < (split res colon).length ∧
    ((split res colon)[0]? = some (ascii "NAMESERVER") → 1 < (split res colon).length)

/-- The indices `user_registeration` uses on a message it received are below the size of the
vector. -/
def ShownInRange (received : Bytes) : Prop :=
  1 < (split received colon).length ∧ 2 < (split received colon).length

theorem searchResult_isSome_iff (res : Bytes) :
    (searchResult res).isSome = true ↔ SearchInRange res := by
  unfold searchResult SearchInRange
  by_cases hlen : 0 < res.length
  · rw [if_pos hlen]
    dsimp only
    cases hs : split res colon with
    | nil => simp [hlen]
    | cons t ts =>
      rw [List.getElem?_cons_zero]
      dsimp only
      by_cases ht : t = ascii "NAMESERVER"
      · rw [if_pos ht]
        simp [hlen, ht]
      · rw [if_neg ht]
        simp [ht]
  · rw [if_neg hlen]
    simp [hlen]

theorem shown_isSome_iff (received : Bytes) :
    (shown received).isSome = true ↔ ShownInRange received := by
  unfold shown ShownInRange
  match split received colon with
  | [] => simp
  | [_] => simp
  | [_, _] => simp
  | _ :: _ :: _ :: _ => simp

theorem isByte_eq_false {x b : UInt8} : isByte x b = false ↔ b ≠ x := decide_eq_false_iff_not

theorem searchInRange_iff (r : Bytes) :
    SearchInRange (subscription ++ r) ↔ ∃ b ∈ cText r, b ≠ 58 := by
  have hcolon : (58 : UInt8) ∉ subscription := by decide
  have hsplit : split (subscription ++ r) colon = tokens (isByte 58) (subscription ++ cText r) := by
    rw [colon_eq, split_eq_tokens_cText _ (by decide), cText_append (by decide)]
  have hlen : 0 < (subscription ++ r).length := by
    have : subscription.length = 10 := rfl
    rw [List.length_append]
    omega
  rw [SearchInRange, hsplit]
  have hfree : tokens (isByte 58) subscription = [subscription] :=
    tokens_field (by decide) hcolon
  cases ht : cText r with
  | nil =>
    rw [List.append_nil, hfree]
    refine iff_of_false (fun h => ?_) (by simp)
    exact absurd ((h hlen).2 rfl) (by simp)
  | cons c t =>
    by_cases hc : c = 58
    · -- the first field is `NAMESERVER`: the second index needs another token
      subst hc
      rw [tokens_append_cons (by simp [isByte]), hfree]
      constructor
      · intro h
        have hlt := (h hlen).2 rfl
        rw [List.length_append, List.length_singleton, Nat.lt_add_right_iff_pos,
          List.length_pos_iff, tokens_ne_nil_iff] at hlt
        obtain ⟨b, hb, hne⟩ := hlt
        exact ⟨b, List.mem_cons_of_mem _ hb, isByte_eq_false.mp hne⟩
      · rintro ⟨b, hb, hne⟩ -
        have hmem : b ∈ t := (List.mem_cons.mp hb).resolve_left hne
        have hpos : 0 < (tokens (isByte 58) t).length :=
          List.length_pos_iff.mpr (tokens_ne_nil_iff.mpr ⟨b, hmem, isByte_eq_false.mpr hne⟩)
        rw [List.length_append, List.length_singleton]
        exact ⟨by omega, fun _ => by omega⟩
    · -- the first field is longer than `NAMESERVER`
      refine iff_of_true (fun _ => ?_) ⟨c, List.mem_cons_self, hc⟩
      rw [tokens_takeWhile (by simp) (by rintro x ⟨⟩; decide)]
      refine ⟨by simp, fun h => ?_⟩
      exfalso
      have hfirst : ∀ b ∈ subscription, (!isByte 58 b) = true := by
        intro b hb
        have hne : b ≠ 58 := fun h => hcolon (h ▸ hb)
        rw [isByte_eq_false.mpr hne]
        rfl
      rw [List.getElem?_cons_zero, Option.some.injEq, List.takeWhile_append_of_pos hfirst,
        List.takeWhile_cons_of_pos (by simp [isByte, hc])] at h
      have := congrArg List.length h
      rw [List.length_append] at this
      simp [subscription] at this

theorem shownInRange_iff (message : Bytes) : ShownInRange (relayed message) ↔
    ∃ a b, cText message = a ++ 58 :: b ∧ (∃ x ∈ a, x ≠ 58) ∧ ∃ x ∈ b, x ≠ 58 := by
  have hsplit : split (relayed message) colon =
      ascii "RELAY" :: tokens (isByte 58) (cText message) := by
    have heq : relayed message = (ascii "RELAY" ++ [58]) ++ message := rfl
    rw [colon_eq, split_eq_tokens_cText _ (by decide), heq, cText_append (by decide),
      tokens_field_append (by decide) (by decide)]
  rw [ShownInRange, hsplit, List.length_cons, Nat.lt_add_left_iff_pos]
  have hlen : 2 < (tokens (isByte 58) (cText message)).length + 1 ↔
      1 < (tokens (isByte 58) (cText message)).length := by omega
  rw [hlen, one_lt_length_tokens_iff]
  constructor
  · rintro ⟨-, a, d, b, heq, hd, ⟨x, hx, hx'⟩, y, hy, hy'⟩
    obtain rfl : d = 58 := of_decide_eq_true hd
    exact ⟨a, b, heq, ⟨x, hx, isByte_eq_false.mp hx'⟩, y, hy, isByte_eq_false.mp hy'⟩
  · rintro ⟨a, b, heq, ⟨x, hx, hx'⟩, y, hy, hy'⟩
    have htwo := one_lt_length_tokens_iff.mpr ⟨a, 58, b, heq, by simp [isByte],
      ⟨x, hx, isByte_eq_false.mpr hx'⟩, y, hy, isByte_eq_false.mpr hy'⟩
    exact ⟨by omega, one_lt_length_tokens_iff.mp htwo⟩

/-- **Indices into split.**  A message that passes the subscription is read in range exactly if a
byte other than `:` stands between `NAMESERVER` and the first NUL; a relayed message exactly if a `:`
before its first NUL has a byte other than `:` somewhere before it and somewhere behind it. -/
theorem split_indices (r message : Bytes) :
    (SearchInRange (subscription ++ r) ↔ ∃ b ∈ cText r, b ≠ 58) ∧
    (ShownInRange (relayed message) ↔
      ∃ a b, cText message = a ++ 58 :: b ∧ (∃ x ∈ a, x ≠ 58) ∧ ∃ x ∈ b, x ≠ 58) :=
  ⟨searchInRange_iff r, shownInRange_iff message⟩

/-- `NAMESERVER` alone has no second field. -/
theorem not_always_split_indices :
    ¬ ∀ r message, SearchInRange (subscription ++ r) ∧ ShownInRange (relayed message) := by
  intro h
  obtain ⟨b, hb, -⟩ := (searchInRange_iff []).mp (h [] []).1
  exact absurd hb List.not_mem_nil

end Fssn.P2p
