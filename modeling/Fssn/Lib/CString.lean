import Mathlib.Algebra.Order.Ring.Int
import Mathlib.Data.List.TakeDrop
import Mathlib.Data.List.TakeWhile
import Mathlib.Data.List.Infix
import Mathlib.Tactic.Common

/-!
# Fssn.Lib.CString — bytes, C strings and fixed-size receive buffers

C programs see a string as the memory behind a pointer, up to the first NUL.  `cText` is that text,
`strcmpEq s t` is the test `strcmp(s, t) == 0` against a literal, and `strcmpEq_iff` says what it
reads: the literal and its closing NUL stand at the front of the memory, whatever follows.

`Buffer n` is a `char[n]` that a receive call partly overwrites: `fill` writes a payload over the
front and leaves the older bytes behind it.  `leBytes k n` are the bytes of a word that holds `n`.
-/

namespace Fssn.Lib

abbrev Bytes := List UInt8

/-- The bytes of a string literal, without its closing NUL. -/
def ascii (s : String) : Bytes := s.toUTF8.data.toList

/-- The text at a `char*`: everything before the first NUL. -/
def cText (mem : Bytes) : Bytes := mem.takeWhile (· ≠ 0)

/-- `strcmp(s, t) == 0`: `s` is the memory at the first pointer, `t` a literal without its NUL.
The comparison stops at the first difference, so it reads at most `t.length + 1` bytes of `s`. -/
def strcmpEq : Bytes → Bytes → Bool
  | b :: _, [] => b == 0
  | b :: s, c :: t => b == c && strcmpEq s t
  | [], _ => false

/-- A string that a C `char*` can hold: no NUL inside. -/
structure CString where
  bytes : Bytes
  nul_free : 0 ∉ bytes
deriving DecidableEq

/-! ### Text and comparison -/

section Text

variable {s t : Bytes}

theorem strcmpEq_iff : strcmpEq s t = true ↔ t ++ [0] <+: s := by
  induction t generalizing s with
  | nil =>
    cases s with
    | nil => simp [strcmpEq]
    | cons b s => rw [strcmpEq, beq_iff_eq, List.nil_append, List.singleton_prefix_cons_iff, eq_comm]
  | cons c t ih =>
    cases s with
    | nil => simp [strcmpEq]
    | cons b s =>
      rw [strcmpEq, Bool.and_eq_true, ih, List.cons_append, List.cons_prefix_cons, beq_iff_eq,
        eq_comm]

/-- The text behind bytes that are no NUL. -/
theorem cText_append (ht : 0 ∉ t) (r : Bytes) : cText (t ++ r) = t ++ cText r :=
  List.takeWhile_append_of_pos fun b hb => by simpa using fun h : b = 0 => ht (h ▸ hb)

theorem cText_append_nul (ht : 0 ∉ t) (r : Bytes) : cText (t ++ 0 :: r) = t := by
  rw [cText_append ht, cText, List.takeWhile_cons_of_neg (by simp), List.append_nil]

theorem cText_eq_self (ht : 0 ∉ t) : cText t = t :=
  List.takeWhile_eq_self_iff.mpr fun b hb => by simpa using fun h : b = 0 => ht (h ▸ hb)

/-- Memory that holds a NUL is its text, the NUL, and bytes no C function looks at. -/
theorem exists_eq_cText_append (h : 0 ∈ s) : ∃ r, s = cText s ++ 0 :: r := by
  induction s with
  | nil => simp at h
  | cons b s ih =>
    by_cases hb : b = 0
    · exact ⟨s, by simp [cText, hb]⟩
    · obtain ⟨r, hr⟩ := ih (by simpa [Ne.symm hb] using h)
      refine ⟨r, ?_⟩
      rw [cText, List.takeWhile_cons_of_pos (by simpa using hb), List.cons_append]
      exact congrArg (b :: ·) hr

/-- On memory that holds a NUL, `strcmp` compares texts. -/
theorem strcmpEq_iff_cText (hs : 0 ∈ s) (ht : 0 ∉ t) : strcmpEq s t = true ↔ cText s = t := by
  rw [strcmpEq_iff]
  constructor
  · rintro ⟨r, rfl⟩
    rw [List.append_assoc]
    exact cText_append_nul ht r
  · rintro rfl
    obtain ⟨r, hr⟩ := exists_eq_cText_append hs
    exact ⟨r, by rw [List.append_assoc]; exact hr.symm⟩

/-- Bytes that are not NUL complete no literal. -/
theorem prefix_of_prefix_append {p r : Bytes} (hr : 0 ∉ r) (h : t ++ [0] <+: p ++ r) :
    t ++ [0] <+: p := by
  rcases List.prefix_or_prefix_of_prefix h (List.prefix_append p r) with h1 | ⟨s, hs⟩
  · exact h1
  · rcases List.eq_nil_or_concat s with rfl | ⟨s', x, rfl⟩
    · rw [List.append_nil] at hs
      exact ⟨[], by rw [List.append_nil, hs]⟩
    · -- the closing NUL would be one of the bytes of `r`
      rw [List.concat_eq_append, ← List.append_assoc] at hs
      obtain ⟨-, hx⟩ := List.append_inj' hs rfl
      obtain ⟨u, hu⟩ := h
      have hmem : (0 : UInt8) ∈ r := by
        rw [← hs, List.append_assoc, List.append_assoc] at hu
        have hr' := List.append_cancel_left hu
        rw [← hr']
        simp [List.cons.inj hx]
      exact absurd hmem hr

end Text

/-! ### Words in memory -/

/-- The `k` bytes of the number `n`, the least significant first. -/
def leBytes : ℕ → ℕ → Bytes
  | 0, _ => []
  | k + 1, n => UInt8.ofNat n :: leBytes k (n / 256)

@[simp] theorem length_leBytes (k n : ℕ) : (leBytes k n).length = k := by
  induction k generalizing n with
  | zero => rfl
  | succ k ih => rw [leBytes, List.length_cons, ih]

/-- The most significant byte stands last. -/
theorem leBytes_succ (k n : ℕ) : leBytes (k + 1) n = leBytes k n ++ [UInt8.ofNat (n / 256 ^ k)] := by
  induction k generalizing n with
  | zero => rw [Nat.pow_zero, Nat.div_one]; rfl
  | succ k ih =>
    rw [leBytes, ih, leBytes, List.cons_append, Nat.div_div_eq_div_mul, Nat.pow_succ', Nat.mul_comm]

/-- A word determines its number. -/
theorem leBytes_inj {k m n : ℕ} (hm : m < 256 ^ k) (hn : n < 256 ^ k)
    (h : leBytes k m = leBytes k n) : m = n := by
  induction k generalizing m n with
  | zero => omega
  | succ k ih =>
    rw [Nat.pow_succ] at hm hn
    obtain ⟨hhead, htail⟩ := List.cons.inj h
    have hmod : m % 256 = n % 256 := congrArg UInt8.toNat hhead
    have hdiv : m / 256 = n / 256 := ih (by omega) (by omega) htail
    omega

/-- A small number leaves a zero in its word. -/
theorem nul_mem_leBytes {k n : ℕ} (hk : 1 < k) (hn : n < 256) : 0 ∈ leBytes k n := by
  obtain ⟨k, rfl⟩ : ∃ j, k = j + 2 := ⟨k - 2, by omega⟩
  rw [leBytes, leBytes, Nat.div_eq_of_lt hn]
  exact List.mem_cons_of_mem _ List.mem_cons_self

/-! ### Receive buffers -/

/-- A `char[n]`. -/
structure Buffer (n : ℕ) where
  bytes : Bytes
  length_eq : bytes.length = n
deriving DecidableEq

namespace Buffer

variable {n : ℕ}

@[ext] theorem ext {b c : Buffer n} (h : b.bytes = c.bytes) : b = c := by
  cases b; cases c; cases h; rfl

theorem length_fill (b : Buffer n) (p : Bytes) :
    (p.take n ++ b.bytes.drop p.length).length = n := by
  rw [List.length_append, List.length_take, List.length_drop, b.length_eq]
  omega

/-- The buffer after a receive of at most `n` bytes into it: the payload in front, and behind it
the bytes the buffer held before. -/
def fill (b : Buffer n) (p : Bytes) : Buffer n where
  bytes := p.take n ++ b.bytes.drop p.length
  length_eq := length_fill b p

/-- A buffer whose bytes are all `x`. -/
def const (n : ℕ) (x : UInt8) : Buffer n := ⟨List.replicate n x, List.length_replicate⟩

theorem fill_bytes {b : Buffer n} {p : Bytes} (hp : p.length ≤ n) :
    (b.fill p).bytes = p ++ b.bytes.drop p.length := by
  show p.take n ++ b.bytes.drop p.length = _
  rw [List.take_of_length_le hp]

@[simp] theorem fill_nil (b : Buffer n) : b.fill [] = b := by
  apply ext
  rw [fill_bytes (by simp)]
  simp

/-- A payload of full length leaves nothing of the older bytes. -/
theorem fill_full {b : Buffer n} {p : Bytes} (hp : p.length = n) : (b.fill p).bytes = p := by
  rw [fill_bytes hp.le, List.drop_eq_nil_of_le (by rw [b.length_eq, hp]), List.append_nil]

@[simp] theorem fill_frame (b f : Buffer n) : b.fill f.bytes = f :=
  ext (fill_full f.length_eq)

theorem prefix_fill {b : Buffer n} {p : Bytes} (hp : p.length ≤ n) : p <+: (b.fill p).bytes := by
  rw [fill_bytes hp]
  exact List.prefix_append _ _

/-- What a payload leaves of the older bytes is what is behind it. -/
theorem fill_eq_fill_iff {b c : Buffer n} {p : Bytes} :
    b.fill p = c.fill p ↔ b.bytes.drop p.length = c.bytes.drop p.length := by
  constructor
  · intro h
    exact List.append_cancel_left (congrArg Buffer.bytes h)
  · intro h
    apply ext
    show p.take n ++ b.bytes.drop p.length = p.take n ++ c.bytes.drop p.length
    rw [h]

/-- Buffers that differ in their last byte still differ when a payload does not fill them. -/
theorem fill_ne_fill {b c : Buffer n} {p : Bytes} (hp : p.length < n)
    (hlast : b.bytes.getLast? ≠ c.bytes.getLast?) : b.fill p ≠ c.fill p := by
  intro h
  have hdrop := congrArg List.getLast? (fill_eq_fill_iff.mp h)
  rw [List.getLast?_drop, List.getLast?_drop, b.length_eq, c.length_eq, if_neg (by omega),
    if_neg (by omega)] at hdrop
  exact hlast hdrop

/-! ### A sequence of receives -/

/-- The buffer after the payloads `ps`. -/
def fills (b : Buffer n) (ps : List Bytes) : Buffer n := ps.foldl fill b

theorem fills_concat (b : Buffer n) (ps : List Bytes) (p : Bytes) :
    b.fills (ps ++ [p]) = (b.fills ps).fill p := List.foldl_concat ..

/-- A payload decides the bytes it covers, and leaves the others. -/
theorem getElem?_fill (b : Buffer n) (p : Bytes) {i : ℕ} (hi : i < n) :
    (b.fill p).bytes[i]? = if i < p.length then p[i]? else b.bytes[i]? := by
  show (p.take n ++ b.bytes.drop p.length)[i]? = _
  by_cases hp : i < p.length
  · rw [if_pos hp, List.getElem?_append_left (by rw [List.length_take]; omega),
      List.getElem?_take_of_lt hi]
  · have hlen : (p.take n).length = p.length := by
      rw [List.length_take]
      omega
    rw [if_neg hp, List.getElem?_append_right (by omega), hlen, List.getElem?_drop,
      Nat.add_sub_cancel' (by omega)]

/-- The last payload of `ps` that reaches the position `i` has a NUL there, or no payload reaches it
and the memory `mem` has one. -/
def NulAt (mem : Bytes) (ps : List Bytes) (i : ℕ) : Prop :=
  (∃ pre p post, ps = pre ++ p :: post ∧ p[i]? = some 0 ∧ ∀ q ∈ post, q.length ≤ i) ∨
  (mem[i]? = some 0 ∧ ∀ q ∈ ps, q.length ≤ i)

theorem nulAt_concat {mem p : Bytes} {ps : List Bytes} {i : ℕ} :
    NulAt mem (ps ++ [p]) i ↔ p[i]? = some 0 ∨ (p.length ≤ i ∧ NulAt mem ps i) := by
  constructor
  · rintro (⟨pre, q, post, heq, hq, hpost⟩ | ⟨hmem, hall⟩)
    · rcases List.eq_nil_or_concat post with rfl | ⟨post, r, rfl⟩
      · obtain ⟨rfl, hlast⟩ := List.append_inj' heq rfl
        exact Or.inl (List.singleton_inj.mp hlast ▸ hq)
      · rw [List.concat_eq_append, ← List.cons_append, ← List.append_assoc] at heq
        obtain ⟨rfl, hlast⟩ := List.append_inj' heq rfl
        rw [List.concat_eq_append, ← List.singleton_inj.mp hlast, List.forall_mem_append,
          List.forall_mem_singleton] at hpost
        exact Or.inr ⟨hpost.2, Or.inl ⟨pre, q, post, rfl, hq, hpost.1⟩⟩
    · rw [List.forall_mem_append, List.forall_mem_singleton] at hall
      exact Or.inr ⟨hall.2, Or.inr ⟨hmem, hall.1⟩⟩
  · rintro (hp | ⟨hle, ⟨pre, q, post, rfl, hq, hpost⟩ | ⟨hmem, hall⟩⟩)
    · exact Or.inl ⟨ps, p, [], rfl, hp, by simp⟩
    · refine Or.inl ⟨pre, q, post ++ [p], by simp, hq, ?_⟩
      exact List.forall_mem_append.mpr ⟨hpost, List.forall_mem_singleton.mpr hle⟩
    · refine Or.inr ⟨hmem, ?_⟩
      exact List.forall_mem_append.mpr ⟨hall, List.forall_mem_singleton.mpr hle⟩

theorem getElem?_fills (b : Buffer n) (ps : List Bytes) {i : ℕ} (hi : i < n) :
    (b.fills ps).bytes[i]? = some 0 ↔ NulAt b.bytes ps i := by
  induction ps using List.reverseRecOn with
  | nil => simp [fills, NulAt]
  | append_singleton ps p ih =>
    rw [fills_concat, getElem?_fill _ _ hi, nulAt_concat, ← ih]
    by_cases hp : i < p.length
    · rw [if_pos hp]
      constructor
      · exact Or.inl
      · rintro (h | ⟨hle, -⟩)
        · exact h
        · omega
    · rw [if_neg hp]
      constructor
      · intro h
        exact Or.inr ⟨not_lt.mp hp, h⟩
      · rintro (h | ⟨-, h⟩)
        · rw [List.getElem?_eq_none (not_lt.mp hp)] at h
          exact absurd h (by simp)
        · exact h

/-- **Which NULs are left**: the buffer holds a NUL exactly if one was received, or was there before,
that no later payload covers. -/
theorem nul_mem_fills_iff (b : Buffer n) (ps : List Bytes) :
    0 ∈ (b.fills ps).bytes ↔ ∃ i, i < n ∧ NulAt b.bytes ps i := by
  rw [List.mem_iff_getElem?]
  constructor
  · rintro ⟨i, hi⟩
    have hlt : i < n := by
      rw [← (b.fills ps).length_eq]
      exact (List.getElem?_eq_some_iff.mp hi).1
    exact ⟨i, hlt, (getElem?_fills b ps hlt).mp hi⟩
  · rintro ⟨i, hlt, hi⟩
    exact ⟨i, (getElem?_fills b ps hlt).mpr hi⟩

theorem getLast?_const {x : UInt8} (hn : n ≠ 0) : (const n x).bytes.getLast? = some x := by
  rw [const, List.getLast?_replicate, if_neg hn]

theorem fill_const_ne {x y : UInt8} {p : Bytes} (hxy : x ≠ y) (hp : p.length < n) :
    (const n x).fill p ≠ (const n y).fill p := by
  have hn : n ≠ 0 := by omega
  refine fill_ne_fill hp fun h => hxy ?_
  rw [getLast?_const hn, getLast?_const hn] at h
  exact Option.some.inj h

end Buffer

end Fssn.Lib
