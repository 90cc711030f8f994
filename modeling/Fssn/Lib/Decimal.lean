import Fssn.Lib.CString

/-!
# Fssn.Lib.Decimal — decimal texts of numbers

`decimal n` is the text `std::to_string` gives for `n ≥ 0`; `toStringInt` adds the sign.  `stoi` reads
a text back.

* `decimal_injective`: different numbers have different texts.
* `ten_mul_le_of_prefix`: a number whose text extends the text of `m` is at least `10 * m`.
* `stoi_toStringInt`: `stoi` gives back every `int` from its text.
-/

namespace Fssn.Lib

/-- The decimal digits of `n`, most significant first. -/
def decimal (n : ℕ) : Bytes := (Nat.toDigits 10 n).map fun c => UInt8.ofNat c.toNat

/-- `std::to_string` on a signed integer. -/
def toStringInt : ℤ → Bytes
  | .ofNat n => decimal n
  | .negSucc n => 45 :: decimal (n + 1)

theorem digit_range {n : ℕ} {c : Char} (hc : c ∈ Nat.toDigits 10 n) :
    48 ≤ c.toNat ∧ c.toNat ≤ 57 := by
  have h := Nat.isDigit_of_mem_toDigits (by omega) (by omega) hc
  rw [Char.isDigit, Bool.and_eq_true, decide_eq_true_iff, decide_eq_true_iff] at h
  exact ⟨by simpa using UInt32.le_iff_toNat_le.mp h.1, by simpa using UInt32.le_iff_toNat_le.mp h.2⟩

/-- Every byte of a decimal text is a digit. -/
theorem mem_decimal {n : ℕ} {b : UInt8} (hb : b ∈ decimal n) : 48 ≤ b.toNat ∧ b.toNat ≤ 57 := by
  obtain ⟨c, hc, rfl⟩ := List.mem_map.mp hb
  have h := digit_range hc
  rw [UInt8.toNat_ofNat_of_lt' (by rw [UInt8.size]; omega)]
  exact h

theorem not_mem_decimal {b : UInt8} (hb : b.toNat < 48 ∨ 57 < b.toNat) (n : ℕ) :
    b ∉ decimal n := by
  intro h
  have := mem_decimal h
  omega

theorem nul_not_mem_decimal (n : ℕ) : (0 : UInt8) ∉ decimal n := not_mem_decimal (by decide) n

theorem decimal_ne_nil (n : ℕ) : decimal n ≠ [] := by
  rw [decimal, Ne, List.map_eq_nil_iff]
  exact Nat.toDigits_ne_nil

/-- Reading the digit bytes back as characters. -/
theorem map_decimal (n : ℕ) :
    (decimal n).map (fun b => Char.ofNat b.toNat) = Nat.toDigits 10 n := by
  rw [decimal, List.map_map]
  conv_rhs => rw [← List.map_id (Nat.toDigits 10 n)]
  refine List.map_congr_left fun c hc => ?_
  have h := digit_range hc
  have hsize : c.toNat < UInt8.size := by
    rw [UInt8.size]
    omega
  rw [Function.comp_apply, UInt8.toNat_ofNat_of_lt' hsize, Char.ofNat_toNat, id]

theorem decimal_injective : Function.Injective decimal := by
  intro m n h
  have hd : Nat.toDigits 10 m = Nat.toDigits 10 n := by rw [← map_decimal, ← map_decimal, h]
  rw [← Nat.ofDigitChars_ten_toDigits (n := m), hd, Nat.ofDigitChars_ten_toDigits]

/-! ### The value of a text -/

/-- The number that a list of digits denotes. -/
def digitsValue (ds : Bytes) : ℕ := Nat.ofDigitChars 10 (ds.map fun b => Char.ofNat b.toNat) 0

@[simp] theorem digitsValue_decimal (n : ℕ) : digitsValue (decimal n) = n := by
  rw [digitsValue, map_decimal, Nat.ofDigitChars_ten_toDigits]

theorem digitsValue_append (a b : Bytes) :
    digitsValue (a ++ b) = 10 ^ b.length * digitsValue a + digitsValue b := by
  unfold digitsValue
  rw [List.map_append, Nat.ofDigitChars_append, Nat.ofDigitChars_eq_ofDigitChars_zero,
    List.length_map]

/-- One more digit. -/
theorem decimal_append {m d : ℕ} (hm : 0 < m) (hd : d < 10) :
    decimal m ++ decimal d = decimal (10 * m + d) := by
  unfold decimal
  rw [← List.map_append, Nat.toDigits_append_toDigits (by omega) hm hd]

/-- The text of a number extends the text of `m` only if the number is `m` or has more digits. -/
theorem ten_mul_le_of_prefix {m n : ℕ} (h : decimal m <+: decimal n) (hne : m ≠ n) :
    10 * m ≤ n := by
  obtain ⟨s, hs⟩ := h
  have hval : n = 10 ^ s.length * m + digitsValue s := by
    rw [← digitsValue_decimal n, ← hs, digitsValue_append, digitsValue_decimal]
  have hpos : 0 < s.length := by
    refine List.length_pos_iff.mpr fun hnil => hne (decimal_injective ?_)
    rw [← hs, hnil, List.append_nil]
  have hpow : 10 ≤ 10 ^ s.length := Nat.le_self_pow (by omega) 10
  calc 10 * m ≤ 10 ^ s.length * m := Nat.mul_le_mul_right m hpow
    _ ≤ n := by omega

/-! ### Reading a number -/

/-- `std::isspace`. -/
def isSpace (b : UInt8) : Bool := decide (b.toNat = 32 ∨ 9 ≤ b.toNat ∧ b.toNat ≤ 13)

def isDigit (b : UInt8) : Bool := decide (48 ≤ b.toNat ∧ b.toNat ≤ 57)

/-- An optional sign and what stands behind it. -/
def readSign : Bytes → ℤ × Bytes
  | [] => (1, [])
  | b :: s => if b = 45 then (-1, s) else if b = 43 then (1, s) else (1, b :: s)

/-- `std::stoi`: white space, a sign and digits; it ignores what follows them.  `none` is its
exception, for a text without a number or a number that is no `int`. -/
def stoi (s : Bytes) : Option Int32 :=
  let r := readSign (s.dropWhile isSpace)
  let ds := r.2.takeWhile isDigit
  if ds = [] then none
  else
    let v := r.1 * digitsValue ds
    if -2 ^ 31 ≤ v ∧ v < 2 ^ 31 then some (Int32.ofInt v) else none

theorem isDigit_of_mem_decimal {n : ℕ} {b : UInt8} (hb : b ∈ decimal n) : isDigit b = true :=
  decide_eq_true (mem_decimal hb)

theorem takeWhile_decimal (n : ℕ) : (decimal n).takeWhile isDigit = decimal n :=
  List.takeWhile_eq_self_iff.mpr fun _ hb => isDigit_of_mem_decimal hb

theorem exists_decimal_cons (n : ℕ) :
    ∃ b s, decimal n = b :: s ∧ 48 ≤ b.toNat ∧ b.toNat ≤ 57 := by
  obtain ⟨b, s, hs⟩ := List.exists_cons_of_ne_nil (decimal_ne_nil n)
  have hb : b ∈ decimal n := by
    rw [hs]
    exact List.mem_cons_self
  exact ⟨b, s, hs, mem_decimal hb⟩

/-- A text starts with a digit or with `-`, so there is no white space to skip. -/
theorem dropWhile_toStringInt (z : ℤ) : (toStringInt z).dropWhile isSpace = toStringInt z := by
  cases z with
  | ofNat n =>
    obtain ⟨b, s, hs, hb⟩ := exists_decimal_cons n
    show (decimal n).dropWhile isSpace = decimal n
    rw [hs, List.dropWhile_cons_of_neg (by rw [isSpace, decide_eq_true_iff]; omega)]
  | negSucc n => exact List.dropWhile_cons_of_neg (by decide)

theorem readSign_decimal (n : ℕ) : readSign (decimal n) = (1, decimal n) := by
  obtain ⟨b, s, hs, hb⟩ := exists_decimal_cons n
  have hminus : b ≠ 45 := by
    rintro rfl
    revert hb
    decide
  have hplus : b ≠ 43 := by
    rintro rfl
    revert hb
    decide
  rw [hs, readSign, if_neg hminus, if_neg hplus]

theorem stoi_of_readSign (sg : ℤ) (n : ℕ) {s : Bytes} {x : Int32}
    (hs : readSign (s.dropWhile isSpace) = (sg, decimal n)) (hx : sg * n = x.toInt) :
    stoi s = some x := by
  unfold stoi
  simp only [hs, takeWhile_decimal, if_neg (decimal_ne_nil n), digitsValue_decimal, hx]
  rw [if_pos ⟨x.le_toInt, x.toInt_lt⟩, Int32.ofInt_toInt]

/-- **Reading back**: `stoi` gives an `int` from the text that `to_string` made of it. -/
theorem stoi_toStringInt (x : Int32) : stoi (toStringInt x.toInt) = some x := by
  have hdrop := dropWhile_toStringInt x.toInt
  cases hz : x.toInt with
  | ofNat n =>
    rw [hz] at hdrop
    refine stoi_of_readSign 1 n ?_ ?_
    · rw [hdrop]
      exact readSign_decimal n
    · rw [hz, Int.one_mul]
      rfl
  | negSucc n =>
    rw [hz] at hdrop
    refine stoi_of_readSign (-1) (n + 1) ?_ ?_
    · rw [hdrop]
      rfl
    · rw [hz, Int.negSucc_eq]
      omega

/-- A text of a number consists of digits and `-`. -/
theorem not_mem_toStringInt {b : UInt8} (hb : b.toNat < 45 ∨ 57 < b.toNat) (z : ℤ) :
    b ∉ toStringInt z := by
  cases z with
  | ofNat n => exact not_mem_decimal (by omega) n
  | negSucc n =>
    refine List.not_mem_cons_of_ne_of_not_mem ?_ (not_mem_decimal (by omega) _)
    rintro rfl
    revert hb
    decide

theorem toStringInt_ne_nil (z : ℤ) : toStringInt z ≠ [] := by
  cases z with
  | ofNat n => exact decimal_ne_nil n
  | negSucc n => exact List.cons_ne_nil _ _

end Fssn.Lib
