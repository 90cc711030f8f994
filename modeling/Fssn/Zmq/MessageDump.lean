import Fssn.Lib.Decimal

/-!
# Fssn.Zmq.MessageDump — `message_t::str`

What `cout << msg` prints of a message: its size and its bytes, the printable ones as they are, the
others as two hexadecimal digits, with a blank wherever the one kind follows the other.  From 1000
bytes on only the size is printed.

`readBack_str`: a dump tells the message, if it is shorter and holds no blank.
-/

namespace Fssn.Zmq

open Fssn.Lib

/-- `os << std::setw(w) << std::setfill('0')` on a number. -/
def setw (w : ℕ) (digits : Bytes) : Bytes := List.replicate (w - digits.length) 48 ++ digits

/-- A digit with `std::uppercase`. -/
def hexDigit (n : ℕ) : UInt8 := UInt8.ofNat (if n < 10 then 48 + n else 55 + n)

/-- `std::hex`, two digits wide. -/
def hex (byte : UInt8) : Bytes := [hexDigit (byte.toNat / 16), hexDigit (byte.toNat % 16)]

def isAscii (byte : UInt8) : Bool := decide (32 ≤ byte.toNat ∧ byte.toNat < 127)

/-- The loop over the bytes; the flag is `is_ascii[0]`. -/
def strLoop : Bool → Bytes → Bytes
  | _, [] => []
  | prev, byte :: msg_data =>
    (if isAscii byte ≠ prev then [32] else []) ++
      (if isAscii byte then [byte] else hex byte) ++ strLoop (isAscii byte) msg_data

/-- `message_t::str` -/
def str (msg : Bytes) : Bytes :=
  ascii "zmq::message_t [size " ++ setw 3 (decimal msg.length) ++ ascii "] (" ++
    if 1000 ≤ msg.length then ascii "... too big to print)" else strLoop false msg ++ ascii ")"

/-! ### Reading a dump -/

/-- The value of a digit. -/
def hexValue (b : UInt8) : ℕ := if b.toNat < 58 then b.toNat - 48 else b.toNat - 55

/-- The bytes of a dump; the flag says that the bytes at hand are text. -/
def readLoop : Bool → Bytes → Option Bytes
  | _, [] => some []
  | text, b :: s =>
    if b = 32 then readLoop (!text) s
    else if text then (readLoop true s).map (b :: ·)
    else
      match s with
      | [] => none
      | c :: s => (readLoop false s).map (UInt8.ofNat (16 * hexValue b + hexValue c) :: ·)

/-- The message of a dump: what stands between the first parenthesis and the last byte. -/
def readBack (dump : Bytes) : Option Bytes :=
  readLoop false ((dump.dropWhile (· ≠ 40)).tail.dropLast)

theorem hexDigit_toNat {n : ℕ} (h : n < 16) :
    (hexDigit n).toNat = if n < 10 then 48 + n else 55 + n := by
  unfold hexDigit
  rw [UInt8.toNat_ofNat_of_lt']
  split_ifs <;> simp [UInt8.size] <;> omega

theorem hexValue_hexDigit {n : ℕ} (h : n < 16) : hexValue (hexDigit n) = n := by
  unfold hexValue
  rw [hexDigit_toNat h]
  split_ifs <;> omega

theorem hexDigit_ne_blank {n : ℕ} (h : n < 16) : hexDigit n ≠ 32 := by
  intro heq
  have hval := hexDigit_toNat h
  rw [heq] at hval
  split_ifs at hval
  · exact absurd hval (by show ¬ 32 = _; omega)
  · exact absurd hval (by show ¬ 32 = _; omega)

theorem readLoop_blank (text : Bool) (s : Bytes) : readLoop text (32 :: s) = readLoop (!text) s := by
  rw [readLoop.eq_def]
  rfl

theorem readLoop_text {b : UInt8} (h : b ≠ 32) (s : Bytes) :
    readLoop true (b :: s) = (readLoop true s).map (b :: ·) := by
  rw [readLoop.eq_def]
  exact if_neg h

theorem readLoop_digits {b : UInt8} (h : b ≠ 32) (c : UInt8) (s : Bytes) :
    readLoop false (b :: c :: s) =
      (readLoop false s).map (UInt8.ofNat (16 * hexValue b + hexValue c) :: ·) := by
  rw [readLoop.eq_def]
  exact if_neg h

theorem readLoop_hex (byte : UInt8) (s : Bytes) :
    readLoop false (hex byte ++ s) = (readLoop false s).map (byte :: ·) := by
  have hhi : byte.toNat / 16 < 16 := by
    have := byte.toNat_lt
    omega
  have hlo : byte.toNat % 16 < 16 := Nat.mod_lt _ (by omega)
  have hbyte : UInt8.ofNat (16 * (byte.toNat / 16) + byte.toNat % 16) = byte := by
    rw [Nat.div_add_mod, UInt8.ofNat_toNat]
  show readLoop false (hexDigit _ :: hexDigit _ :: s) = _
  rw [readLoop_digits (hexDigit_ne_blank hhi), hexValue_hexDigit hhi, hexValue_hexDigit hlo, hbyte]

/-- The loop is read back: a blank in the dump only ever tells that the kind of the bytes changes. -/
theorem readLoop_strLoop (prev : Bool) {msg : Bytes} (h : 32 ∉ msg) :
    readLoop prev (strLoop prev msg) = some msg := by
  induction msg generalizing prev with
  | nil => rfl
  | cons byte msg ih =>
    obtain ⟨hbyte, hmsg⟩ := not_or.mp (List.mem_cons.not.mp h)
    have hbody : readLoop (isAscii byte)
        ((if isAscii byte then [byte] else hex byte) ++ strLoop (isAscii byte) msg) =
        some (byte :: msg) := by
      cases hkind : isAscii byte with
      | true =>
        rw [if_pos rfl, List.singleton_append, readLoop_text (Ne.symm hbyte), ih true hmsg]
        rfl
      | false =>
        rw [if_neg (by simp), readLoop_hex, ih false hmsg]
        rfl
    rw [strLoop, List.append_assoc]
    by_cases hprev : isAscii byte ≠ prev
    · rw [if_pos hprev, List.singleton_append, readLoop_blank]
      have hflip : (!prev) = isAscii byte := by
        cases prev <;> cases hkind : isAscii byte <;> simp [hkind] at hprev ⊢
      rw [hflip]
      exact hbody
    · rw [if_neg hprev, List.nil_append, ← not_not.mp hprev]
      exact hbody

/-- In front of the bytes there is no parenthesis. -/
theorem str_head (msg : Bytes) :
    (ascii "zmq::message_t [size " ++ setw 3 (decimal msg.length) ++ ascii "] ").all (· ≠ 40) := by
  have hdigits : (setw 3 (decimal msg.length)).all (· ≠ 40) := by
    rw [setw, List.all_append, Bool.and_eq_true, List.all_eq_true, List.all_eq_true]
    refine ⟨fun b hb => ?_, fun b hb => ?_⟩
    · rw [List.eq_of_mem_replicate hb]
      decide
    · refine decide_eq_true fun heq => ?_
      exact not_mem_decimal (by decide) _ (heq ▸ hb)
  rw [List.all_append, List.all_append, hdigits]
  decide

/-- **A dump is read back.** -/
theorem readBack_str (msg : Bytes) (hlen : msg.length < 1000) (hblank : 32 ∉ msg) :
    readBack (str msg) = some msg := by
  have hsplit : str msg = (ascii "zmq::message_t [size " ++ setw 3 (decimal msg.length) ++
      ascii "] ") ++ 40 :: (strLoop false msg ++ [41]) := by
    rw [str, if_neg (by omega)]
    simp only [List.append_assoc]
    rfl
  rw [readBack, hsplit, List.dropWhile_append_of_pos, List.dropWhile_cons_of_neg (by simp),
    List.tail_cons, List.dropLast_concat, readLoop_strLoop false hblank]
  intro b hb
  exact List.all_eq_true.mp (str_head msg) b hb

theorem readBack_str_mixed : readBack (str [97, 10, 255]) = some [97, 10, 255] :=
  readBack_str [97, 10, 255] (by decide) (by decide)

end Fssn.Zmq
