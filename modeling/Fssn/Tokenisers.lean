import Fssn.P2p.Dechat
import Fssn.Zmq.Weather

/-!
# Fssn.Tokenisers — the two `split` functions

The p2p program splits with `strtok`, the weather client with `getline`.  They differ in the empty
fields only: `strtok` has none, `getline` has one in front of every delimiter that follows another one
or begins the text.
-/

namespace Fssn

open Lib

/-- **The tokenisers agree up to empty fields**, on every C string and at every delimiter. -/
theorem splits_agree (s : CString) (delimiter : UInt8) (hd : delimiter ≠ 0) :
    P2p.split s.bytes [delimiter] =
      (Zmq.Weather.split s.bytes delimiter).filter fun field => !field.isEmpty := by
  have hgetline : (Zmq.Weather.split s.bytes delimiter).filter (!·.isEmpty) =
      tokens (P2p.isByte delimiter) s.bytes := filter_getlineAll _ s.bytes
  rw [P2p.split_eq_tokens s.nul_free hd, hgetline]

/-- A leading, a doubled and a trailing delimiter. -/
theorem splits_agree_colons : P2p.split (ascii ":a::b:") [58] =
    (Zmq.Weather.split (ascii ":a::b:") 58).filter fun field => !field.isEmpty :=
  splits_agree ⟨ascii ":a::b:", by decide⟩ 58 (by decide)

end Fssn
