import Fssn.Lib.Decimal
import Fssn.Lib.Tokens

/-!
# Fssn.P2p.Dechat — the texts of the p2p chat

The p2p chat program exchanges byte strings that it puts together with `+` and takes apart with
`split`, a `strtok` loop: endpoints, the beacon of the name server, registration requests and chat
messages.  An index past the end of the vector that `split` returns gives `none`.

* `searchResult_beacon`: a search that receives the beacon of an address returns that address.
* `bindEndpoint_mem_iff`: which name servers a search is connected to.
* `shown_relayed`: which chat messages are shown as they were sent.
-/

namespace Fssn.P2p

open Fssn.Lib

/-! ### The program's strings -/

def portNameserver : Bytes := ascii "9001"
def portSubscribe : Bytes := ascii "9004"

/-- The `strtok` loop over the C string of `s`, with the bytes of `divid` as delimiters. -/
def split (s divid : Bytes) : List Bytes :=
  strtokAll (fun b => decide (b ∈ cText divid)) (cText s)

/-- An IPv4 address; `inet_ntop` gives its dotted text. -/
structure Ip where
  a : UInt8
  b : UInt8
  c : UInt8
  d : UInt8
deriving DecidableEq

def dot : Bytes := ascii "."
def colon : Bytes := ascii ":"

def Ip.dotted (ip : Ip) : Bytes :=
  decimal ip.a.toNat ++ dot ++ decimal ip.b.toNat ++ dot ++ decimal ip.c.toNat ++ dot ++
    decimal ip.d.toNat

/-- `main`: the first three fields of the local address, each with its dot. -/
def ipMask (ip_addr : Bytes) : Option Bytes :=
  let temp_list := split ip_addr dot
  match temp_list[0]?, temp_list[1]?, temp_list[2]? with
  | some t0, some t1, some t2 => some (t0 ++ dot ++ t1 ++ dot ++ t2 ++ dot)
  | _, _, _ => none

def endpoint (ip_addr port : Bytes) : Bytes := ascii "tcp://" ++ ip_addr ++ colon ++ port

/-- The endpoints `search_nameserver` connects to. -/
def searchEndpoints (ip_mask : Bytes) : List Bytes :=
  (List.range 255).map fun i => endpoint (ip_mask ++ decimal i) portNameserver

/-- The subscription of `search_nameserver`. -/
def subscription : Bytes := ascii "NAMESERVER"

/-- `search_nameserver` behind its `recv`; a receive that timed out leaves the message empty. -/
def searchResult (res : Bytes) : Option Bytes :=
  if 0 < res.length then
    let res_list := split res colon
    match res_list[0]? with
    | none => none
    | some t => if t = ascii "NAMESERVER" then res_list[1]? else some []
  else some []

/-- `beacon_nameserver`: the endpoint it binds and the message it publishes. -/
def bindEndpoint (local_ip_addr : Bytes) : Bytes := endpoint local_ip_addr portNameserver

def beaconMessage (local_ip_addr : Bytes) : Bytes := ascii "NAMESERVER:" ++ local_ip_addr

/-- `user_registeration`: the registration request. -/
def dbMsg (ip_addr user_name : Bytes) : Bytes := ip_addr ++ colon ++ user_name

/-- `user_registeration`: the two chat messages. -/
def chatMsg (user_name ip_addr : Bytes) (on : Bool) : Bytes :=
  ascii "(" ++ user_name ++ ascii "," ++ ip_addr ++ (if on then ascii ":ON)" else ascii ":OFF)")

/-- `relay_server_nameserver`: what it publishes for a message it pulled. -/
def relayed (message : Bytes) : Bytes := ascii "RELAY:" ++ message

/-- `user_registeration`: what it shows of a message it received. -/
def shown (received : Bytes) : Option Bytes :=
  match (split received colon)[1]?, (split received colon)[2]? with
  | some t1, some t2 => some (t1 ++ colon ++ t2)
  | _, _ => none

/-! ### Splitting at one byte -/

section Split

variable {s t : Bytes} {x : UInt8}

/-- The delimiter test of `split` with a delimiter text of one byte. -/
def isByte (x : UInt8) (b : UInt8) : Bool := decide (b = x)

/-- `split` finds the tokens in front of the first NUL. -/
theorem split_eq_tokens_cText (s : Bytes) (hx : x ≠ 0) :
    split s [x] = tokens (isByte x) (cText s) := by
  have hd : cText [x] = [x] := cText_eq_self (by simpa using hx.symm)
  have hp : (fun b => decide (b ∈ cText [x])) = isByte x := by
    funext b
    rw [hd, isByte]
    simp
  rw [split, strtokAll_eq_tokens, hp]

theorem split_eq_tokens (hs : 0 ∉ s) (hx : x ≠ 0) : split s [x] = tokens (isByte x) s := by
  rw [split_eq_tokens_cText s hx, cText_eq_self hs]

theorem tokens_field (hne : t ≠ []) (ht : x ∉ t) : tokens (isByte x) t = [t] :=
  tokens_of_free hne fun _ hb => decide_eq_false fun h => ht (h ▸ hb)

/-- The field in front of the first delimiter. -/
theorem tokens_field_append (hne : t ≠ []) (ht : x ∉ t) (s : Bytes) :
    tokens (isByte x) (t ++ [x] ++ s) = t :: tokens (isByte x) s := by
  rw [List.append_assoc, List.singleton_append, tokens_append_cons (by simp [isByte]),
    tokens_field hne ht, List.singleton_append]

theorem not_mem_of_mem_tokens (ht : t ∈ tokens (isByte x) s) : x ∉ t := fun h => by
  have := (mem_tokens ht).2 x h
  simp [isByte] at this

end Split

/-! ### Dotted addresses -/

theorem colon_eq : colon = [58] := rfl

theorem dot_eq : dot = [46] := rfl

/-- A dotted address consists of digits and dots. -/
theorem not_mem_dotted {b : UInt8} (hb : b.toNat < 46 ∨ 57 < b.toNat) (ip : Ip) :
    b ∉ ip.dotted := by
  have hdot : b ∉ dot := by
    rw [dot_eq, List.mem_singleton]
    rintro rfl
    revert hb
    decide
  have hdec : ∀ n, b ∉ decimal n := not_mem_decimal (by omega)
  simp [Ip.dotted, hdot, hdec]

theorem dotted_ne_nil (ip : Ip) : ip.dotted ≠ [] := by
  simp [Ip.dotted, decimal_ne_nil]

theorem nul_not_mem_dotted (ip : Ip) : (0 : UInt8) ∉ ip.dotted := not_mem_dotted (by decide) ip

theorem colon_not_mem_dotted (ip : Ip) : (58 : UInt8) ∉ ip.dotted := not_mem_dotted (by decide) ip

/-- The first three fields of an address, each with its dot. -/
def Ip.mask (ip : Ip) : Bytes :=
  decimal ip.a.toNat ++ dot ++ decimal ip.b.toNat ++ dot ++ decimal ip.c.toNat ++ dot

theorem dotted_eq (ip : Ip) : ip.dotted = ip.mask ++ decimal ip.d.toNat := rfl

theorem dot_not_mem_decimal (n : ℕ) : (46 : UInt8) ∉ decimal n := not_mem_decimal (by decide) n

theorem colon_not_mem_decimal (n : ℕ) : (58 : UInt8) ∉ decimal n := not_mem_decimal (by decide) n

/-- A part of an address: a text that is one field for `split`, at `.` and at `:`. -/
structure Part where
  bytes : Bytes
  ne_nil : bytes ≠ []
  dot_free : (46 : UInt8) ∉ bytes
  colon_free : (58 : UInt8) ∉ bytes
  nul_free : (0 : UInt8) ∉ bytes

/-- The decimal text of a number as a part. -/
def Part.ofNat (n : ℕ) : Part where
  bytes := decimal n
  ne_nil := decimal_ne_nil n
  dot_free := dot_not_mem_decimal n
  colon_free := colon_not_mem_decimal n
  nul_free := nul_not_mem_decimal n

/-- `main` takes the first three parts of an address. -/
theorem ipMask_parts (a b c e : Part) :
    ipMask (a.bytes ++ dot ++ b.bytes ++ dot ++ c.bytes ++ dot ++ e.bytes) =
      some (a.bytes ++ dot ++ b.bytes ++ dot ++ c.bytes ++ dot) := by
  have hnul : (0 : UInt8) ∉
      a.bytes ++ dot ++ b.bytes ++ dot ++ c.bytes ++ dot ++ e.bytes := by
    have hdot : (0 : UInt8) ∉ dot := by decide
    simp [hdot, a.nul_free, b.nul_free, c.nul_free, e.nul_free]
  have heq : a.bytes ++ dot ++ b.bytes ++ dot ++ c.bytes ++ dot ++ e.bytes =
      a.bytes ++ [46] ++ (b.bytes ++ [46] ++ (c.bytes ++ [46] ++ e.bytes)) := by simp [dot_eq]
  have hsplit : split (a.bytes ++ dot ++ b.bytes ++ dot ++ c.bytes ++ dot ++ e.bytes) dot =
      [a.bytes, b.bytes, c.bytes, e.bytes] := by
    rw [dot_eq, split_eq_tokens (dot_eq ▸ hnul) (by decide), ← dot_eq, heq,
      tokens_field_append a.ne_nil a.dot_free, tokens_field_append b.ne_nil b.dot_free,
      tokens_field_append c.ne_nil c.dot_free, tokens_field e.ne_nil e.dot_free]
  simp only [ipMask, hsplit]
  rfl

theorem ipMask_dotted (ip : Ip) : ipMask ip.dotted = some ip.mask :=
  ipMask_parts (.ofNat ip.a.toNat) (.ofNat ip.b.toNat) (.ofNat ip.c.toNat) (.ofNat ip.d.toNat)

/-! ### Finding the name server -/

/-- A search that receives the beacon of an address without `:` returns that address. -/
theorem searchResult_of_colon_free {addr : Bytes} (hne : addr ≠ []) (hcolon : (58 : UInt8) ∉ addr)
    (hnul : (0 : UInt8) ∉ addr) : searchResult (beaconMessage addr) = some addr := by
  have hsplit : split (beaconMessage addr) colon = [ascii "NAMESERVER", addr] := by
    have heq : beaconMessage addr = ascii "NAMESERVER" ++ [58] ++ addr := rfl
    rw [heq, colon_eq, split_eq_tokens _ (by decide),
      tokens_field_append (by decide) (by decide), tokens_field hne hcolon]
    rw [List.mem_append, not_or]
    exact ⟨by decide, hnul⟩
  have hlen : 0 < (beaconMessage addr).length := by
    rw [beaconMessage, List.length_append]
    exact Nat.add_pos_left (by decide) _
  rw [searchResult, if_pos hlen]
  simp only [hsplit]
  rfl

/-- A search that receives the beacon of an address returns that address. -/
theorem searchResult_beacon (ip : Ip) :
    searchResult (beaconMessage ip.dotted) = some ip.dotted :=
  searchResult_of_colon_free (dotted_ne_nil ip) (colon_not_mem_dotted ip) (nul_not_mem_dotted ip)

theorem endpoint_inj {x y port : Bytes} : endpoint x port = endpoint y port ↔ x = y := by
  unfold endpoint
  rw [List.append_left_inj, List.append_left_inj, List.append_right_inj]

/-- A search in the same /24 is connected to the name server of an address exactly when the last
number of the address is at most 254. -/
theorem bindEndpoint_mem_iff {ip : Ip} {ip_mask : Bytes} (hmask : ip.mask = ip_mask) :
    bindEndpoint ip.dotted ∈ searchEndpoints ip_mask ↔ ip.d.toNat ≤ 254 := by
  rw [searchEndpoints, List.mem_map]
  constructor
  · rintro ⟨i, hi, heq⟩
    rw [bindEndpoint, endpoint_inj, dotted_eq, hmask, List.append_right_inj] at heq
    have := decimal_injective heq
    have := List.mem_range.mp hi
    omega
  · intro hd
    refine ⟨ip.d.toNat, List.mem_range.mpr (by omega), ?_⟩
    rw [bindEndpoint, endpoint_inj, dotted_eq, hmask]

/-- The subscription lets every beacon through. -/
theorem subscription_prefix (local_ip_addr : Bytes) :
    subscription <+: beaconMessage local_ip_addr :=
  ⟨colon ++ local_ip_addr, rfl⟩

/-! ### Chat messages -/

/-- The message in front of its status. -/
def chatHead (user_name ip_addr : Bytes) : Bytes :=
  ascii "(" ++ user_name ++ ascii "," ++ ip_addr

def status (on : Bool) : Bytes := if on then ascii "ON)" else ascii "OFF)"

theorem chatMsg_eq (user_name ip_addr : Bytes) (on : Bool) :
    chatMsg user_name ip_addr on = chatHead user_name ip_addr ++ [58] ++ status on := by
  rw [chatMsg, chatHead, List.append_assoc (_ ++ ip_addr)]
  cases on <;> rfl

/-- The fields that `split` finds in a relayed chat message. -/
theorem split_relayed (name : CString) (ip : Ip) (on : Bool) :
    split (relayed (chatMsg name.bytes ip.dotted on)) colon =
      ascii "RELAY" :: (tokens (isByte 58) (chatHead name.bytes ip.dotted) ++ [status on]) := by
  have heq : relayed (chatMsg name.bytes ip.dotted on) =
      ascii "RELAY" ++ [58] ++ (chatHead name.bytes ip.dotted ++ 58 :: status on) := by
    rw [chatMsg_eq, List.append_assoc (chatHead _ _)]
    rfl
  have hhead : (0 : UInt8) ∉ chatHead name.bytes ip.dotted := by
    simp only [chatHead, List.mem_append, not_or]
    exact ⟨⟨⟨by decide, name.nul_free⟩, by decide⟩, nul_not_mem_dotted ip⟩
  have hstatus : (0 : UInt8) ∉ status on := by cases on <;> decide
  have hnul : (0 : UInt8) ∉ relayed (chatMsg name.bytes ip.dotted on) := by
    rw [heq]
    simp only [List.mem_append, List.mem_cons, not_or]
    exact ⟨⟨by decide, by decide, List.not_mem_nil⟩, hhead, by decide, hstatus⟩
  have hfield : tokens (isByte 58) (status on) = [status on] := by cases on <;> rfl
  rw [colon_eq, split_eq_tokens hnul (by decide), heq, tokens_field_append (by decide) (by decide),
    tokens_append_cons (by decide), hfield]

theorem colon_not_mem_status (on : Bool) : (58 : UInt8) ∉ status on := by
  cases on <;> decide

theorem chatHead_ne_nil (user_name ip_addr : Bytes) : chatHead user_name ip_addr ≠ [] :=
  List.cons_ne_nil _ _

theorem colon_not_mem_chatHead {name : CString} {ip : Ip} (h : (58 : UInt8) ∉ name.bytes) :
    (58 : UInt8) ∉ chatHead name.bytes ip.dotted := by
  simp only [chatHead, List.mem_append, not_or]
  exact ⟨⟨⟨by decide, h⟩, by decide⟩, colon_not_mem_dotted ip⟩

/-- What is shown of two fields has one `:`. -/
theorem count_fields {t u : Bytes} (ht : (58 : UInt8) ∉ t) (hu : (58 : UInt8) ∉ u) :
    (t ++ colon ++ u).count 58 = 1 := by
  rw [List.count_append, List.count_append, List.count_eq_zero.mpr ht, List.count_eq_zero.mpr hu]
  rfl

/-- A message whose name holds a `:` has a second one before its status. -/
theorem count_chatMsg {user_name : Bytes} (h : (58 : UInt8) ∈ user_name) (ip_addr : Bytes)
    (on : Bool) :
    2 ≤ (chatMsg user_name ip_addr on).count 58 := by
  have hname : 0 < user_name.count 58 := List.count_pos_iff.mpr h
  rw [chatMsg_eq, chatHead]
  simp only [List.count_append, List.count_singleton_self]
  omega

/-- A client always finds the two fields it shows, and they hold no `:`. -/
theorem shown_fields (name : CString) (ip : Ip) (on : Bool) :
    ∃ t1 t2, shown (relayed (chatMsg name.bytes ip.dotted on)) = some (t1 ++ colon ++ t2) ∧
      (58 : UInt8) ∉ t1 ∧ (58 : UInt8) ∉ t2 := by
  have hsplit := split_relayed name ip on
  rw [tokens_takeWhile (chatHead_ne_nil _ _) (by rintro x ⟨⟩; rfl), List.cons_append] at hsplit
  set t1 := (chatHead name.bytes ip.dotted).takeWhile (!isByte 58 ·) with ht1
  set ts := tokens (isByte 58) ((chatHead name.bytes ip.dotted).dropWhile (!isByte 58 ·)).tail with hts
  have h1 : (58 : UInt8) ∉ t1 := fun h => by simpa [isByte] using List.mem_takeWhile_imp h
  obtain ⟨t2, rest, hrest⟩ : ∃ t2 rest, ts ++ [status on] = t2 :: rest :=
    List.exists_cons_of_ne_nil (by simp)
  have h2 : (58 : UInt8) ∉ t2 := by
    have hmem : t2 ∈ ts ++ [status on] := hrest ▸ List.mem_cons_self
    rcases List.mem_append.mp hmem with hmem | hmem
    · exact not_mem_of_mem_tokens hmem
    · rw [List.mem_singleton.mp hmem]
      exact colon_not_mem_status on
  refine ⟨t1, t2, ?_, h1, h2⟩
  rw [hrest] at hsplit
  rw [shown, hsplit]
  rfl

theorem shown_of_colon_free {name : CString} (h : (58 : UInt8) ∉ name.bytes) (ip : Ip) (on : Bool) :
    shown (relayed (chatMsg name.bytes ip.dotted on)) = some (chatMsg name.bytes ip.dotted on) := by
  have hsplit := split_relayed name ip on
  rw [tokens_field (chatHead_ne_nil _ _) (colon_not_mem_chatHead h)] at hsplit
  rw [shown, hsplit, chatMsg_eq]
  rfl

/-- **Chat text round trip**: a client that receives a relayed chat message always finds the two
fields it shows, and shows the message as it was pushed exactly when the name holds no `:`. -/
theorem shown_relayed (name : CString) (ip : Ip) (on : Bool) :
    ∃ t, shown (relayed (chatMsg name.bytes ip.dotted on)) = some t ∧
      (t = chatMsg name.bytes ip.dotted on ↔ (58 : UInt8) ∉ name.bytes) := by
  obtain ⟨t1, t2, hshown, h1, h2⟩ := shown_fields name ip on
  refine ⟨t1 ++ colon ++ t2, hshown, fun heq hname => ?_, fun hname => ?_⟩
  · -- what is shown has one `:`, the message has two
    have hone := count_fields h1 h2
    have htwo := count_chatMsg hname ip.dotted on
    rw [heq] at hone
    omega
  · exact Option.some.inj (hshown.symm.trans (shown_of_colon_free hname ip on))

end Fssn.P2p
