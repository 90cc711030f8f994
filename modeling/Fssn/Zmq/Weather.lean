import Fssn.Lib.Decimal
import Fssn.Lib.Tokens
import Fssn.Lib.Transition

/-!
# Fssn.Zmq.Weather — the weather server and its subscriber

`lec-05-prg-03` publishes reports, `lec-05-prg-04` subscribes to a zip code, takes 20 reports apart
and prints the average of their temperatures.  The SUB socket hands over the messages that begin
with the filter.

* `report_decoding`: the client reads every report as it was made, and its average is the one of the
  20 temperatures.
* `subscription_exact_iff`: the filter has no end, so it lets through every zip code whose text
  extends the one asked for; the subscription is exact for the zip codes above 10000.
-/

namespace Fssn.Zmq.Weather

open Fssn.Lib

/-! ### The server -/

/-- The three variables of the server's loop. -/
structure Reading where
  zipcode : Int32
  temperature : Int32
  relhumidity : Int32
deriving DecidableEq

/-- The message of a reading, line 23. -/
def Reading.input (r : Reading) : Bytes :=
  toStringInt r.zipcode.toInt ++ ascii " " ++ toStringInt r.temperature.toInt ++ ascii " " ++
    toStringInt r.relhumidity.toInt

/-- A result of `rand()`. -/
abbrev Rand := Fin (2 ^ 31)

/-- The results of the three calls of one pass. -/
structure Draws where
  zipcode : Rand
  temperature : Rand
  relhumidity : Rand

/-- One pass of the server's loop. -/
def update (d : Draws) : Reading where
  zipcode := Int32.ofInt (d.zipcode.val % 100000 + 1)
  temperature := Int32.ofInt (d.temperature.val % 215 - 80)
  relhumidity := Int32.ofInt (d.relhumidity.val % 50 + 10)

/-! ### The client -/

/-- `split`: the `getline` loop. -/
def split (input : Bytes) (delimiter : UInt8) : List Bytes :=
  getlineAll (fun b => decide (b = delimiter)) input

/-- The client's variables and its output; `added` are the zip codes and temperatures of the reports
that have gone into `totalTemp`. -/
structure Client where
  totalTemp : Int64
  zipcode : Bytes
  out : Bytes
  added : List (Bytes × Int32)

/-- `totalTemp += t`; a signed overflow is undefined behaviour, `none`. -/
def addTemp (totalTemp : Int64) (t : Int32) : Option Int64 :=
  let v := totalTemp.toInt + t.toInt
  if -2 ^ 63 ≤ v ∧ v < 2 ^ 63 then some (Int64.ofInt v) else none

/-- One pass of the client's loop, lines 26–31.  `none` is an access behind the fields that `split`
has found, or the exception of `stoi`. -/
def receive (c : Client) (rpl : Bytes) : Option Client :=
  let received := split rpl 32
  match received[0]?, received[1]? with
  | some zipcode, some temperature =>
    (stoi temperature).bind fun t => (addTemp c.totalTemp t).map fun total =>
      { totalTemp := total
        zipcode := zipcode
        out := c.out ++ ascii "Receive temperature for zipcode '" ++ zipcode ++ ascii "' was " ++
          temperature ++ ascii " F\n"
        added := c.added ++ [(zipcode, t)] }
  | _, _ => none

/-- The client's loop, one received message a step. -/
def collect : System Client Bytes where
  init := ⟨0, [], ascii "Collecting updates from weather server...\n", []⟩
  step := receive

/-- The subscription: the argument or the default. -/
def filter (argv1 : Option CString) : Bytes :=
  match argv1 with
  | some a => a.bytes
  | none => ascii "10001"

/-- The messages the client receives in its 20 passes, of all that are published. -/
def replies (argv1 : Option CString) (published : List Bytes) : List Bytes :=
  (published.filter fun m => decide (filter argv1 <+: m)).take 20

/-- The client when it has received what there is. -/
def loop (argv1 : Option CString) (published : List Bytes) : Option Client :=
  collect.exec collect.init (replies argv1 published)

/-- The line behind the loop. -/
def averageLine (c : Client) : Bytes :=
  ascii "Average temperature for zipcode '" ++ c.zipcode ++ ascii "' was " ++
    toStringInt (c.totalTemp / 20).toInt ++ ascii " F\n"

/-- What `main` prints; it waits in its loop for the 20th report. -/
def main (argv1 : Option CString) (published : List Bytes) : Option Bytes :=
  (loop argv1 published).map fun c =>
    if (replies argv1 published).length = 20 then c.out ++ averageLine c else c.out

/-! ### One report -/

theorem space_not_mem (x : Int32) : (32 : UInt8) ∉ toStringInt x.toInt :=
  not_mem_toStringInt (by decide) _

/-- The client finds the three numbers of a report. -/
theorem split_input (r : Reading) : split r.input 32 =
    [toStringInt r.zipcode.toInt, toStringInt r.temperature.toInt,
      toStringInt r.relhumidity.toInt] := by
  have hfree : ∀ x : Int32, ∀ b ∈ toStringInt x.toInt, decide (b = 32) = false := fun x b hb =>
    decide_eq_false fun h => space_not_mem x (h ▸ hb)
  have heq : r.input = toStringInt r.zipcode.toInt ++ 32 :: (toStringInt r.temperature.toInt ++
      32 :: toStringInt r.relhumidity.toInt) := by
    unfold Reading.input
    rw [show ascii " " = [32] from rfl, List.append_assoc, List.append_assoc, List.append_assoc]
    rfl
  unfold split
  rw [heq, getlineAll_append_cons (by decide) (hfree _), getlineAll_append_cons (by decide) (hfree _),
    getlineAll_of_free (toStringInt_ne_nil _) (hfree _)]

theorem addTemp_eq {totalTemp : Int64} {t : Int32} (hlow : -2 ^ 63 ≤ totalTemp.toInt + t.toInt)
    (hhigh : totalTemp.toInt + t.toInt < 2 ^ 63) :
    ∃ v, addTemp totalTemp t = some v ∧ v.toInt = totalTemp.toInt + t.toInt := by
  refine ⟨Int64.ofInt (totalTemp.toInt + t.toInt), ?_, Int64.toInt_ofInt_of_le hlow hhigh⟩
  unfold addTemp
  rw [if_pos ⟨hlow, hhigh⟩]

/-- What a pass does with a report, as long as the sum is a `long`. -/
theorem receive_input {c : Client} {r : Reading}
    (hlow : -2 ^ 63 ≤ c.totalTemp.toInt + r.temperature.toInt)
    (hhigh : c.totalTemp.toInt + r.temperature.toInt < 2 ^ 63) :
    ∃ c', receive c r.input = some c' ∧
      c'.totalTemp.toInt = c.totalTemp.toInt + r.temperature.toInt ∧
      c'.zipcode = toStringInt r.zipcode.toInt ∧
      c'.added = c.added ++ [(toStringInt r.zipcode.toInt, r.temperature)] := by
  obtain ⟨v, hv, hsum⟩ := addTemp_eq hlow hhigh
  unfold receive
  simp only [split_input, List.getElem?_cons_zero, List.getElem?_cons_succ, stoi_toStringInt,
    Option.bind_some, hv, Option.map_some]
  exact ⟨_, rfl, hsum, rfl, rfl⟩

/-! ### All reports -/

/-- The sum of the temperatures. -/
def tempSum (rs : List Reading) : ℤ := (rs.map fun r => r.temperature.toInt).sum

theorem tempSum_concat (rs : List Reading) (r : Reading) :
    tempSum (rs ++ [r]) = tempSum rs + r.temperature.toInt := by
  simp [tempSum]

/-- Every temperature is an `int`, so a sum of `n` of them is below `2 ^ 31 * n`. -/
theorem tempSum_bounds (rs : List Reading) :
    -(2 ^ 31 * rs.length) ≤ tempSum rs ∧ tempSum rs ≤ 2 ^ 31 * rs.length := by
  induction rs using List.reverseRecOn with
  | nil => simp [tempSum]
  | append_singleton rs r ih =>
    have hlow := r.temperature.le_toInt
    have hhigh := r.temperature.toInt_lt
    rw [tempSum_concat, List.length_append, List.length_singleton]
    push_cast
    omega

/-- The client has read the reports `rs`, and no others. -/
structure Collected (rs : List Reading) (c : Client) : Prop where
  total : c.totalTemp.toInt = tempSum rs
  added : c.added = rs.map fun r => (toStringInt r.zipcode.toInt, r.temperature)

theorem exec_inputs {rs : List Reading} (hlen : rs.length ≤ 20) :
    ∃ c, collect.exec collect.init (rs.map Reading.input) = some c ∧ Collected rs c := by
  induction rs using List.reverseRecOn with
  | nil => exact ⟨_, rfl, rfl, rfl⟩
  | append_singleton rs r ih =>
    rw [List.length_append, List.length_singleton] at hlen
    obtain ⟨c, hc, htotal, hadded⟩ := ih (by omega)
    -- at most 20 temperatures stay far from the bounds of a `long`
    have hsum := tempSum_bounds rs
    have hlow := r.temperature.le_toInt
    have hhigh := r.temperature.toInt_lt
    obtain ⟨c', hc', htotal', -, hadded'⟩ :=
      receive_input (c := c) (r := r) (by omega) (by omega)
    refine ⟨c', ?_, ?_, ?_⟩
    · rw [List.map_append, List.map_singleton, System.exec_concat, hc]
      exact hc'
    · rw [htotal', htotal, tempSum_concat]
    · rw [hadded', hadded, List.map_append]
      rfl

/-- The readings that the client receives. -/
def received (argv1 : Option CString) (rs : List Reading) : List Reading :=
  (rs.filter fun r => decide (filter argv1 <+: r.input)).take 20

theorem replies_eq (argv1 : Option CString) (rs : List Reading) :
    replies argv1 (rs.map Reading.input) = (received argv1 rs).map Reading.input := by
  unfold replies received
  rw [List.filter_map, List.map_take]
  rfl

theorem length_received (argv1 : Option CString) (rs : List Reading) :
    (received argv1 rs).length ≤ 20 := by
  rw [received, List.length_take]
  omega

/-- The loop never fails, and takes in the readings received. -/
theorem loop_inputs (argv1 : Option CString) (rs : List Reading) :
    ∃ c, loop argv1 (rs.map Reading.input) = some c ∧ Collected (received argv1 rs) c := by
  unfold loop
  rw [replies_eq]
  exact exec_inputs (length_received argv1 rs)

theorem average_eq {rs : List Reading} {c : Client} (h : Collected rs c) :
    (c.totalTemp / 20).toInt = (tempSum rs).tdiv 20 := by
  rw [Int64.toInt_div_of_ne_right _ _ (by decide), h.total]
  rfl

/-- **Report decoding**: of every reading the client finds the three numbers and reads the temperature
back, its sum is the sum of the temperatures received, and after 20 reports it prints that sum divided
by 20 and truncated toward zero. -/
theorem report_decoding (argv1 : Option CString) (rs : List Reading) :
    (∀ r ∈ rs, split r.input 32 = [toStringInt r.zipcode.toInt, toStringInt r.temperature.toInt,
        toStringInt r.relhumidity.toInt] ∧
      stoi (toStringInt r.temperature.toInt) = some r.temperature) ∧
    ∃ c, loop argv1 (rs.map Reading.input) = some c ∧
      c.totalTemp.toInt = tempSum (received argv1 rs) ∧
      ((received argv1 rs).length = 20 → main argv1 (rs.map Reading.input) = some (c.out ++
        ascii "Average temperature for zipcode '" ++ c.zipcode ++ ascii "' was " ++
          toStringInt ((tempSum (received argv1 rs)).tdiv 20) ++ ascii " F\n")) := by
  refine ⟨fun r _ => ⟨split_input r, stoi_toStringInt r.temperature⟩, ?_⟩
  obtain ⟨c, hc, hcol⟩ := loop_inputs argv1 rs
  refine ⟨c, hc, hcol.total, fun hlen => ?_⟩
  have h20 : (replies argv1 (rs.map Reading.input)).length = 20 := by
    rw [replies_eq, List.length_map, hlen]
  unfold main averageLine
  rw [hc, Option.map_some, if_pos h20, average_eq hcol]
  simp only [List.append_assoc]

/-! ### What the filter lets through -/

/-- The zip code `z` as the program's argument. -/
def zipArg (z : ℕ) : CString := ⟨decimal z, nul_not_mem_decimal z⟩

/-- With the zip code `z` as argument, whatever the server publishes, the client adds temperatures of
`z` only. -/
def Exact (z : ℕ) : Prop := ∀ (ds : List Draws) (c : Client),
  loop (some (zipArg z)) (ds.map fun d => (update d).input) = some c → ∀ e ∈ c.added, e.1 = decimal z

/-- The number that a pass of the server draws for the zip code. -/
def Draws.zip (d : Draws) : ℕ := d.zipcode.val % 100000 + 1

theorem toStringInt_zipcode (d : Draws) : toStringInt (update d).zipcode.toInt = decimal d.zip := by
  have hzip : d.zip = d.zipcode.val % 100000 + 1 := rfl
  have hmod := Nat.mod_lt d.zipcode.val (show 0 < 100000 by omega)
  have hint : (update d).zipcode.toInt = (d.zip : ℤ) := by
    show (Int32.ofInt (d.zipcode.val % 100000 + 1)).toInt = _
    rw [Int32.toInt_ofInt_of_le (by omega) (by omega), hzip]
    omega
  rw [hint]
  rfl

example : (update ⟨0, 0, 0⟩).input = ascii "1 -80 10" := rfl

/-- The draws of a reading for the zip code `p`. -/
def drawsOf (p : ℕ) : Draws := ⟨Fin.ofNat _ (p - 1), 0, 0⟩

theorem zip_drawsOf {p : ℕ} (h1 : 1 ≤ p) (h2 : p ≤ 100000) : (drawsOf p).zip = p := by
  show (p - 1) % 2 ^ 31 % 100000 + 1 = p
  omega

/-- The filter compares texts of zip codes: the space behind the zip code is in no filter. -/
theorem filter_prefix_iff {z : ℕ} (d : Draws) :
    filter (some (zipArg z)) <+: (update d).input ↔ decimal z <+: decimal d.zip := by
  have hspace : (32 : UInt8) ∉ decimal z := not_mem_decimal (by decide) z
  have hinput : (update d).input = decimal d.zip ++ 32 :: (toStringInt (update d).temperature.toInt ++
      ascii " " ++ toStringInt (update d).relhumidity.toInt) := by
    unfold Reading.input
    rw [toStringInt_zipcode, show ascii " " = [32] from rfl]
    simp only [List.append_assoc, List.cons_append, List.nil_append]
  rw [hinput]
  constructor
  · intro h
    exact prefix_of_prefix_append_cons hspace h
  · intro h
    exact h.trans (List.prefix_append _ _)

/-- What is added are the zip codes whose text extends the one asked for. -/
theorem added_of_loop {z : ℕ} {ds : List Draws} {c : Client}
    (h : loop (some (zipArg z)) (ds.map fun d => (update d).input) = some c) :
    ∀ e ∈ c.added, ∃ d ∈ ds, e.1 = decimal d.zip ∧ decimal z <+: decimal d.zip := by
  have hmap : (ds.map fun d => (update d).input) = (ds.map update).map Reading.input := by
    rw [List.map_map]
    rfl
  obtain ⟨c', hc', hcol⟩ := loop_inputs (some (zipArg z)) (ds.map update)
  rw [hmap, hc'] at h
  obtain rfl := Option.some.inj h
  rw [hcol.added]
  intro e he
  obtain ⟨r, hr, rfl⟩ := List.mem_map.mp he
  obtain ⟨hmem, hpre⟩ := List.mem_filter.mp (List.mem_of_mem_take hr)
  obtain ⟨d, hd, rfl⟩ := List.mem_map.mp hmem
  exact ⟨d, hd, toStringInt_zipcode d, (filter_prefix_iff d).mp (of_decide_eq_true hpre)⟩

/-- One published reading, when the filter lets it through. -/
theorem loop_singleton {z : ℕ} {d : Draws} (h : decimal z <+: decimal d.zip) :
    ∃ c, loop (some (zipArg z)) [(update d).input] = some c ∧ ∃ e ∈ c.added, e.1 = decimal d.zip := by
  obtain ⟨c, hc, hcol⟩ := loop_inputs (some (zipArg z)) [update d]
  have hgot : received (some (zipArg z)) [update d] = [update d] := by
    have hpre : decide (filter (some (zipArg z)) <+: (update d).input) = true :=
      decide_eq_true ((filter_prefix_iff d).mpr h)
    unfold received
    rw [List.filter_singleton, hpre]
    rfl
  refine ⟨c, hc, (toStringInt (update d).zipcode.toInt, (update d).temperature), ?_,
    toStringInt_zipcode d⟩
  rw [hcol.added, hgot]
  exact List.mem_singleton_self _

/-- A reading of the zip code `10 * z` gets through the filter for `z`. -/
theorem not_exact {z : ℕ} (h1 : 1 ≤ z) (h2 : z ≤ 10000) : ¬ Exact z := by
  intro hexact
  have hzip : (drawsOf (10 * z)).zip = 10 * z := zip_drawsOf (by omega) (by omega)
  have hpre : decimal z <+: decimal (drawsOf (10 * z)).zip := by
    rw [hzip, ← Nat.add_zero (10 * z), ← decimal_append (by omega) (by omega)]
    exact List.prefix_append _ _
  obtain ⟨c, hc, e, he, heq⟩ := loop_singleton hpre
  have hz : decimal (10 * z) = decimal z := by
    rw [← hexact [drawsOf (10 * z)] c hc e he, heq, hzip]
  have := decimal_injective hz
  omega

/-- **The subscription to a zip code is exact if and only if the zip code is above 10000.** -/
theorem subscription_exact_iff (z : ℕ) (h1 : 1 ≤ z) (h2 : z ≤ 100000) : Exact z ↔ 10000 < z := by
  constructor
  · intro hexact
    by_contra hle
    exact not_exact h1 (by omega) hexact
  · intro hz ds c hc e he
    obtain ⟨d, -, heq, hpre⟩ := added_of_loop hc e he
    have hmax : d.zip ≤ 100000 := Nat.succ_le_of_lt (Nat.mod_lt _ (by omega))
    have hzip : z = d.zip := by
      by_contra hne
      have := ten_mul_le_of_prefix hpre hne
      omega
    rw [heq, ← hzip]

theorem subscription_exact_default : Exact 10001 ↔ 10000 < 10001 :=
  subscription_exact_iff 10001 (by omega) (by omega)

/-- A subscriber to 1000 is handed a reading for 10001. -/
theorem subscription_not_exact : ∃ c,
    loop (some (zipArg 1000)) [(update (drawsOf 10001)).input] = some c ∧
      ∃ e ∈ c.added, e.1 ≠ decimal 1000 := by
  have hzip : (drawsOf 10001).zip = 10001 := zip_drawsOf (by omega) (by omega)
  obtain ⟨c, hc, e, he, heq⟩ := loop_singleton (z := 1000) (d := drawsOf 10001) (by
    rw [hzip]
    exact ⟨decimal 1, decimal_append (m := 1000) (d := 1) (by omega) (by omega)⟩)
  refine ⟨c, hc, e, he, ?_⟩
  rw [heq, hzip]
  exact fun h => absurd (decimal_injective h) (by omega)

end Fssn.Zmq.Weather
