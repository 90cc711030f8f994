import Fssn.Lib.Feed
import Fssn.Zmq.Weather

/-!
# Fssn.Zmq.WeatherReports — the weather server and any number of subscribers

`lec-05-prg-03` around which clients of `lec-05-prg-04` come and go: each has an argument of its own,
its subscription arrives at some time, and from then on the messages that begin with its filter are put
into its queue.  A message in a queue is written as the reading it was made of.

`weather_reports`: in every state of every run a client has printed the lines of the first readings for
its filter since its subscription, behind 20 of them their average; no pass of its loop fails, and the
server can always bring it to its average.
-/

namespace Fssn.Zmq.Weather

open Fssn.Lib

/-- A client: its variables, the passes its loop has made, and whether it has printed the average. -/
structure Subscriber where
  client : Client
  i : ℕ
  left : Bool

structure State (ι : Type*) where
  published : List Reading
  feed : Feed ι Reading
  clients : ι → Subscriber

inductive Action (ι : Type*)
  | publish (d : Draws)
  | subscribe (c : ι)
  | pass (c : ι)
  | average (c : ι)

/-- The filter of the client `c` lets the message through. -/
def passes {ι : Type*} (argv1 : ι → Option CString) (c : ι) (r : Reading) : Bool :=
  decide (filter (argv1 c) <+: r.input)

section Step

variable {ι : Type*} [DecidableEq ι] (argv1 : ι → Option CString)

def step (s : State ι) : Action ι → Option (State ι)
  | .publish d => some { s with
      published := s.published ++ [update d]
      feed := s.feed.publish (fun c => passes argv1 c (update d)) (update d) }
  | .subscribe c => some { s with feed := s.feed.subscribe c s.published.length }
  | .pass c =>
    if (s.clients c).i < 20 then
      (s.feed.take c).bind fun x =>
        (receive (s.clients c).client x.1.input).map fun v => { s with
          feed := x.2
          clients := Function.update s.clients c ⟨v, (s.clients c).i + 1, false⟩ }
    else none
  | .average c =>
    if (s.clients c).i = 20 ∧ (s.clients c).left = false then
      let v := (s.clients c).client
      some { s with
        clients := Function.update s.clients c ⟨{ v with out := v.out ++ averageLine v }, 20, true⟩ }
    else none

def weather : System (State ι) (Action ι) where
  init := ⟨[], .empty, fun _ => ⟨collect.init, 0, false⟩⟩
  step := step argv1

end Step

/-! ### The law -/

/-- The line for a reading. -/
def Reading.line (r : Reading) : Bytes :=
  ascii "Receive temperature for zipcode '" ++ toStringInt r.zipcode.toInt ++ ascii "' was " ++
    toStringInt r.temperature.toInt ++ ascii " F\n"

/-- The line for the average of some readings; it names the zip code of the last one. -/
def average (rs : List Reading) : Bytes :=
  ascii "Average temperature for zipcode '" ++
    (rs.getLast?.map fun r => toStringInt r.zipcode.toInt).getD [] ++ ascii "' was " ++
    toStringInt ((tempSum rs).tdiv 20) ++ ascii " F\n"

/-- What a client has printed when it has received the readings `rs`. -/
def transcript (rs : List Reading) (left : Bool) : Bytes :=
  ascii "Collecting updates from weather server...\n" ++ rs.flatMap Reading.line ++
    if left then average rs else []

section Law

variable {ι : Type*} [DecidableEq ι]

/-- The readings for the filter of `c` since its subscription. -/
def State.matching (argv1 : ι → Option CString) (s : State ι) (c : ι) : List Reading :=
  (s.feed.part s.published c).filter (passes argv1 c)

structure Reports (argv1 : ι → Option CString) (s : State ι) : Prop where
  out : ∀ c, (s.clients c).client.out =
    transcript ((s.matching argv1 c).take (s.clients c).i) (s.clients c).left
  bound : ∀ c, (s.clients c).i ≤ 20 ∧ (s.clients c).i ≤ (s.matching argv1 c).length ∧
    ((s.clients c).left = true → (s.clients c).i = 20)
  /-- No pass fails: a client that waits for a reading takes the next one. -/
  goes_on : ∀ c, (s.clients c).i < 20 → (s.clients c).i < (s.matching argv1 c).length →
    ∃ t, (weather argv1).step s (.pass c) = some t
  /-- A subscriber to a zip code of the server can always come to its average. -/
  completes : ∀ c z, filter (argv1 c) = decimal z → 1 ≤ z → z ≤ 100000 → s.feed.since c ≠ none →
    (weather argv1).Reaches s fun t => (t.clients c).left = true
  /-- Clients with one argument and one time of subscription print the same. -/
  agree : ∀ c d, argv1 c = argv1 d → s.feed.since c = s.feed.since d →
    (s.clients c).left = true → (s.clients d).left = true →
      (s.clients c).client.out = (s.clients d).client.out

end Law

/-! ### One client -/

/-- The client has received the readings `rs` and no others. -/
structure Wrote (rs : List Reading) (u : Subscriber) : Prop where
  collected : Collected rs u.client
  zipcode : ∀ r, rs.getLast? = some r → u.client.zipcode = toStringInt r.zipcode.toInt
  count : rs.length = u.i
  bound : u.i ≤ 20
  left : u.left = true → u.i = 20
  out : u.client.out = transcript rs u.left

theorem wrote_init : Wrote [] ⟨collect.init, 0, false⟩ where
  collected := ⟨rfl, rfl⟩
  zipcode _ h := absurd h (by simp)
  count := rfl
  bound := Nat.zero_le _
  left h := absurd h (by simp)
  out := rfl

theorem receive_out {c c' : Client} {r : Reading} (h : receive c r.input = some c') :
    c'.out = c.out ++ r.line := by
  unfold receive at h
  simp only [split_input, List.getElem?_cons_zero, List.getElem?_cons_succ, stoi_toStringInt,
    Option.bind_some] at h
  obtain ⟨v, -, rfl⟩ := Option.map_eq_some_iff.mp h
  simp only [Reading.line, List.append_assoc]

/-- A pass takes the next reading in. -/
theorem Wrote.pass {rs : List Reading} {u : Subscriber} (h : Wrote rs u) (hi : u.i < 20) (r : Reading) :
    ∃ v, receive u.client r.input = some v ∧ Wrote (rs ++ [r]) ⟨v, u.i + 1, false⟩ := by
  -- fewer than 20 temperatures stay far from the bounds of a `long`
  have hsum := tempSum_bounds rs
  have hlow := r.temperature.le_toInt
  have hhigh := r.temperature.toInt_lt
  have hcount := h.count
  have htotal := h.collected.total
  obtain ⟨v, hv, htotal', hzip, hadded⟩ :=
    receive_input (c := u.client) (r := r) (by omega) (by omega)
  refine ⟨v, hv, ⟨?_, ?_⟩, ?_, ?_, hi, ?_, ?_⟩
  · rw [htotal', htotal, tempSum_concat]
  · rw [hadded, h.collected.added, List.map_append]
    rfl
  · intro q hq
    rw [List.getLast?_concat] at hq
    rw [← Option.some.inj hq]
    exact hzip
  · rw [List.length_append, hcount]
    rfl
  · exact fun hleft => absurd hleft (by simp)
  · have hnot : u.left = false := by
      by_contra hleft
      have := h.left (by simpa using hleft)
      omega
    rw [receive_out hv, h.out, hnot]
    simp only [transcript, List.flatMap_append, List.flatMap_singleton, List.append_assoc,
      Bool.false_eq_true, if_false, List.append_nil]

/-- Behind its loop it prints the average. -/
theorem Wrote.average {rs : List Reading} {u : Subscriber} (h : Wrote rs u) (hi : u.i = 20)
    (hleft : u.left = false) :
    Wrote rs ⟨{ u.client with out := u.client.out ++ averageLine u.client }, 20, true⟩ := by
  refine ⟨⟨h.collected.total, h.collected.added⟩, h.zipcode, h.count.trans hi, le_rfl, fun _ => rfl, ?_⟩
  have hzip : (rs.getLast?.map fun r => toStringInt r.zipcode.toInt).getD [] = u.client.zipcode := by
    cases hlast : rs.getLast? with
    | none =>
      have hlen := h.count
      rw [List.getLast?_eq_none_iff.mp hlast] at hlen
      exact absurd (hlen.trans hi) (by simp)
    | some r => exact (h.zipcode r hlast).symm
  have hline : averageLine u.client = Weather.average rs := by
    unfold averageLine Weather.average
    rw [hzip, average_eq h.collected]
  show u.client.out ++ averageLine u.client = _
  rw [h.out, hleft, hline]
  simp only [transcript, Bool.false_eq_true, if_false, if_true, List.append_nil]

/-! ### The invariant -/

section Inv

variable {ι : Type*} {argv1 : ι → Option CString} {s t : State ι}

/-- Holds in every reachable state. -/
structure Inv (argv1 : ι → Option CString) (s : State ι) : Prop where
  feed : s.feed.Filtered (passes argv1) s.published
  wrote : ∀ c, Wrote (s.feed.got c) (s.clients c)

/-- What a client has received are the first readings for its filter. -/
theorem Inv.got_eq (hi : Inv argv1 s) (c : ι) :
    s.feed.got c = (s.matching argv1 c).take (s.clients c).i := by
  rw [State.matching, ← hi.feed.reads c, ← (hi.wrote c).count, List.take_left]

/-- A reading that was not received waits in the queue. -/
theorem Inv.waits (hi : Inv argv1 s) {c : ι} (h : (s.clients c).i < (s.matching argv1 c).length) :
    s.feed.waiting c ≠ [] := by
  intro hnil
  have hreads := hi.feed.reads c
  rw [hnil, List.append_nil] at hreads
  rw [State.matching, ← hreads, (hi.wrote c).count] at h
  exact absurd h (lt_irrefl _)

variable [DecidableEq ι]

theorem inv_init : Inv argv1 (weather argv1).init where
  feed := .empty
  wrote _ := wrote_init

theorem inv_step {a : Action ι} (hi : Inv argv1 s) (h : (weather argv1).step s a = some t) :
    Inv argv1 t := by
  change step argv1 s a = some t at h
  cases a with
  | publish d =>
    obtain rfl := Option.some.inj h
    exact ⟨hi.feed.publish (update d), hi.wrote⟩
  | subscribe c =>
    obtain rfl := Option.some.inj h
    exact ⟨hi.feed.subscribe c, hi.wrote⟩
  | pass c =>
    rw [step] at h
    split_ifs at h with hlt
    obtain ⟨⟨r, F⟩, htake, h⟩ := Option.bind_eq_some_iff.mp h
    obtain ⟨v, hv, rfl⟩ := Option.map_eq_some_iff.mp h
    obtain ⟨-, -, -, hgot, hother⟩ := Feed.take_some htake
    refine ⟨hi.feed.take htake, fun d => ?_⟩
    dsimp only
    by_cases hd : d = c
    · subst hd
      obtain ⟨w, hw, hwrote⟩ := (hi.wrote d).pass hlt r
      obtain rfl := Option.some.inj (hv.symm.trans hw)
      rw [Function.update_self, hgot]
      exact hwrote
    · rw [Function.update_of_ne hd, (hother d hd).2]
      exact hi.wrote d
  | average c =>
    rw [step] at h
    split_ifs at h with hlast
    obtain rfl := Option.some.inj h
    refine ⟨hi.feed, fun d => ?_⟩
    dsimp only
    by_cases hd : d = c
    · subst hd
      rw [Function.update_self]
      exact (hi.wrote d).average hlast.1 hlast.2
    · rw [Function.update_of_ne hd]
      exact hi.wrote d

/-- A pass takes the next reading off the queue. -/
theorem pass_some (hi : Inv argv1 s) {c : ι} (hlt : (s.clients c).i < 20)
    (h : (s.clients c).i < (s.matching argv1 c).length) :
    ∃ t, (weather argv1).step s (.pass c) = some t ∧ (t.clients c).i = (s.clients c).i + 1 ∧
      t.feed.since = s.feed.since := by
  obtain ⟨r, q, hw⟩ := List.exists_cons_of_ne_nil (hi.waits h)
  obtain ⟨v, hv, -⟩ := (hi.wrote c).pass hlt r
  obtain ⟨F, hF⟩ : ∃ F, s.feed.take c = some (r, F) := ⟨_, by rw [Feed.take, hw]⟩
  refine ⟨{ s with
    feed := F
    clients := Function.update s.clients c ⟨v, (s.clients c).i + 1, false⟩ }, ?_, ?_, ?_⟩
  · show step argv1 s (.pass c) = _
    rw [step, if_pos hlt, hF, Option.bind_some, hv, Option.map_some]
  · dsimp only
    rw [Function.update_self]
  · exact (Feed.take_some hF).1

/-- The server publishes a reading for the zip code. -/
theorem publish_matching (hi : Inv argv1 s) {c : ι} {z : ℕ} (hfilter : filter (argv1 c) = decimal z)
    (h1 : 1 ≤ z) (h2 : z ≤ 100000) (hsince : s.feed.since c ≠ none) :
    ∃ t, (weather argv1).step s (.publish (drawsOf z)) = some t ∧ t.clients = s.clients ∧
      t.feed.since = s.feed.since ∧ (s.clients c).i < (t.matching argv1 c).length := by
  refine ⟨_, rfl, rfl, rfl, ?_⟩
  obtain ⟨n, hn⟩ := Option.ne_none_iff_exists'.mp hsince
  have hpasses : passes argv1 c (update (drawsOf z)) = true := by
    refine decide_eq_true ?_
    rw [hfilter]
    exact (filter_prefix_iff (z := z) (drawsOf z)).mpr (by rw [zip_drawsOf h1 h2])
  have hbefore : (s.clients c).i ≤ (s.matching argv1 c).length := by
    rw [← (hi.wrote c).count, State.matching, ← hi.feed.reads c, List.length_append]
    exact Nat.le_add_right _ _
  unfold State.matching at hbefore ⊢
  dsimp only
  rw [Feed.part_publish hi.feed.joined _ _ hn, List.filter_append, List.length_append,
    List.filter_singleton, hpasses]
  exact Nat.lt_succ_of_le hbefore

theorem Inv.completes (hi : Inv argv1 s) {c : ι} {z : ℕ} (hfilter : filter (argv1 c) = decimal z)
    (h1 : 1 ≤ z) (h2 : z ≤ 100000) (hsince : s.feed.since c ≠ none) :
    (weather argv1).Reaches s fun t => (t.clients c).left = true := by
  induction hn : 20 - (s.clients c).i generalizing s with
  | zero =>
    have hlast : (s.clients c).i = 20 := by
      have := (hi.wrote c).bound
      omega
    cases hleft : (s.clients c).left with
    | true => exact .of_self hleft
    | false =>
      obtain ⟨t, ht⟩ : ∃ t, (weather argv1).step s (.average c) = some t :=
        ⟨_, by show step argv1 s (.average c) = _; rw [step, if_pos ⟨hlast, hleft⟩]⟩
      refine .of_step ht (.of_self ?_)
      change step argv1 s (.average c) = some t at ht
      rw [step, if_pos ⟨hlast, hleft⟩] at ht
      obtain rfl := Option.some.inj ht
      dsimp only
      rw [Function.update_self]
  | succ n ih =>
    obtain ⟨r, hr, hclients, hr', hlt⟩ := publish_matching hi hfilter h1 h2 hsince
    have hir := inv_step hi hr
    obtain ⟨t, ht, hcount, ht'⟩ := pass_some hir (c := c) (by rw [hclients]; omega) (hclients ▸ hlt)
    refine .of_step hr (.of_step ht (ih (inv_step hir ht) ?_ ?_))
    · rw [ht', hr']
      exact hsince
    · rw [hcount, hclients]
      omega

end Inv

/-- **Weather reports**, in every state of every run of the server and any clients. -/
theorem weather_reports {ι : Type*} [DecidableEq ι] (argv1 : ι → Option CString)
    (as : List (Action ι)) : (weather argv1).Always (Reports argv1) as := by
  refine (System.always_of_step inv_init (fun _ _ _ hi h => inv_step hi h) as).imp fun s hi => ?_
  have hout : ∀ c, (s.clients c).client.out =
      transcript ((s.matching argv1 c).take (s.clients c).i) (s.clients c).left := fun c => by
    rw [← hi.got_eq]
    exact (hi.wrote c).out
  refine ⟨hout, fun c => ⟨(hi.wrote c).bound, ?_, (hi.wrote c).left⟩,
    fun c hlt h => ?_, fun c z hz h1 h2 h => hi.completes hz h1 h2 h, fun c d hargv hsince hc hd => ?_⟩
  · rw [← (hi.wrote c).count, State.matching, ← hi.feed.reads c, List.length_append]
    exact Nat.le_add_right _ _
  · obtain ⟨t, ht, -⟩ := pass_some hi hlt h
    exact ⟨t, ht⟩
  · have hmatching : s.matching argv1 c = s.matching argv1 d := by
      unfold State.matching Feed.part passes
      rw [hargv, hsince]
    rw [hout, hout, hc, hd, (hi.wrote c).left hc, (hi.wrote d).left hd, hmatching]

end Fssn.Zmq.Weather
