import Fssn.Lib.Pipes
import Fssn.Lib.Transition
import Fssn.P2p.Dechat

/-!
# Fssn.Zmq.Relay — the relay loops

Three programs pull messages from a PULL socket and publish them on a PUB socket: the two
pub-sub/pull-push servers (lec-05-prg-05 and -07), which copy the bytes back into the message they
received, and `relay_server_nameserver` of the p2p chat, which puts `RELAY:` in front and copies the
result into a new message.  A step of a loop is one statement.

`relay_faithful`: in every run of any number of senders and one of these loops, after each iteration
the published messages are the pulled ones in pull order, each rewritten as the program does it.
-/

namespace Fssn.Zmq.Relay

open Fssn.Lib

inductive Program
  | pubSubServer
  | pubSubServerV2
  | relayServer
deriving DecidableEq

/-- What the loop prints in front of a message. -/
def Program.banner : Program → Bytes
  | .pubSubServer => ascii "I: publishing update "
  | .pubSubServerV2 => ascii "Server: publishing update => "
  | .relayServer => ascii "p2p-relay:<==>"

/-- `memcpy(dst, src, n)` -/
def memcpy (dst src : Bytes) (n : ℕ) : Bytes := src.take n ++ dst.drop n

inductive Pc
  | recv
  | copy
  | print
  | rebuild
  | alloc
  | fill
  | send
deriving DecidableEq

/-- The variables of a relay loop: the message it receives into, the string, the message it makes. -/
structure Vars where
  pc : Pc
  msg : Bytes
  text : Bytes
  sendMsg : Bytes
  out : Bytes

/-- The statement at the program counter, the receive apart, and what it publishes.  A new message
holds the bytes `fresh` until it is filled; a message that was sent is empty. -/
def statement (p : Program) (v : Vars) (fresh : Bytes) : Option (Vars × List Bytes) :=
  match v.pc with
  | .recv => none
  | .copy => some ({ v with text := v.msg, pc := .print }, [])
  | .print =>
    some ({ v with
      out := v.out ++ p.banner ++ v.text ++ ascii "\n"
      pc := if p = .relayServer then .rebuild else .fill }, [])
  | .rebuild => some ({ v with text := ascii "RELAY:" ++ v.text, pc := .alloc }, [])
  | .alloc =>
    if fresh.length = v.text.length then some ({ v with sendMsg := fresh, pc := .fill }, [])
    else none
  | .fill =>
    if p = .relayServer then
      some ({ v with sendMsg := memcpy v.sendMsg v.text v.text.length, pc := .send }, [])
    else some ({ v with msg := memcpy v.msg v.text v.text.length, pc := .send }, [])
  | .send =>
    if p = .relayServer then some ({ v with sendMsg := [], pc := .recv }, [v.sendMsg])
    else some ({ v with msg := [], pc := .recv }, [v.msg])

structure State (ι : Type*) where
  pipes : Pipes ι Bytes
  relay : Vars
  published : List Bytes

/-- A sender pushes a payload, the relay pulls one, or it executes another statement. -/
inductive Action (ι : Type*)
  | push (i : ι) (payload : Bytes)
  | recv (i : ι)
  | run (fresh : Bytes)

variable {ι : Type*} [DecidableEq ι]

def step (p : Program) (s : State ι) (a : Action ι) : Option (State ι) :=
  match a with
  | .push i payload => some { s with pipes := s.pipes.push i payload }
  | .recv i =>
    if s.relay.pc = .recv then
      (s.pipes.pull i).map fun r =>
        { s with pipes := r.2, relay := { s.relay with msg := r.1, pc := .copy } }
    else none
  | .run fresh =>
    (statement p s.relay fresh).map fun r =>
      { s with relay := r.1, published := s.published ++ r.2 }

/-- The senders and the relay, before anything was pushed. -/
def relay (p : Program) : System (State ι) (Action ι) where
  init := ⟨.empty, ⟨.recv, [], [], [], []⟩, []⟩
  step := step p

/-! ### The law -/

/-- What the program publishes for a payload. -/
def Program.rewritten : Program → Bytes → Bytes
  | .relayServer, m => P2p.relayed m
  | _, m => m

/-- After an iteration the published messages are the pulled ones, rewritten, in pull order; and at
any time those that came from a sender are, in its order, the first of what it pushed. -/
structure Faithful (p : Program) (s : State ι) : Prop where
  iteration : s.relay.pc = .recv → s.published = s.pipes.pulled.map fun x => p.rewritten x.2
  perSender : ∀ i, Pipes.cameFrom i ((s.pipes.pulled.map Prod.fst).zip s.published) <+:
    (s.pipes.pushed i).map p.rewritten

/-! ### The invariant -/

/-- What the variables hold of the payload `m` that was pulled last and is not published yet. -/
def Holds (p : Program) (v : Vars) (m : Bytes) : Prop :=
  match v.pc with
  | .recv => False
  | .copy => v.msg = m
  | .print => v.msg = m ∧ v.text = m
  | .rebuild => p = .relayServer ∧ v.text = m
  | .alloc => p = .relayServer ∧ v.text = P2p.relayed m
  | .fill =>
    if p = .relayServer then v.text = P2p.relayed m ∧ v.sendMsg.length = v.text.length
    else v.msg = m ∧ v.text = m
  | .send => (if p = .relayServer then v.sendMsg else v.msg) = p.rewritten m

/-- The pulled payloads `done` are published; of the one behind them, if there is one, the variables
hold what it takes. -/
structure Inv (p : Program) (s : State ι) : Prop where
  fifo : s.pipes.Fifo
  published : ∃ done cur, s.pipes.pulled = done ++ cur ∧
    s.published = done.map (fun x => p.rewritten x.2) ∧
    (s.relay.pc = .recv ∧ cur = [] ∨ ∃ x, cur = [x] ∧ Holds p s.relay x.2)

theorem memcpy_all {dst src : Bytes} (h : dst.length = src.length) :
    memcpy dst src src.length = src := by
  rw [memcpy, List.take_length, ← h, List.drop_length, List.append_nil]

theorem Program.rewritten_of_ne {p : Program} (h : p ≠ .relayServer) (m : Bytes) :
    p.rewritten m = m := by
  cases p with
  | pubSubServer => rfl
  | pubSubServerV2 => rfl
  | relayServer => exact absurd rfl h

/-- **One statement**: before the send it takes the payload a step further and publishes nothing, the
send publishes it rewritten. -/
theorem statement_holds {p : Program} {v w : Vars} {fresh m : Bytes} {o : List Bytes}
    (h : Holds p v m) (hs : statement p v fresh = some (w, o)) :
    o = [] ∧ Holds p w m ∨ o = [p.rewritten m] ∧ w.pc = .recv := by
  unfold statement at hs
  unfold Holds at h
  split at hs
  case h_1 => exact absurd hs (by simp)
  case h_2 hpc =>
    cases hs
    rw [hpc] at h
    exact Or.inl ⟨rfl, h, h⟩
  case h_3 hpc =>
    cases hs
    rw [hpc] at h
    by_cases hp : p = .relayServer
    · simp only [Holds, if_pos hp]
      exact Or.inl ⟨trivial, hp, h.2⟩
    · simp only [Holds, if_neg hp]
      exact Or.inl ⟨trivial, h⟩
  case h_4 hpc =>
    cases hs
    rw [hpc] at h
    exact Or.inl ⟨rfl, h.1, by rw [h.2]; rfl⟩
  case h_5 hpc =>
    split_ifs at hs with hlen
    cases hs
    rw [hpc] at h
    simp only [Holds, if_pos h.1]
    exact Or.inl ⟨trivial, h.2, hlen⟩
  case h_6 hpc =>
    rw [hpc] at h
    split_ifs at hs with hp
    · cases hs
      dsimp only at h
      rw [if_pos hp] at h
      simp only [Holds, if_pos hp]
      refine Or.inl ⟨trivial, ?_⟩
      rw [memcpy_all h.2, h.1, hp]
      rfl
    · cases hs
      dsimp only at h
      rw [if_neg hp] at h
      simp only [Holds, if_neg hp]
      refine Or.inl ⟨trivial, ?_⟩
      rw [h.1, h.2, memcpy_all rfl, Program.rewritten_of_ne hp]
  case h_7 hpc =>
    rw [hpc] at h
    dsimp only at h
    split_ifs at hs with hp
    · cases hs
      rw [if_pos hp] at h
      exact Or.inr ⟨by rw [h], rfl⟩
    · cases hs
      rw [if_neg hp] at h
      exact Or.inr ⟨by rw [h], rfl⟩

variable {p : Program} {s t : State ι}

theorem inv_init : Inv p (relay p : System (State ι) (Action ι)).init where
  fifo := Pipes.Fifo.empty
  published := ⟨[], [], rfl, rfl, Or.inl ⟨rfl, rfl⟩⟩

theorem inv_step {a : Action ι} (hi : Inv p s) (hs : (relay p).step s a = some t) : Inv p t := by
  obtain ⟨done, cur, hpulled, hpub, hcur⟩ := hi.published
  change step p s a = some t at hs
  cases a with
  | push i payload =>
    cases hs
    exact ⟨hi.fifo.push i payload, done, cur, hpulled, hpub, hcur⟩
  | recv i =>
    rw [step] at hs
    split_ifs at hs with hpc
    obtain ⟨⟨x, Q⟩, hpull, rfl⟩ := Option.map_eq_some_iff.mp hs
    obtain ⟨-, hpulled', -, -⟩ := Pipes.pull_some hpull
    -- at the receive nothing is in hand
    have hnil : cur = [] := by
      rcases hcur with ⟨-, rfl⟩ | ⟨y, -, hy⟩
      · rfl
      · unfold Holds at hy
        rw [hpc] at hy
        exact hy.elim
    refine ⟨hi.fifo.pull hpull, done, [(i, x)], ?_, hpub, Or.inr ⟨(i, x), rfl, rfl⟩⟩
    dsimp only
    rw [hpulled', hpulled, hnil, List.append_nil]
  | run fresh =>
    obtain ⟨⟨w, o⟩, hst, rfl⟩ := Option.map_eq_some_iff.mp hs
    rcases hcur with ⟨hpc, -⟩ | ⟨x, rfl, hx⟩
    · rw [statement, hpc] at hst
      exact absurd hst (by simp)
    · rcases statement_holds hx hst with ⟨rfl, hw⟩ | ⟨rfl, hpc⟩
      · refine ⟨hi.fifo, done, [x], hpulled, ?_, Or.inr ⟨x, rfl, hw⟩⟩
        dsimp only
        rw [List.append_nil, hpub]
      · refine ⟨hi.fifo, done ++ [x], [], ?_, ?_, Or.inl ⟨hpc, rfl⟩⟩
        · rw [hpulled, List.append_nil]
        · dsimp only
          rw [hpub, List.map_append]
          rfl

theorem Inv.faithful (hi : Inv p s) : Faithful p s := by
  obtain ⟨done, cur, hpulled, hpub, hcur⟩ := hi.published
  refine ⟨fun hpc => ?_, fun i => ?_⟩
  · rcases hcur with ⟨-, rfl⟩ | ⟨x, -, hx⟩
    · rw [hpub, hpulled, List.append_nil]
    · unfold Holds at hx
      rw [hpc] at hx
      exact hx.elim
  · have hzip : (s.pipes.pulled.map Prod.fst).zip s.published =
        done.map fun x => (x.1, p.rewritten x.2) := by
      have hcut : (done.map Prod.fst ++ cur.map Prod.fst).zip
          (done.map (fun x => p.rewritten x.2) ++ []) =
          (done.map Prod.fst).zip (done.map fun x => p.rewritten x.2) ++
            (cur.map Prod.fst).zip [] :=
        List.zip_append (by rw [List.length_map, List.length_map])
      rw [List.append_nil] at hcut
      rw [hpulled, hpub, List.map_append, hcut, List.zip_nil_right, List.append_nil, List.zip_map']
    rw [hzip, Pipes.cameFrom_map]
    refine List.IsPrefix.map _ ?_
    have hpre := hi.fifo.cameFrom_pulled i
    rw [hpulled, Pipes.cameFrom_append] at hpre
    exact (List.prefix_append _ _).trans hpre

/-- **Relays neither lose, invent, alter nor reorder.** -/
theorem relay_faithful (p : Program) (as : List (Action ι)) : (relay p).Always (Faithful p) as :=
  (System.always_of_step inv_init (fun _ _ _ => inv_step) as).imp fun _ => Inv.faithful

end Fssn.Zmq.Relay
