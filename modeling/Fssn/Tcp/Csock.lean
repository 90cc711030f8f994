import Fssn.Lib.Heap
import Fssn.Lib.Simulation
import Fssn.Tcp.EchoServer

/-!
# Fssn.Tcp.Csock — who frees the cells of the multithreaded TCP servers

`lec-03-prg-06` and `lec-03-prg-08` pass every descriptor in a cell of its own: `main` allocates it
before `accept` and hands it to the handler, which reads it whenever it names its descriptor and frees
it at `FINISH`, and once more before that if it leaves its loop by the loop's condition.

The cells are a layer over a server.  `Process` says of the server's steps what they do with a cell;
`system` runs the server together with the heap, with a step for each `malloc` and each `free`.  Using
a cell that is not there sets `fault`.  `memorySafe`: no run does, every cell is freed once at most, and
the server has the runs it has without the heap.
-/

namespace Fssn.Tcp.Csock

open Fssn.Lib
open ChatServer (MainPc)

variable {σ α : Type*}

/-- What a step of a server does with a cell: `*csock = accept(..)`, the same with the result -1, the
start of a handler, and a handler's statement, which may read `*server` and may leave the function,
with so many `free(server)` on its way. -/
inductive Access
  | accepted (fd : ℤ)
  | failed
  | passed
  | thread (k : ℕ) (reads : Bool) (frees : Option ℕ)
  | other

/-- A server as the cells see it; `threads` has for each handler its descriptor and whether it is
still in its function. -/
structure Process (σ α : Type*) where
  server : System σ α
  main : σ → MainPc
  threads : σ → List (ℤ × Bool)
  exited : σ → Bool
  access : σ → α → Access

namespace Process

/-- The step from `s` to `t` does what the access says. -/
def Does (P : Process σ α) (s t : σ) : Access → Prop
  | .accepted fd => P.main s = .accept ∧ P.main t = .count fd ∧ P.threads t = P.threads s
  | .failed => P.main s = .accept ∧ P.main t = .accept ∧ P.threads t = P.threads s
  | .passed => ∃ fd, P.main s = .create fd ∧ P.main t = .accept ∧
      P.threads t = P.threads s ++ [(fd, true)]
  | .thread k _ frees => ∃ fd, (P.threads s)[k]? = some (fd, true) ∧ P.main t = P.main s ∧
      (∀ n ∈ frees, n = 1) ∧ P.threads t = (P.threads s).set k (fd, frees.isNone)
  | .other => (P.main t).pending = (P.main s).pending ∧ P.threads t = P.threads s

/-- What a server has to keep for its cells to be safe. -/
structure Lawful (P : Process σ α) (I : σ → Prop) : Prop where
  init : I P.server.init ∧ P.main P.server.init = .accept ∧ P.threads P.server.init = []
  keeps : ∀ s a t, I s → P.server.step s a = some t → I t
  does : ∀ s a t, I s → P.server.step s a = some t → P.exited s = false ∧ P.Does s t (P.access s a)

end Process

/-! ### The cells -/

/-- A handler's variable `server`, and the `free`s it has before it, once it has left. -/
structure Cell where
  server : ℕ
  frees : Option ℕ

def Cell.owned (c : Cell) : Bool := decide (c.frees ≠ some 0)

/-- The addresses that the handlers hold. -/
def owners (cells : List Cell) : List ℕ := (cells.filter Cell.owned).map Cell.server

/-- The heap, `main`'s variable `csock` while it has a cell in it, the handlers' cells, and the cells
of the `accept`s that failed. -/
structure Mem where
  heap : Heap ℤ
  csock : Option ℕ
  cells : List Cell
  lost : List ℕ
  fault : Bool

namespace Mem

def store (m : Mem) (p : ℕ) (x : ℤ) : Mem :=
  match m.heap.store p x with
  | some H => { m with heap := H }
  | none => { m with fault := true }

def read (m : Mem) (p : ℕ) : Mem :=
  match m.heap.load p with
  | some _ => m
  | none => { m with fault := true }

def free (m : Mem) (p : ℕ) : Mem :=
  match m.heap.free p with
  | some H => { m with heap := H }
  | none => { m with fault := true }

/-- What an access does; `main` cannot be in `accept` without a cell. -/
def access (m : Mem) : Access → Option Mem
  | .accepted fd => m.csock.map fun p => m.store p fd
  | .failed => m.csock.map fun p => { m.store p (-1) with csock := none, lost := m.lost ++ [p] }
  | .passed => m.csock.map fun p => { m with csock := none, cells := m.cells ++ [⟨p, none⟩] }
  | .thread k reads frees => m.cells[k]?.map fun c =>
      { (if reads then m.read c.server else m) with cells := m.cells.set k { c with frees := frees } }
  | .other => some m

/-- The cells that someone still has: `main`, the handlers that have not freed theirs, and nobody. -/
def held (m : Mem) : List ℕ :=
  m.csock.toList ++ owners m.cells ++ m.lost

end Mem

/-- A `malloc` that returns the address `p`, a `free` of the handler `k`, or a step of the server. -/
inductive Action (α : Type*)
  | malloc (p : ℕ)
  | free (k : ℕ)
  | run (a : α)

def step (P : Process σ α) (s : σ × Mem) : Action α → Option (σ × Mem)
  | .malloc p =>
    if P.exited s.1 then none else
    match P.main s.1, s.2.csock with
    | .accept, none => (s.2.heap.malloc p).map fun H => (s.1, { s.2 with heap := H, csock := some p })
    | _, _ => none
  | .free k =>
    if P.exited s.1 then none else
    s.2.cells[k]?.bind fun c =>
      match c.frees with
      | some (n + 1) =>
        some (s.1, { s.2.free c.server with cells := s.2.cells.set k { c with frees := some n } })
      | _ => none
  | .run a => (P.server.step s.1 a).bind fun t => (s.2.access (P.access s.1 a)).map fun m => (t, m)

/-- A server and its heap. -/
def system (P : Process σ α) : System (σ × Mem) (Action α) where
  init := (P.server.init, ⟨Heap.empty, none, [], [], false⟩)
  step := step P

/-! ### The law -/

/-- No cell was used that was not there; the allocated cells are those that someone has; a handler
reads the descriptor it was started for, as long as it is in its function, and then frees its cell
once. -/
structure Safe (P : Process σ α) (s : σ × Mem) : Prop where
  fault : s.2.fault = false
  held : s.2.heap.Held s.2.held
  reads : ∀ (k : ℕ) fd, (P.threads s.1)[k]? = some (fd, true) →
    ∃ c : Cell, s.2.cells[k]? = some c ∧ c.frees = none ∧ s.2.heap.load c.server = some fd
  frees : ∀ (k : ℕ) fd, (P.threads s.1)[k]? = some (fd, false) →
    ∃ c : Cell, s.2.cells[k]? = some c ∧ (c.frees = some 1 ∨ c.frees = some 0)

/-- What can be seen of the server. -/
def seen : Action α → List α
  | .run a => [a]
  | _ => []

/-- Every run with the heap is safe, and the server's runs are those it has without. -/
structure MemorySafe (P : Process σ α) : Prop where
  safe : ∀ as, (system P).Always (Safe P) as
  without : ∀ as s, (system P).exec (system P).init as = some s →
    P.server.exec P.server.init (as.flatMap seen) = some s.1
  alongside : ∀ as s, P.server.exec P.server.init as = some s →
    ∃ bs m, (system P).exec (system P).init bs = some (s, m) ∧ bs.flatMap seen = as

/-! ### What a server's handlers hold -/

section Cells

variable {cells : List Cell} {c : Cell} {k : ℕ}

theorem owners_append (l r : List Cell) : owners (l ++ r) = owners l ++ owners r := by
  rw [owners, List.filter_append, List.map_append]
  rfl

theorem owners_of_owned (h : c.owned = true) : owners [c] = [c.server] := by
  rw [owners, List.filter_cons_of_pos h]
  rfl

theorem owners_of_freed (h : c.owned = false) : owners [c] = [] := by
  rw [owners, List.filter_cons_of_neg (by simp [h])]
  rfl

theorem mem_owners (hk : cells[k]? = some c) (h : c.owned = true) : c.server ∈ owners cells :=
  List.mem_map_of_mem (List.mem_filter.mpr ⟨List.mem_of_getElem? hk, h⟩)

/-- A handler that goes on holding its cell. -/
theorem owners_set (hk : cells[k]? = some c) {d : Cell} (hserver : d.server = c.server)
    (howned : d.owned = c.owned) : owners (cells.set k d) = owners cells := by
  obtain ⟨l, r, rfl, hset⟩ := exists_replace hk
  rw [hset, owners, owners, List.filter_append, List.filter_append, List.filter_cons,
    List.filter_cons, howned]
  split <;> simp [hserver]

/-- A handler that gives its cell up. -/
theorem owners_free (hk : cells[k]? = some c) (h : c.owned = true) {d : Cell}
    (hd : d.owned = false) : (owners cells).Perm (c.server :: owners (cells.set k d)) := by
  obtain ⟨l, r, rfl, hset⟩ := exists_replace hk
  have hcons : ∀ x : Cell, owners (l ++ x :: r) = owners l ++ (owners [x] ++ owners r) := by
    intro x
    rw [← List.singleton_append, owners_append, owners_append]
  rw [hset, hcons, hcons, owners_of_owned h, owners_of_freed hd]
  exact List.perm_middle

end Cells

/-! ### The invariant -/

/-- The cell of a handler with this descriptor, which is in its function or has left it. -/
def Fits (H : Heap ℤ) (c : Cell) (th : ℤ × Bool) : Prop :=
  if th.2 then c.frees = none ∧ H.load c.server = some th.1
  else c.frees = some 1 ∨ c.frees = some 0

theorem Fits.owned {H : Heap ℤ} {c : Cell} {fd : ℤ} (h : Fits H c (fd, true)) : c.owned = true := by
  rw [Cell.owned, h.1]
  rfl

/-- Holds in every reachable state. -/
structure Inv (P : Process σ α) (I : σ → Prop) (s : σ × Mem) : Prop where
  server : I s.1
  fault : s.2.fault = false
  held : s.2.heap.Held s.2.held
  main : ∀ fd ∈ (P.main s.1).pending, ∃ p, s.2.csock = some p ∧ s.2.heap.load p = some fd
  length : s.2.cells.length = (P.threads s.1).length
  cells : ∀ (k : ℕ) c th, s.2.cells[k]? = some c → (P.threads s.1)[k]? = some th → Fits s.2.heap c th

variable {P : Process σ α} {I : σ → Prop}

theorem inv_init (hP : P.Lawful I) : Inv P I (system P).init where
  server := hP.init.1
  fault := rfl
  held := Heap.Held.empty
  main fd hfd := by
    rw [show P.main (system P).init.1 = .accept from hP.init.2.1] at hfd
    exact absurd hfd List.not_mem_nil
  length := by
    rw [show P.threads (system P).init.1 = [] from hP.init.2.2]
    rfl
  cells k c th hk := by simp [system] at hk

/-- Handlers' cells fit as long as no cell of a handler in its function is written. -/
theorem Fits.frame {H K : Heap ℤ} {c : Cell} {th : ℤ × Bool} (h : Fits H c th)
    (hload : c.owned = true → K.load c.server = H.load c.server) : Fits K c th := by
  obtain ⟨fd, live⟩ := th
  cases live with
  | true => exact ⟨h.1, (hload h.owned).trans h.2⟩
  | false => exact h

section Step

variable {s t : σ} {m n : Mem}

theorem inv_malloc (hi : Inv P I (s, m)) (hmain : P.main s = .accept) (hnone : m.csock = none)
    {p : ℕ} {H : Heap ℤ} (hp : m.heap.malloc p = some H) :
    Inv P I (s, { m with heap := H, csock := some p }) := by
  obtain ⟨-, hheld, hload⟩ := hi.held.malloc hp
  refine ⟨hi.server, hi.fault, ?_, ?_, hi.length, fun k c th hk hth => ?_⟩
  · have hcons : Mem.held { m with heap := H, csock := some p } = p :: m.held := by
      simp only [Mem.held, hnone, Option.toList_some, Option.toList_none, List.nil_append,
        List.cons_append]
    rw [hcons]
    exact hheld
  · intro fd hfd
    rw [show P.main (s, _).1 = .accept from hmain] at hfd
    exact absurd hfd List.not_mem_nil
  · refine (hi.cells k c th hk hth).frame fun hc => hload _ ?_
    exact List.mem_append_left _ (List.mem_append_right _ (mem_owners hk hc))

theorem mem_held_of_cell {k : ℕ} {c : Cell} (hk : m.cells[k]? = some c) (h : c.owned = true) :
    c.server ∈ m.held :=
  List.mem_append_left _ (List.mem_append_right _ (mem_owners hk h))

theorem mem_held_of_csock {p : ℕ} (hp : m.csock = some p) : p ∈ m.held := by
  rw [Mem.held, hp]
  exact List.mem_append_left _ (List.mem_append_left _ List.mem_cons_self)

theorem inv_free (hi : Inv P I (s, m)) {k : ℕ} {c : Cell} {f : ℕ} (hk : m.cells[k]? = some c)
    (hf : c.frees = some (f + 1)) :
    Inv P I (s, { m.free c.server with cells := m.cells.set k { c with frees := some f } }) := by
  obtain ⟨⟨fd, live⟩, hth⟩ : ∃ th, (P.threads s)[k]? = some th := by
    have hlt := (List.getElem?_eq_some_iff.mp hk).1
    have hlen : m.cells.length = (P.threads s).length := hi.length
    exact ⟨_, List.getElem?_eq_getElem (hlen ▸ hlt)⟩
  have hfit := hi.cells k c _ hk hth
  cases live with
  | true => exact absurd (hfit.1.symm.trans hf) (by simp)
  | false =>
    -- the handler had one `free` before it
    obtain rfl : f = 0 := by
      rcases hfit with h1 | h0
      · simpa [hf] using h1
      · exact absurd (hf.symm.trans h0) (by simp)
    set d : Cell := { c with frees := some 0 } with hd
    have howned : c.owned = true := by simp [Cell.owned, hf]
    have hperm : m.held.Perm (c.server :: Mem.held { m with cells := m.cells.set k d }) := by
      have hcells := owners_free hk howned (d := d) rfl
      unfold Mem.held
      refine ((hcells.append_left _).append_right _).trans ?_
      rw [← List.cons_append]
      exact List.perm_middle.append_right _
    have hheld := hi.held.perm hperm
    obtain ⟨hnew, -⟩ := List.nodup_cons.mp hheld.nodup
    obtain ⟨K, hK, hheld, hload⟩ := hheld.free
    have hfree : m.free c.server = { m with heap := K } := by rw [Mem.free, hK]
    rw [hfree]
    refine ⟨hi.server, hi.fault, hheld, fun x hx => ?_, ?_, fun j e th hj hth' => ?_⟩
    · obtain ⟨p, hp, hpx⟩ := hi.main x hx
      refine ⟨p, hp, (hload p fun heq => hnew ?_).trans hpx⟩
      exact heq ▸ mem_held_of_csock (m := { m with cells := m.cells.set k d }) hp
    · dsimp only
      rw [List.length_set]
      exact hi.length
    · dsimp only at hj
      by_cases hjk : j = k
      · subst hjk
        rw [getElem?_set_of_some hk] at hj
        obtain rfl := Option.some.inj hj
        obtain rfl := Option.some.inj (hth.symm.trans hth')
        exact Or.inr rfl
      · have hj' := hj
        rw [getElem?_set_of_ne hjk] at hj
        refine (hi.cells j e th hj hth').frame fun he => hload _ fun heq => hnew ?_
        exact heq ▸ mem_held_of_cell (m := { m with cells := m.cells.set k d }) hj' he

/-- `main`'s cell is none of the handlers'. -/
theorem Inv.csock_ne (hi : Inv P I (s, m)) {p k : ℕ} {c : Cell} (hp : m.csock = some p)
    (hk : m.cells[k]? = some c) (hc : c.owned = true) : c.server ≠ p := by
  have hnodup := hi.held.nodup.of_append_left
  rw [hp] at hnodup
  exact fun heq => (List.nodup_cons.mp hnodup).1 (heq ▸ mem_owners hk hc)

theorem inv_accepted (hi : Inv P I (s, m)) (ht : I t) {fd : ℤ} (hdo : P.Does s t (.accepted fd))
    (hn : m.access (.accepted fd) = some n) : Inv P I (t, n) := by
  obtain ⟨hs, hmain, hthreads⟩ := hdo
  obtain ⟨p, hp, rfl⟩ := Option.map_eq_some_iff.mp hn
  obtain ⟨K, hK, hheld, hself, hload⟩ := hi.held.store (mem_held_of_csock hp) fd
  have hstore : m.store p fd = { m with heap := K } := by rw [Mem.store, hK]
  rw [hstore]
  refine ⟨ht, hi.fault, hheld, fun x hx => ⟨p, hp, ?_⟩, ?_, fun k c th hk hth => ?_⟩
  · rw [show P.main (t, _).1 = .count fd from hmain] at hx
    rw [List.mem_singleton.mp hx]
    exact hself
  · rw [show P.threads (t, _).1 = P.threads s from hthreads]
    exact hi.length
  · rw [show P.threads (t, _).1 = P.threads s from hthreads] at hth
    exact (hi.cells k c th hk hth).frame fun hc => hload _ (hi.csock_ne hp hk hc)

theorem inv_failed (hi : Inv P I (s, m)) (ht : I t) (hdo : P.Does s t .failed)
    (hn : m.access .failed = some n) : Inv P I (t, n) := by
  obtain ⟨hs, hmain, hthreads⟩ := hdo
  obtain ⟨p, hp, rfl⟩ := Option.map_eq_some_iff.mp hn
  obtain ⟨K, hK, hheld, -, hload⟩ := hi.held.store (mem_held_of_csock hp) (-1)
  have hstore : m.store p (-1) = { m with heap := K } := by rw [Mem.store, hK]
  rw [hstore]
  refine ⟨ht, hi.fault, hheld.perm ?_, fun x hx => ?_, ?_, fun k c th hk hth => ?_⟩
  · rw [Mem.held, Mem.held, hp, Option.toList_some, Option.toList_none, List.nil_append,
      List.singleton_append, List.cons_append, ← List.append_assoc]
    exact (List.perm_append_singleton p _).symm
  · rw [show P.main (t, _).1 = .accept from hmain] at hx
    exact absurd hx List.not_mem_nil
  · rw [show P.threads (t, _).1 = P.threads s from hthreads]
    exact hi.length
  · rw [show P.threads (t, _).1 = P.threads s from hthreads] at hth
    exact (hi.cells k c th hk hth).frame fun hc => hload _ (hi.csock_ne hp hk hc)

theorem inv_passed (hi : Inv P I (s, m)) (ht : I t) (hdo : P.Does s t .passed)
    (hn : m.access .passed = some n) : Inv P I (t, n) := by
  obtain ⟨fd, hs, hmain, hthreads⟩ := hdo
  obtain ⟨p, hp, rfl⟩ := Option.map_eq_some_iff.mp hn
  refine ⟨ht, hi.fault, hi.held.perm ?_, fun x hx => ?_, ?_, fun k c th hk hth => ?_⟩
  · rw [Mem.held, Mem.held, hp, owners_append, owners_of_owned rfl, Option.toList_some,
      Option.toList_none, List.nil_append, List.singleton_append]
    exact (List.perm_append_singleton p _).symm.append_right _
  · rw [show P.main (t, _).1 = .accept from hmain] at hx
    exact absurd hx List.not_mem_nil
  · rw [show P.threads (t, _).1 = P.threads s ++ [(fd, true)] from hthreads]
    rw [List.length_append, List.length_append]
    exact congrArg (· + 1) hi.length
  · rw [show P.threads (t, _).1 = P.threads s ++ [(fd, true)] from hthreads] at hth
    have hlen : m.cells.length = (P.threads s).length := hi.length
    by_cases hlt : k < m.cells.length
    · rw [List.getElem?_append_left hlt] at hk
      rw [List.getElem?_append_left (hlen ▸ hlt)] at hth
      exact hi.cells k c th hk hth
    · rw [List.getElem?_append_right (by omega)] at hk
      rw [List.getElem?_append_right (by omega), ← hlen] at hth
      obtain ⟨hz, rfl⟩ : k - m.cells.length = 0 ∧ ⟨p, none⟩ = c := by
        simpa [List.getElem?_singleton] using hk
      rw [hz] at hth
      obtain rfl := Option.some.inj hth
      have hpending : fd ∈ (P.main s).pending := by rw [hs]; exact List.mem_cons_self
      obtain ⟨q, hq, hload⟩ := hi.main fd hpending
      obtain rfl := Option.some.inj (hp.symm.trans hq)
      exact ⟨rfl, hload⟩

/-- A handler in its function finds its descriptor in its cell. -/
theorem Inv.cell_of_thread (hi : Inv P I (s, m)) {k : ℕ} {fd : ℤ}
    (hth : (P.threads s)[k]? = some (fd, true)) :
    ∃ c : Cell, m.cells[k]? = some c ∧ c.frees = none ∧ m.heap.load c.server = some fd := by
  have hlen : m.cells.length = (P.threads s).length := hi.length
  have hlt := (List.getElem?_eq_some_iff.mp hth).1
  have hk : m.cells[k]? = some m.cells[k] := List.getElem?_eq_getElem (hlen ▸ hlt)
  exact ⟨_, hk, hi.cells k _ _ hk hth⟩

theorem inv_thread (hi : Inv P I (s, m)) (ht : I t) {k : ℕ} {reads : Bool} {frees : Option ℕ}
    (hdo : P.Does s t (.thread k reads frees)) (hn : m.access (.thread k reads frees) = some n) :
    Inv P I (t, n) := by
  obtain ⟨fd, hth, hmain, hone, hthreads⟩ := hdo
  obtain ⟨c, hk, hnone, hload⟩ := hi.cell_of_thread hth
  have hread : (if reads then m.read c.server else m) = m := by
    rw [Mem.read, hload]
    exact ite_self m
  have hset : m.access (.thread k reads frees) =
      some { m with cells := m.cells.set k { c with frees := frees } } := by
    rw [Mem.access, hk, Option.map_some, hread]
  obtain rfl := Option.some.inj (hset.symm.trans hn)
  set d : Cell := { c with frees := frees } with hd
  -- what it has left to free is one cell, if it leaves
  have hfits : Fits m.heap d (fd, frees.isNone) := by
    cases frees with
    | none => exact ⟨rfl, hload⟩
    | some n => exact Or.inl (congrArg some (hone n rfl))
  have howned : d.owned = c.owned := by
    have hc : c.owned = true := Fits.owned ⟨hnone, hload⟩
    rw [hc]
    cases frees with
    | none => rfl
    | some n => simp [Cell.owned, hd, hone n rfl]
  refine ⟨ht, hi.fault, ?_, fun x hx => ?_, ?_, fun j e th hj hth' => ?_⟩
  · have hheld : Mem.held { m with cells := m.cells.set k d } = m.held := by
      have howners := owners_set hk (d := d) rfl howned
      exact congrArg (fun l => m.csock.toList ++ l ++ m.lost) howners
    rw [hheld]
    exact hi.held
  · rw [show P.main (t, _).1 = P.main s from hmain] at hx
    exact hi.main x hx
  · rw [show P.threads (t, _).1 = (P.threads s).set k _ from hthreads]
    dsimp only
    rw [List.length_set, List.length_set]
    exact hi.length
  · rw [show P.threads (t, _).1 = (P.threads s).set k _ from hthreads] at hth'
    dsimp only at hj
    by_cases hjk : j = k
    · subst hjk
      rw [getElem?_set_of_some hk] at hj
      rw [getElem?_set_of_some hth] at hth'
      obtain rfl := Option.some.inj hj
      obtain rfl := Option.some.inj hth'
      exact hfits
    · rw [getElem?_set_of_ne hjk] at hj hth'
      exact hi.cells j e th hj hth'

/-- A step of the server, with whatever it does with a cell. -/
theorem inv_run (hP : P.Lawful I) (hi : Inv P I (s, m)) {a : α} (hs : P.server.step s a = some t)
    (hn : m.access (P.access s a) = some n) : Inv P I (t, n) := by
  have ht := hP.keeps s a t hi.server hs
  obtain ⟨-, hdo⟩ := hP.does s a t hi.server hs
  cases hacc : P.access s a with
  | accepted fd =>
    rw [hacc] at hdo hn
    exact inv_accepted hi ht hdo hn
  | failed =>
    rw [hacc] at hdo hn
    exact inv_failed hi ht hdo hn
  | passed =>
    rw [hacc] at hdo hn
    exact inv_passed hi ht hdo hn
  | thread k reads frees =>
    rw [hacc] at hdo hn
    exact inv_thread hi ht hdo hn
  | other =>
    rw [hacc] at hdo hn
    obtain ⟨hmain, hthreads⟩ := hdo
    obtain rfl := Option.some.inj hn
    refine ⟨ht, hi.fault, hi.held, fun x hx => hi.main x (hmain ▸ hx), ?_, fun k c th hk hth => ?_⟩
    · rw [show P.threads (t, _).1 = P.threads s from hthreads]
      exact hi.length
    · rw [show P.threads (t, _).1 = P.threads s from hthreads] at hth
      exact hi.cells k c th hk hth

end Step

/-! ### Runs with the heap and without -/

variable {x y : σ × Mem}

theorem inv_step (hP : P.Lawful I) {b : Action α} (hi : Inv P I x)
    (h : (system P).step x b = some y) : Inv P I y := by
  obtain ⟨s, m⟩ := x
  change step P (s, m) b = some y at h
  cases b with
  | malloc p =>
    rw [step] at h
    split_ifs at h
    split at h
    · rename_i hmain hnone
      obtain ⟨H, hp, rfl⟩ := Option.map_eq_some_iff.mp h
      exact inv_malloc hi hmain hnone hp
    · exact absurd h (by simp)
  | free k =>
    rw [step] at h
    split_ifs at h
    obtain ⟨c, hk, h⟩ := Option.bind_eq_some_iff.mp h
    split at h
    · rename_i f hf
      obtain rfl := Option.some.inj h
      exact inv_free hi hk hf
    · exact absurd h (by simp)
  | run a =>
    obtain ⟨t, hs, h⟩ := Option.bind_eq_some_iff.mp h
    obtain ⟨n, hn, rfl⟩ := Option.map_eq_some_iff.mp h
    exact inv_run hP hi hs hn

theorem Inv.safe (hi : Inv P I x) : Safe P x where
  fault := hi.fault
  held := hi.held
  reads _ _ hth := hi.cell_of_thread hth
  frees k fd hth := by
    have hlt := (List.getElem?_eq_some_iff.mp hth).1
    obtain ⟨c, hk⟩ : ∃ c, x.2.cells[k]? = some c :=
      ⟨_, List.getElem?_eq_getElem (hi.length.symm ▸ hlt)⟩
    exact ⟨c, hk, hi.cells k c _ hk hth⟩

/-- Without the heap, a run is a run of the server. -/
theorem simulates (P : Process σ α) :
    System.Simulation (system P) P.server (fun x s => x.1 = s) seen fun a => [a] where
  init := rfl
  step := by
    rintro ⟨s, m⟩ b ⟨t, n⟩ u rfl h
    change step P (s, m) b = some (t, n) at h
    cases b with
    | malloc p =>
      rw [step] at h
      split_ifs at h
      split at h
      · obtain ⟨H, -, heq⟩ := Option.map_eq_some_iff.mp h
        exact ⟨[], s, rfl, rfl, (Prod.ext_iff.mp heq).1.symm⟩
      · exact absurd h (by simp)
    | free k =>
      rw [step] at h
      split_ifs at h
      obtain ⟨c, -, h⟩ := Option.bind_eq_some_iff.mp h
      split at h
      · exact ⟨[], s, rfl, rfl, (Prod.ext_iff.mp (Option.some.inj h)).1.symm⟩
      · exact absurd h (by simp)
    | run a =>
      obtain ⟨t', hs, h⟩ := Option.bind_eq_some_iff.mp h
      obtain ⟨n', -, heq⟩ := Option.map_eq_some_iff.mp h
      refine ⟨[a], t', ?_, rfl, (Prod.ext_iff.mp heq).1.symm⟩
      rw [System.exec_cons, hs]
      rfl

/-- `main` in front of `accept` has a cell or may get one. -/
theorem Inv.gets_cell (hi : Inv P I x) (hmain : P.main x.1 = .accept) (hlive : P.exited x.1 = false) :
    ∃ bs m p, (system P).exec x bs = some (x.1, m) ∧ bs.flatMap (seen (α := α)) = [] ∧
      m.csock = some p := by
  obtain ⟨s, m⟩ := x
  cases hc : m.csock with
  | some p => exact ⟨[], m, p, rfl, rfl, hc⟩
  | none =>
    obtain ⟨p, H, hp⟩ := hi.held.exists_malloc
    refine ⟨[.malloc p], { m with heap := H, csock := some p }, p, ?_, rfl, rfl⟩
    have hstep : (system P).step (s, m) (.malloc p) =
        some (s, { m with heap := H, csock := some p }) := by
      show step P (s, m) (.malloc p) = _
      rw [step, if_neg (by rw [hlive]; simp), show P.main (s, m).1 = .accept from hmain]
      dsimp only
      rw [hc, show m.heap.malloc p = some H from hp]
      rfl
    rw [System.exec_cons, hstep]
    rfl

/-- Once the access has its cell, the step is taken. -/
theorem exec_run {s t : σ} {m n : Mem} {a : α} (hs : P.server.step s a = some t)
    (hn : m.access (P.access s a) = some n) : (system P).exec (s, m) [.run a] = some (t, n) := by
  have hstep : (system P).step (s, m) (.run a) = some (t, n) := by
    show step P (s, m) (.run a) = _
    rw [step, hs, Option.bind_some, hn]
    rfl
  rw [System.exec_cons, hstep]
  rfl

/-- The heap holds up no step of the server. -/
theorem Inv.answers (hP : P.Lawful I) {s t : σ} {m : Mem} (hi : Inv P I (s, m)) {a : α}
    (hs : P.server.step s a = some t) :
    ∃ bs n, (system P).exec (s, m) bs = some (t, n) ∧ bs.flatMap seen = [a] := by
  obtain ⟨hlive, hdo⟩ := hP.does s a t hi.server hs
  have hcell : P.main s = .accept → (∀ m' : Mem, m'.csock.isSome → ∃ n,
      m'.access (P.access s a) = some n) →
      ∃ bs n, (system P).exec (s, m) bs = some (t, n) ∧ bs.flatMap seen = [a] := by
    intro hmain henabled
    obtain ⟨bs, m', p, hbs, hseen, hp⟩ := hi.gets_cell hmain hlive
    obtain ⟨n, hn⟩ := henabled m' (by rw [hp]; rfl)
    refine ⟨bs ++ [.run a], n, ?_, ?_⟩
    · rw [System.exec_append, hbs]
      exact exec_run hs hn
    · rw [List.flatMap_append, hseen]
      rfl
  cases hacc : P.access s a with
  | accepted fd =>
    rw [hacc] at hdo hcell
    refine hcell hdo.1 fun m' hm' => ?_
    obtain ⟨p, hp⟩ := Option.isSome_iff_exists.mp hm'
    exact ⟨m'.store p fd, by rw [Mem.access, hp]; rfl⟩
  | failed =>
    rw [hacc] at hdo hcell
    refine hcell hdo.1 fun m' hm' => ?_
    obtain ⟨p, hp⟩ := Option.isSome_iff_exists.mp hm'
    exact ⟨_, by rw [Mem.access, hp]; rfl⟩
  | passed =>
    rw [hacc] at hdo
    obtain ⟨fd, hmain, -⟩ := hdo
    have hpending : fd ∈ (P.main s).pending := by rw [hmain]; exact List.mem_cons_self
    obtain ⟨p, hp, -⟩ := hi.main fd hpending
    have hsome : m.access .passed = some { m with csock := none, cells := m.cells ++ [⟨p, none⟩] } := by
      rw [Mem.access, show m.csock = some p from hp]
      rfl
    exact ⟨[.run a], _, exec_run hs (hacc ▸ hsome), rfl⟩
  | thread k reads frees =>
    rw [hacc] at hdo
    obtain ⟨fd, hth, -⟩ := hdo
    obtain ⟨c, hk, -⟩ := hi.cell_of_thread hth
    exact ⟨[.run a], _, exec_run hs (by rw [hacc, Mem.access, hk]; rfl), rfl⟩
  | other => exact ⟨[.run a], m, exec_run hs (by rw [hacc]; rfl), rfl⟩

/-- With the heap the server can do whatever it can do without. -/
theorem simulated (hP : P.Lawful I) :
    System.Simulation P.server (system P) (fun s x => x.1 = s ∧ Inv P I x) (fun a => [a]) seen where
  init := ⟨rfl, inv_init hP⟩
  step := by
    rintro s a t ⟨_, m⟩ ⟨rfl, hi⟩ hs
    obtain ⟨bs, n, hbs, hseen⟩ := hi.answers hP hs
    exact ⟨bs, (t, n), hbs, hseen, rfl, System.exec_preserves (fun _ _ _ => inv_step hP) hi hbs⟩

/-- **Memory safety** of any server that keeps what it has to. -/
theorem Process.Lawful.memorySafe (hP : P.Lawful I) : MemorySafe P where
  safe as := (System.always_of_step (inv_init hP) (fun _ _ _ => inv_step hP) as).imp fun _ => Inv.safe
  without as x hx := by
    obtain ⟨bs, s, hbs, hseen, rfl⟩ := (simulates P).exec hx
    rw [List.flatMap_singleton'] at hseen
    rwa [hseen] at hbs
  alongside as s hs := by
    obtain ⟨bs, ⟨_, m⟩, hbs, hseen, rfl, -⟩ := (simulated hP).exec hs
    exact ⟨bs, m, hbs, by rw [hseen, List.flatMap_singleton']⟩

end Fssn.Tcp.Csock

/-! ### The chat server -/

namespace Fssn.Tcp.ChatServer

open Fssn.Lib Csock

/-- Whether a handler's statement reads `*server`. -/
def SocketHandler.reads (h : SocketHandler) : Bool :=
  match h.pc with
  | .pushBack => true
  | .recv => true
  | .erasing i last => decide (i < last)
  | _ => false

/-- With how many `free(server)` before it a handler's statement leaves the loop, if it does: `goto
FINISH` jumps over the first one. -/
def SocketHandler.frees (h : SocketHandler) : Option ℕ :=
  match h.pc with
  | .compare => if isQuit h.buffer.bytes then some 1 else none
  | .erasing i last => if i < last then none else some 2
  | _ => none

def access (s : State) : Action → Access
  | .accept csock _ => .accepted csock
  | .acceptFailed => .failed
  | .count => .other
  | .create _ => .passed
  | .recv k _ => .thread k true none
  | .run k =>
    match s.handlers[k]? with
    | some h => .thread k h.reads h.frees
    | none => .other
  | .console _ => .other

def process : Process State Action where
  server := server
  main := State.main
  threads s := s.handlers.map fun h => (h.server, decide (h.pc ≠ .finished))
  exited := State.exited
  access := access

/-- A statement leaves the function exactly when it comes to a `free`, and then it comes to one. -/
theorem frees_of_effect {g g' : Globals} {h h' : SocketHandler} (hok : h.Ok)
    (he : Effect g h g' h') : h.pc ≠ .finished ∧ h'.server = h.server ∧ (∀ n ∈ h.frees, n = 1) ∧
      decide (h'.pc ≠ .finished) = h.frees.isNone := by
  have hexit : h.pc ≠ .finished → h.isExit = false := fun hne =>
    hok.exit.trans (decide_eq_false hne)
  cases he with
  | push hpc => simp [SocketHandler.frees, hpc]
  | quit hpc hq => simp [SocketHandler.frees, hpc, hq]
  | print hpc hq => simp [SocketHandler.frees, hpc, hq]
  | bound hpc => simp [SocketHandler.frees, hpc]
  | send i last fd hpc => simp [SocketHandler.frees, hpc]
  | sent i last hpc => simp [SocketHandler.frees, hpc, hexit (by simp [hpc])]
  | erase hpc => exact absurd hpc hok.no_erase

theorem not_exited {s t : State} {a : Action} (hs : server.step s a = some t) : s.exited = false := by
  change step s a = some t at hs
  unfold step at hs
  by_contra hex
  rw [if_pos (by simpa using hex)] at hs
  exact absurd hs (by simp)

theorem acceptFailed_main {s t : State} (hs : server.step s .acceptFailed = some t) :
    s.main = .accept := by
  have hlive := not_exited hs
  change step s .acceptFailed = some t at hs
  unfold step at hs
  rw [if_neg (by simp [hlive])] at hs
  dsimp only at hs
  split at hs
  · assumption
  · exact absurd hs (by simp)

theorem lawful : process.Lawful Inv where
  init := ⟨inv_init, rfl, rfl⟩
  keeps _ _ _ := inv_step
  does s a t hi hs := by
    refine ⟨not_exited hs, ?_⟩
    have hnth : ∀ {k : ℕ} {h : SocketHandler}, s.handlers[k]? = some h →
        (process.threads s)[k]? = some (h.server, decide (h.pc ≠ .finished)) := by
      intro k h hk
      show (s.handlers.map _)[k]? = _
      rw [List.getElem?_map, hk]
      rfl
    cases step_move hs with
    | accept csock sin_port out hmain => exact ⟨hmain, rfl, rfl⟩
    | acceptFailed => exact ⟨acceptFailed_main hs, acceptFailed_main hs, rfl⟩
    | count csock hmain =>
      refine ⟨?_, rfl⟩
      show _ = s.main.pending
      rw [hmain]
      rfl
    | create csock buffer hmain => exact ⟨csock, hmain, rfl, List.map_append⟩
    | recv k r h hk hpc =>
      refine ⟨h.server, ?_, rfl, by simp, List.map_set⟩
      rw [hnth hk, hpc]
      rfl
    | run k h h' g' hk he =>
      have hok := hi.handlers h (List.mem_of_getElem? hk)
      obtain ⟨hlive, hserver, hone, hpc⟩ := frees_of_effect hok he
      have hacc : process.access s (.run k) = .thread k h.reads h.frees := by
        show access s (.run k) = _
        rw [access, hk]
      rw [hacc]
      refine ⟨h.server, ?_, rfl, hone, ?_⟩
      · rw [hnth hk, decide_eq_true hlive]
      · show (s.handlers.set k h').map _ = _
        rw [List.map_set, hserver, hpc]
        rfl
    | console => exact ⟨rfl, rfl⟩

/-- **Memory safety of the chat server**: no run of it uses a cell after its `free` or frees one
twice. -/
theorem chat_cells_safe : MemorySafe process := lawful.memorySafe

end Fssn.Tcp.ChatServer

/-! ### The echo server -/

namespace Fssn.Tcp.EchoServer

open Fssn.Lib Csock

/-- Whether a handler's statement reads `*server`. -/
def SocketHandler.reads (h : SocketHandler) : Bool :=
  match h.pc with
  | .recv => true
  | .send => true
  | _ => false

/-- With how many `free(server)` before it a handler's statement leaves the loop, if it does; behind
`exit` there is one that is not executed. -/
def SocketHandler.frees (h : SocketHandler) (g : Globals) : Option ℕ :=
  match h.pc with
  | .send => if h.isExit then some 2 else none
  | .test => if g.threadNum = 0 then none else some 1
  | .exit => some 1
  | _ => none

def access (s : State) : Action → Access
  | .accept csock _ => .accepted csock
  | .acceptFailed => .failed
  | .count => .other
  | .create _ _ => .passed
  | .clientSend _ _ => .other
  | .recv k => .thread k true none
  | .run k =>
    match s.handlers[k]? with
    | some h => .thread k h.reads (h.frees s.globals)
    | none => .other
  | .answer k Yn => .thread k false (if Yn = 121 then none else some 1)

def process : Process State Action where
  server := server
  main := State.main
  threads s := s.handlers.map fun h => (h.server, decide (h.pc ≠ .finished))
  exited s := s.globals.exited
  access := access

theorem frees_of_statement {g g' : Globals} {h h' : SocketHandler}
    (hexit : h.isExit = true → h.pc = .finished) (hs : statement g h = some (g', h')) :
    h.pc ≠ .finished ∧ h'.server = h.server ∧ (∀ n ∈ h.frees g, n = 1) ∧
      decide (h'.pc ≠ .finished) = (h.frees g).isNone := by
  unfold statement at hs
  split at hs
  case h_1 => exact absurd hs (by simp)
  case h_2 hpc =>
    cases hs
    by_cases hq : isQuit h.buffer.bytes = true
    · simp [SocketHandler.frees, hpc, hq]
    · simp [SocketHandler.frees, hpc, hq]
  case h_4 hpc =>
    have hno : ¬ h.isExit = true := fun h1 => absurd (hpc.symm.trans (hexit h1)) (by simp)
    cases hs
    simp [SocketHandler.frees, hpc, hno]
  case h_7 hpc =>
    split_ifs at hs with h0
    · cases hs
      simp [SocketHandler.frees, hpc, h0]
    · cases hs
      simp [SocketHandler.frees, hpc, h0]
  case h_9 => exact absurd hs (by simp)
  case h_11 => exact absurd hs (by simp)
  all_goals
    rename_i hpc
    cases hs
    simp [SocketHandler.frees, hpc]

theorem acceptFailed_main {s t : State} (hs : server.step s .acceptFailed = some t) :
    s.main = .accept := by
  have hlive := not_exited hs
  change step s .acceptFailed = some t at hs
  unfold step at hs
  rw [if_neg (by simp [hlive])] at hs
  dsimp only at hs
  split at hs
  · assumption
  · exact absurd hs (by simp)

/-- A handler's statement, the reading of the answer included. -/
theorem does_thread {s t : State} (hi : Inv s) {k : ℕ} {a : Action}
    (ha : a = .run k ∨ ∃ Yn, a = .answer k Yn) (hs : server.step s a = some t) :
    process.Does s t (access s a) := by
  have hlive := not_exited hs
  change step s a = some t at hs
  unfold step at hs
  rw [if_neg (by simp [hlive])] at hs
  have hnth : ∀ {h : SocketHandler}, s.handlers[k]? = some h → h.pc ≠ .finished →
      (process.threads s)[k]? = some (h.server, true) := by
    intro h hk hpc
    show (s.handlers.map _)[k]? = _
    rw [List.getElem?_map, hk, Option.map_some, decide_eq_true hpc]
  rcases ha with rfl | ⟨Yn, rfl⟩
  · obtain ⟨h, hk, hs⟩ := Option.bind_eq_some_iff.mp hs
    obtain ⟨⟨g', h'⟩, hst, rfl⟩ := Option.map_eq_some_iff.mp hs
    have hok := hi.handlers h (List.mem_of_getElem? hk)
    obtain ⟨hpc, hserver, hone, hfree⟩ := frees_of_statement hok.exit hst
    have hacc : access s (.run k) = .thread k h.reads (h.frees s.globals) := by rw [access, hk]
    rw [hacc]
    refine ⟨h.server, hnth hk hpc, rfl, hone, ?_⟩
    show (s.handlers.set k h').map _ = _
    rw [List.map_set, hserver, hfree]
    rfl
  · obtain ⟨h, hk, hs⟩ := Option.bind_eq_some_iff.mp hs
    split_ifs at hs with hpc hy
    · obtain rfl := Option.some.inj hs
      rw [access, if_pos hy]
      exact ⟨h.server, hnth hk (by simp [hpc]), rfl, by simp, List.map_set⟩
    · obtain rfl := Option.some.inj hs
      rw [access, if_neg hy]
      exact ⟨h.server, hnth hk (by simp [hpc]), rfl, by simp, List.map_set⟩

theorem lawful : process.Lawful Inv where
  init := ⟨inv_init, rfl, rfl⟩
  keeps _ _ _ := inv_step
  does s a t hi hs := by
    refine ⟨not_exited hs, ?_⟩
    cases step_move hs with
    | accept csock sin_port g' hnum hmain => exact ⟨hmain, rfl, rfl⟩
    | acceptFailed => exact ⟨acceptFailed_main hs, acceptFailed_main hs, rfl⟩
    | count csock hmain =>
      refine ⟨?_, rfl⟩
      show _ = s.main.pending
      rw [hmain]
      rfl
    | create csock this_id buffer hmain => exact ⟨csock, hmain, rfl, List.map_append⟩
    | clientSend => exact ⟨rfl, rfl⟩
    | recv k h f conns hk hpc hpull =>
      refine ⟨h.server, ?_, rfl, by simp, List.map_set⟩
      show (s.handlers.map _)[k]? = _
      rw [List.getElem?_map, hk, Option.map_some, hpc]
      rfl
    | run a k h h' g' ha => exact does_thread hi ha hs

/-- **Memory safety of the echo server.** -/
theorem echo_cells_safe : MemorySafe process := lawful.memorySafe

end Fssn.Tcp.EchoServer
