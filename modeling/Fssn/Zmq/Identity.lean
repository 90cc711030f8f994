import Fssn.Zmq.DealerRouter

/-!
# Fssn.Zmq.Identity — the identity that a dealer client presents

`ClientTask::start` of `lec-05-prg-10` and `lec-05-prg-11` calls `socket.setsockopt(ZMQ_IDENTITY,
identity)` with a `std::string`.  The two-argument `setsockopt` is a template for values of any type:
it hands over the bytes of the object, not the text.  `StringLayout` is what a `std::string` object is
known to look like, `libstdcxx` and `libcxx` are the two libraries' ones.

`presented_identity`: the identity is never the name, and two names of one length are told apart exactly
if they are short enough to lie in the object.
-/

namespace Fssn.Zmq.Identity

open Fssn.Lib DealerRouter

/-! ### The string object -/

/-- The objects of type `std::string` of a C++ library with 64-bit addresses.  `Represents o t` says
that `o` may be the bytes of an object whose text is `t`, wherever the object and its heap memory are.
A text of at most `localCapacity` bytes lies in the object itself; of a longer one the object has an
address, the length as a word, and the capacity. -/
structure StringLayout where
  size : ℕ
  localCapacity : ℕ
  Represents : Buffer size → Bytes → Prop
  localCapacity_lt : localCapacity < size
  exists_object : ∀ t, t.length < 256 ^ 8 → ∃ o, Represents o t
  length_eq : ∀ o t u, Represents o t → Represents o u → t.length = u.length
  local_eq : ∀ o t u, t.length ≤ localCapacity → Represents o t → Represents o u → t = u
  heap_word : ∀ o t, localCapacity < t.length → Represents o t → leBytes 8 t.length <:+: o.bytes
  heap_congr : ∀ o t u, localCapacity < t.length → t.length = u.length → Represents o t → Represents o u

/-- `socket_base::setsockopt` for one value: it hands over `&optval` and `sizeof(T)`. -/
def setsockopt (optval : Bytes) (sizeofT : ℕ) : Bytes := optval.take sizeofT

/-- The identity that a client with the string object `o` presents. -/
def identity (L : StringLayout) (o : Buffer L.size) : Bytes := setsockopt o.bytes L.size

/-- A name from the command line. -/
structure ClientName extends CString where
  pos : 1 ≤ bytes.length
  le : bytes.length ≤ 255

/-- What a worker prints for a request, line 32. -/
def workerLine (id : ℕ) (received identity : Bytes) : Bytes :=
  ascii "Worker#" ++ decimal id ++ ascii " received " ++ received ++ ascii " from '" ++ identity ++
    ascii "'\n"

/-! ### The identity is not the name -/

section Layout

variable {L : StringLayout} {o : Buffer L.size}

theorem identity_eq (L : StringLayout) (o : Buffer L.size) : identity L o = o.bytes := by
  unfold identity setsockopt
  rw [List.take_of_length_le o.length_eq.le]

theorem identity_injective {o' : Buffer L.size} (h : identity L o = identity L o') : o = o' := by
  rw [identity_eq, identity_eq] at h
  exact Buffer.ext h

/-- A name that is as long as the object does not lie in it, and the word for its length holds a NUL;
other names have another length. -/
theorem identity_ne {name : ClientName} (h : L.Represents o name.bytes) :
    identity L o ≠ name.bytes := by
  rw [identity_eq]
  intro heq
  have hlen : L.size = name.bytes.length := by rw [← heq, o.length_eq]
  have hword := L.heap_word o name.bytes (hlen ▸ L.localCapacity_lt) h
  have hnul : 0 ∈ leBytes 8 name.bytes.length :=
    nul_mem_leBytes (by omega) (Nat.lt_succ_of_le name.le)
  exact name.nul_free (heq ▸ hword.subset hnul)

/-- Two names may get the same identity exactly if they have the same length and lie on the heap. -/
theorem apart_iff {n m : ClientName} (hne : n.bytes ≠ m.bytes) :
    (∀ o o', L.Represents o n.bytes → L.Represents o' m.bytes → identity L o ≠ identity L o') ↔
      n.bytes.length ≠ m.bytes.length ∨ n.bytes.length ≤ L.localCapacity := by
  constructor
  · intro hapart
    by_contra hboth
    obtain ⟨hlen, hlong⟩ := not_or.mp hboth
    obtain ⟨o, ho⟩ := L.exists_object n.bytes (lt_of_le_of_lt n.le (by decide))
    have ho' : L.Represents o m.bytes := L.heap_congr o _ _ (not_le.mp hlong) (not_not.mp hlen) ho
    exact hapart o o ho ho' rfl
  · intro hor o o' ho ho' heq
    obtain rfl := identity_injective heq
    rcases hor with hlen | hshort
    · exact hlen (L.length_eq o _ _ ho ho')
    · exact hne (L.local_eq o _ _ hshort ho ho')

end Layout

/-! ### What a worker prints -/

theorem work_recvMsg {ι : Type*} {id : ℕ} {v v' : Worker ι} {iden : Frame ι}
    (hpc : v.pc = .recvMsg iden) (h : v.work id = some v') :
    ∃ received, v'.out = v.out ++ workerLine id received iden.data := by
  unfold Worker.work at h
  rw [hpc] at h
  obtain ⟨fr, -, rfl⟩ := Option.map_eq_some_iff.mp h
  refine ⟨fr.1.data, ?_⟩
  unfold workerLine
  simp only [List.append_assoc]

theorem workerLine_inj {id : ℕ} {received i j : Bytes} :
    workerLine id received i = workerLine id received j ↔ i = j := by
  unfold workerLine
  rw [List.append_left_inj, List.append_right_inj]

/-- **The presented identity** is never the client's name, so no worker prints the name with a request.
Clients with different names present different identities, whatever their objects look like, if and only
if the names differ in length or lie in the objects. -/
theorem presented_identity (L : StringLayout) :
    (∀ (name : ClientName) (o : Buffer L.size), L.Represents o name.bytes →
      identity L o ≠ name.bytes ∧
      ∀ (id : ℕ) (v v' : Worker ClientName), v.pc = .recvMsg ⟨identity L o, name, 0⟩ →
        v.work id = some v' → ∃ received, v'.out = v.out ++ workerLine id received (identity L o) ∧
          v'.out ≠ v.out ++ workerLine id received name.bytes) ∧
    ∀ n m : ClientName, n.bytes ≠ m.bytes →
      ((∀ o o', L.Represents o n.bytes → L.Represents o' m.bytes → identity L o ≠ identity L o') ↔
        n.bytes.length ≠ m.bytes.length ∨ n.bytes.length ≤ L.localCapacity) := by
  refine ⟨fun name o ho => ⟨identity_ne ho, fun id v v' hpc hwork => ?_⟩, fun n m => apart_iff⟩
  obtain ⟨received, hout⟩ := work_recvMsg hpc hwork
  refine ⟨received, hout, fun heq => ?_⟩
  rw [hout] at heq
  exact identity_ne ho (workerLine_inj.mp (List.append_cancel_left heq))

/-! ### The string objects of two libraries -/

/-- Prefixes of one list that have the same length are equal. -/
theorem prefix_unique {t u l : Bytes} (ht : t <+: l) (hu : u <+: l) (hlen : t.length = u.length) :
    t = u :=
  (List.prefix_of_prefix_length_le ht hu hlen.le).eq_of_length hlen

/-- libstdc++: an address, the length, and 16 bytes for a short text with its NUL or for the capacity. -/
def LibstdcxxObject (o : Buffer 32) (t : Bytes) : Prop :=
  t.length < 256 ^ 8 ∧ ∃ data buf, o.bytes = leBytes 8 data ++ leBytes 8 t.length ++ buf ∧
    (t.length ≤ 15 → t ++ [0] <+: buf) ∧
    (15 < t.length → ∃ capacity, t.length ≤ capacity ∧ leBytes 8 capacity <+: buf)

namespace LibstdcxxObject

variable {o : Buffer 32} {t u : Bytes}

theorem words_eq {data data' : ℕ} {buf buf' : Bytes}
    (h : leBytes 8 data ++ leBytes 8 t.length ++ buf = leBytes 8 data' ++ leBytes 8 u.length ++ buf') :
    leBytes 8 t.length = leBytes 8 u.length ∧ buf = buf' := by
  obtain ⟨hwords, hbuf⟩ := List.append_inj h (by simp)
  exact ⟨(List.append_inj hwords (by simp)).2, hbuf⟩

theorem length_eq (ht : LibstdcxxObject o t) (hu : LibstdcxxObject o u) : t.length = u.length := by
  obtain ⟨hlt, data, buf, heq, -⟩ := ht
  obtain ⟨hlt', data', buf', heq', -⟩ := hu
  exact leBytes_inj hlt hlt' (words_eq (heq.symm.trans heq')).1

theorem local_eq (hshort : t.length ≤ 15) (ht : LibstdcxxObject o t) (hu : LibstdcxxObject o u) :
    t = u := by
  have hlen := length_eq ht hu
  obtain ⟨-, data, buf, heq, hlocal, -⟩ := ht
  obtain ⟨-, data', buf', heq', hlocal', -⟩ := hu
  obtain rfl := (words_eq (heq.symm.trans heq')).2
  exact prefix_unique ((List.prefix_append _ _).trans (hlocal hshort))
    ((List.prefix_append _ _).trans (hlocal' (hlen ▸ hshort))) hlen

/-- An object of the text `t`, at whose address field stands `data`. -/
theorem exists_of_length (data : ℕ) (hlt : t.length < 256 ^ 8) : ∃ o, LibstdcxxObject o t := by
  by_cases hshort : t.length ≤ 15
  · refine ⟨⟨leBytes 8 data ++ leBytes 8 t.length ++ (t ++ [0] ++ List.replicate (15 - t.length) 0), ?_⟩,
      hlt, data, _, rfl, fun _ => List.prefix_append _ _, fun h => absurd hshort (not_le.mpr h)⟩
    simp only [List.length_append, length_leBytes, List.length_singleton, List.length_replicate]
    omega
  · refine ⟨⟨leBytes 8 data ++ leBytes 8 t.length ++ (leBytes 8 t.length ++ List.replicate 8 0), ?_⟩,
      hlt, data, _, rfl, fun h => absurd h hshort, fun _ => ⟨t.length, le_rfl, List.prefix_append _ _⟩⟩
    simp only [List.length_append, length_leBytes, List.length_replicate]

theorem heap_word (h : LibstdcxxObject o t) : leBytes 8 t.length <:+: o.bytes := by
  obtain ⟨-, data, buf, heq, -⟩ := h
  exact ⟨leBytes 8 data, buf, heq.symm⟩

theorem heap_congr (hlong : 15 < t.length) (hlen : t.length = u.length) (h : LibstdcxxObject o t) :
    LibstdcxxObject o u := by
  obtain ⟨hlt, data, buf, heq, -, hheap⟩ := h
  rw [hlen] at hlt heq hheap hlong
  exact ⟨hlt, data, buf, heq, fun hshort => absurd hshort (not_le.mpr hlong), hheap⟩

end LibstdcxxObject

theorem libstdcxx_local_lt : 15 < 32 := by decide

/-- The strings of g++. -/
def libstdcxx : StringLayout where
  size := 32
  localCapacity := 15
  Represents := LibstdcxxObject
  localCapacity_lt := libstdcxx_local_lt
  exists_object _ := LibstdcxxObject.exists_of_length 4096
  length_eq _ _ _ := LibstdcxxObject.length_eq
  local_eq _ _ _ := LibstdcxxObject.local_eq
  heap_word _ _ _ := LibstdcxxObject.heap_word
  heap_congr _ _ _ := LibstdcxxObject.heap_congr

/-- libc++ on a 64-bit ARM Mac: a short text with its NUL stands in front and its length in the last
byte; otherwise there are an address, the length and the capacity, whose top bit is set. -/
def LibcxxObject (o : Buffer 24) (t : Bytes) : Prop :=
  (t.length ≤ 22 ∧ ∃ pad, o.bytes = t ++ 0 :: pad ++ [UInt8.ofNat t.length]) ∨
  (22 < t.length ∧ t.length < 256 ^ 8 ∧ ∃ data capacity, 2 ^ 63 ≤ capacity ∧ capacity < 2 ^ 64 ∧
    o.bytes = leBytes 8 data ++ leBytes 8 t.length ++ leBytes 8 capacity)

namespace LibcxxObject

variable {o : Buffer 24} {t u : Bytes}

/-- The last byte of a short text's object is its length. -/
theorem getLast?_local {pad : Bytes} (h : o.bytes = t ++ 0 :: pad ++ [UInt8.ofNat t.length]) :
    o.bytes.getLast? = some (UInt8.ofNat t.length) := by
  rw [h, List.getLast?_concat]

/-- The last byte of the other objects has its top bit set. -/
theorem getLast?_heap {a b : Bytes} {capacity : ℕ} (hlow : 2 ^ 63 ≤ capacity)
    (hhigh : capacity < 2 ^ 64) (h : o.bytes = a ++ b ++ leBytes 8 capacity) :
    ∃ x : UInt8, o.bytes.getLast? = some x ∧ 128 ≤ x.toNat := by
  refine ⟨UInt8.ofNat (capacity / 256 ^ 7), ?_, ?_⟩
  · rw [h, leBytes_succ, ← List.append_assoc, List.getLast?_concat]
  · rw [UInt8.toNat_ofNat']
    omega

theorem not_local_heap {pad a b : Bytes} {capacity : ℕ} (hshort : t.length ≤ 22)
    (ht : o.bytes = t ++ 0 :: pad ++ [UInt8.ofNat t.length]) (hlow : 2 ^ 63 ≤ capacity)
    (hhigh : capacity < 2 ^ 64) (h : o.bytes = a ++ b ++ leBytes 8 capacity) : False := by
  obtain ⟨x, hx, hbig⟩ := getLast?_heap hlow hhigh h
  rw [getLast?_local ht] at hx
  obtain rfl := Option.some.inj hx
  rw [UInt8.toNat_ofNat'] at hbig
  omega

theorem length_eq (ht : LibcxxObject o t) (hu : LibcxxObject o u) : t.length = u.length := by
  obtain ⟨hst, pad, heq⟩ | ⟨-, hlt, data, capacity, hlow, hhigh, heq⟩ := ht <;>
    obtain ⟨hsu, pad', heq'⟩ | ⟨-, hlt', data', capacity', hlow', hhigh', heq'⟩ := hu
  · have hlast := (getLast?_local heq).symm.trans (getLast?_local heq')
    have hmod : t.length % 256 = u.length % 256 := congrArg UInt8.toNat (Option.some.inj hlast)
    omega
  · exact (not_local_heap hst heq hlow' hhigh' heq').elim
  · exact (not_local_heap hsu heq' hlow hhigh heq).elim
  · have hwords := List.append_inj (heq.symm.trans heq') (by simp)
    exact leBytes_inj hlt hlt' (List.append_inj hwords.1 (by simp)).2

theorem local_eq (hshort : t.length ≤ 22) (ht : LibcxxObject o t) (hu : LibcxxObject o u) :
    t = u := by
  have hlen := length_eq ht hu
  obtain ⟨-, pad, heq⟩ | ⟨hlong, -⟩ := ht
  · obtain ⟨-, pad', heq'⟩ | ⟨hlong, -⟩ := hu
    · refine prefix_unique (l := o.bytes) ⟨0 :: pad ++ [UInt8.ofNat t.length], ?_⟩
        ⟨0 :: pad' ++ [UInt8.ofNat u.length], ?_⟩ hlen
      · rw [heq, List.append_assoc]
      · rw [heq', List.append_assoc]
    · omega
  · omega

theorem exists_of_length (data : ℕ) (hlt : t.length < 256 ^ 8) : ∃ o, LibcxxObject o t := by
  by_cases hshort : t.length ≤ 22
  · refine ⟨⟨t ++ 0 :: List.replicate (22 - t.length) 0 ++ [UInt8.ofNat t.length], ?_⟩,
      Or.inl ⟨hshort, _, rfl⟩⟩
    simp only [List.length_append, List.length_cons, List.length_replicate, List.length_nil]
    omega
  · refine ⟨⟨leBytes 8 data ++ leBytes 8 t.length ++ leBytes 8 (2 ^ 63), ?_⟩,
      Or.inr ⟨not_le.mp hshort, hlt, data, 2 ^ 63, le_rfl, by omega, rfl⟩⟩
    simp only [List.length_append, length_leBytes]

theorem heap_word (hlong : 22 < t.length) (h : LibcxxObject o t) :
    leBytes 8 t.length <:+: o.bytes := by
  obtain ⟨hshort, -⟩ | ⟨-, -, data, capacity, -, -, heq⟩ := h
  · omega
  · exact ⟨leBytes 8 data, leBytes 8 capacity, heq.symm⟩

theorem heap_congr (hlong : 22 < t.length) (hlen : t.length = u.length) (h : LibcxxObject o t) :
    LibcxxObject o u := by
  obtain ⟨hshort, -⟩ | hheap := h
  · omega
  · rw [hlen] at hheap
    exact Or.inr hheap

end LibcxxObject

theorem libcxx_local_lt : 22 < 24 := by decide

/-- The strings of Apple's compiler. -/
def libcxx : StringLayout where
  size := 24
  localCapacity := 22
  Represents := LibcxxObject
  localCapacity_lt := libcxx_local_lt
  exists_object _ := LibcxxObject.exists_of_length 4096
  length_eq _ _ _ := LibcxxObject.length_eq
  local_eq _ _ _ := LibcxxObject.local_eq
  heap_word _ _ := LibcxxObject.heap_word
  heap_congr _ _ _ := LibcxxObject.heap_congr

/-! ### The client `ME` -/

theorem nul_not_mem_me : (0 : UInt8) ∉ ascii "ME" := by decide

theorem one_le_length_me : 1 ≤ (ascii "ME").length := by decide

theorem length_me_le : (ascii "ME").length ≤ 255 := by decide

def nameMe : ClientName := ⟨⟨ascii "ME", nul_not_mem_me⟩, one_le_length_me, length_me_le⟩

/-- Its object in g++, at the address 8192. -/
def libstdcxxMe : Buffer 32 :=
  ⟨leBytes 8 8208 ++ leBytes 8 2 ++ (ascii "ME" ++ List.replicate 14 0), rfl⟩

/-- Its object with Apple's compiler. -/
def libcxxMe : Buffer 24 := ⟨ascii "ME" ++ 0 :: List.replicate 20 0 ++ [2], rfl⟩

theorem represents_libstdcxxMe : libstdcxx.Represents libstdcxxMe nameMe.bytes := by
  refine ⟨by decide, 8208, _, rfl, fun _ => ⟨List.replicate 13 0, rfl⟩, fun h => ?_⟩
  exact absurd h (by decide)

theorem represents_libcxxMe : libcxx.Represents libcxxMe nameMe.bytes :=
  Or.inl ⟨by decide, List.replicate 20 0, rfl⟩

/-- What the theorem says of it, in both libraries. -/
theorem presented_identity_me :
    identity libstdcxx libstdcxxMe ≠ nameMe.bytes ∧ identity libcxx libcxxMe ≠ nameMe.bytes :=
  ⟨((presented_identity libstdcxx).1 nameMe libstdcxxMe represents_libstdcxxMe).1,
    ((presented_identity libcxx).1 nameMe libcxxMe represents_libcxxMe).1⟩

/-- Both libraries' clients present the object: 32 bytes that begin with an address, or the name with
22 more bytes. -/
theorem not_presented_name :
    (libstdcxx.Represents libstdcxxMe nameMe.bytes ∧
      identity libstdcxx libstdcxxMe = leBytes 8 8208 ++ leBytes 8 2 ++
        (ascii "ME" ++ List.replicate 14 0) ∧
      identity libstdcxx libstdcxxMe ≠ nameMe.bytes) ∧
    (libcxx.Represents libcxxMe nameMe.bytes ∧
      identity libcxx libcxxMe = ascii "ME" ++ 0 :: List.replicate 20 0 ++ [2] ∧
      identity libcxx libcxxMe ≠ nameMe.bytes) :=
  ⟨⟨represents_libstdcxxMe, rfl, by decide⟩, represents_libcxxMe, rfl, by decide⟩

end Fssn.Zmq.Identity
