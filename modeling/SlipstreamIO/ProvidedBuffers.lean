import SlipstreamIO.PosixTry
import SlipstreamIO.SyscallSwitch
import SlipstreamIO.WrappingRing

/-! The provided-buffer rings: the caller adds buffers at its tail, in its own memory, and the engine
takes them at its head; both are 16-bit counters that run freely. -/
namespace SlipstreamIO.Engine

open Runs Syscall WrappingRing

def slipBufringsMax : ℕ := 16

/-- `struct io_uring_buf`, without `resv`. -/
structure Buf where
  addr : UInt64
  len : UInt32
  bid : UInt16
  deriving DecidableEq, Repr

/-- The caller's memory at a `ring_addr`: the entries, and the tail that overlays `resv` of the first
one. -/
structure BufMem where
  bufs : ℕ → Buf := fun _ => ⟨0, 0, 0⟩
  tail : UInt16 := 0

/-- `bufs` is the address of the caller's memory. -/
structure SlipBufring where
  bufs : UInt64
  entries : UInt32
  bgid : UInt16
  head : UInt16
  deriving DecidableEq, Repr

/-- `struct io_uring_buf_reg`. -/
structure BufReg where
  ringAddr : UInt64
  ringEntries : UInt32
  bgid : UInt16
  flags : UInt16
  deriving DecidableEq, Repr

/-- `r->bufrings`, those in use, and the memory of the caller. `lent` is ghost: the last take of the
group gave a buffer that was not given back. -/
structure Provided where
  bufrings : ℕ → Option SlipBufring := fun _ => none
  mem : UInt64 → BufMem := fun _ => {}
  lent : UInt16 → Bool := fun _ => false

namespace Provided

def setRing (p : Provided) (i : ℕ) (b : Option SlipBufring) : Provided :=
  { p with bufrings := fun j => if j = i then b else p.bufrings j }

def setLent (p : Provided) (bgid : UInt16) (is : Bool) : Provided :=
  { p with lent := fun g => if g = bgid then is else p.lent g }

def slipBufringOf (p : Provided) (bgid : UInt16) : Option (ℕ × SlipBufring) :=
  (List.range slipBufringsMax).findSome? fun i =>
    match p.bufrings i with
    | some b => if b.bgid = bgid then some (i, b) else none
    | none => none

/-- IORING_REGISTER_PBUF_RING. -/
def registerPbufRing (p : Provided) (arg : Option BufReg) : Provided × Int32 :=
  match arg with
  | none => (p, -efault)
  | some reg =>
    if reg.flags ≠ 0 || reg.ringAddr = 0 then (p, -einval)
    else if reg.ringEntries = 0 || reg.ringEntries &&& (reg.ringEntries - 1) ≠ 0 ||
        0x8000 < reg.ringEntries then (p, -einval)
    else if (p.slipBufringOf reg.bgid).isSome then (p, -eexist)
    else
      match (List.range slipBufringsMax).find? fun i => (p.bufrings i).isNone with
      | none => (p, -enomem)
      | some i =>
        ((p.setRing i (some ⟨reg.ringAddr, reg.ringEntries, reg.bgid, 0⟩)).setLent reg.bgid false, 0)

/-- IORING_UNREGISTER_PBUF_RING. -/
def unregisterPbufRing (p : Provided) (arg : Option BufReg) : Provided × Int32 :=
  match arg with
  | none => (p, -efault)
  | some reg =>
    match p.slipBufringOf reg.bgid with
    | none => (p, -enoent)
    | some (i, _) => (p.setRing i none, 0)

/-- None is the answer -ENOBUFS. -/
def bufringTake (p : Provided) (bgid : UInt16) : Provided × Option Buf :=
  match p.slipBufringOf bgid with
  | none => (p.setLent bgid false, none)
  | some (i, b) =>
    if (p.mem b.bufs).tail = b.head then (p.setLent bgid false, none)
    else
      ((p.setRing i (some { b with head := b.head + 1 })).setLent bgid true,
        some ((p.mem b.bufs).bufs (b.head.toUInt32 &&& (b.entries - 1)).toNat))

def bufringUnget (p : Provided) (bgid : UInt16) : Provided :=
  match p.slipBufringOf bgid with
  | none => p
  | some (i, b) => (p.setRing i (some { b with head := b.head - 1 })).setLent bgid false

/-- The caller writes an entry at the tail of a ring of so many entries, and moves the tail on. -/
def callerAdds (p : Provided) (addr : UInt64) (entries : UInt32) (buf : Buf) : Provided :=
  let m := p.mem addr
  let at_ := (m.tail.toUInt32 &&& (entries - 1)).toNat
  { p with mem := fun x =>
      if x = addr then ⟨fun j => if j = at_ then buf else m.bufs j, m.tail + 1⟩ else p.mem x }

end Provided

inductive BufLabel where
  | register (arg : Option BufReg)
  | unregister (arg : Option BufReg)
  | add (addr : UInt64) (entries : UInt32) (buf : Buf)
  | take (bgid : UInt16)
  | unget (bgid : UInt16)
  deriving DecidableEq

inductive BufEvent where
  | added (addr : UInt64) (buf : Buf)
  | took (bgid : UInt16) (buf : Buf)
  | gaveBack (bgid : UInt16)
  deriving DecidableEq

def Provided.next (p : Provided) : BufLabel → Provided
  | .register arg => (p.registerPbufRing arg).1
  | .unregister arg => (p.unregisterPbufRing arg).1
  | .add addr entries buf => p.callerAdds addr entries buf
  | .take bgid => (p.bufringTake bgid).1
  | .unget bgid => p.bufringUnget bgid

def Provided.events (p : Provided) : BufLabel → List BufEvent
  | .add addr _ buf => [.added addr buf]
  | .take bgid =>
    match (p.bufringTake bgid).2 with
    | some buf => [.took bgid buf]
    | none => []
  | .unget bgid => [.gaveBack bgid]
  | _ => []

def bufMachine : Machine Provided BufLabel BufEvent := ⟨fun p l => some (p.next l), Provided.events⟩

/-- Tail minus consumed head of a group. -/
def Provided.unread (p : Provided) (bgid : UInt16) : ℕ :=
  match p.slipBufringOf bgid with
  | none => 0
  | some (_, b) => ((p.mem b.bufs).tail - b.head).toNat

/-- While the ring of `entries` entries in the memory at `addr` is registered as `bgid`: what the
caller writes there, it writes for that many entries and keeps within them; only what was taken last
is given back, once; and the ring is not unregistered. -/
def Careful (bgid : UInt16) (addr : UInt64) (entries : UInt32) (p : Provided) (l : BufLabel) : Prop :=
  (match l with
    | .add x n _ => x = addr → n = entries
    | .unget g => g = bgid → p.lent g = true
    | .unregister (some reg) => reg.bgid ≠ bgid
    | _ => True) ∧
  (p.next l).unread bgid ≤ entries.toNat

/-- The buffers added to the memory at `addr`, in order. -/
def addedAt (addr : UInt64) (tr : List BufEvent) : List Buf :=
  tr.filterMap fun
    | .added x buf => if x = addr then some buf else none
    | _ => none

/-- The buffers taken from a group and not given back. -/
def keptOf (bgid : UInt16) (tr : List BufEvent) : List Buf :=
  tr.foldl (fun kept e =>
    match e with
    | .took g buf => if g = bgid then kept ++ [buf] else kept
    | .gaveBack g => if g = bgid then kept.dropLast else kept
    | .added .. => kept) []

section Counters
variable {m n k : ℕ}

/-- Counters less than `2 ^ 16` apart are equal only at one count. -/
theorem counter_eq_iff (hle : n ≤ m) (hlt : m < n + 65536) :
    UInt16.ofNat m = UInt16.ofNat n ↔ m = n := by
  constructor
  · intro h
    have hmod := congrArg UInt16.toNat h
    rw [UInt16.toNat_ofNat', UInt16.toNat_ofNat'] at hmod
    omega
  · intro h
    rw [h]

theorem counter_sub (hle : n ≤ m) (hlt : m < n + 65536) :
    (UInt16.ofNat m - UInt16.ofNat n).toNat = m - n := by
  rw [UInt16.toNat_sub, UInt16.toNat_ofNat', UInt16.toNat_ofNat']
  omega

theorem counter_succ (n : ℕ) : UInt16.ofNat n + 1 = UInt16.ofNat (n + 1) := by
  rw [UInt16.ofNat_add]
  rfl

theorem counter_pred (hn : 0 < n) : UInt16.ofNat n - 1 = UInt16.ofNat (n - 1) := by
  obtain ⟨j, rfl⟩ := Nat.exists_eq_succ_of_ne_zero hn.ne'
  rw [Nat.succ_sub_one, Nat.succ_eq_add_one, ← counter_succ, UInt16.add_sub_cancel]

/-- The entry a counter names is its count modulo the size, wherever the counter wrapped. -/
theorem counter_cell (hk : k ≤ 15) (n : ℕ) :
    ((UInt16.ofNat n).toUInt32 &&& (UInt32.ofNat (2 ^ k) - 1)).toNat = n % 2 ^ k := by
  have hdvd : 2 ^ k ∣ 2 ^ 16 := Nat.pow_dvd_pow 2 (by omega)
  rw [and_mask (by omega), UInt16.toNat_toUInt32, UInt16.toNat_ofNat', Nat.mod_mod_of_dvd _ hdvd]

end Counters

/-- The ring of `2 ^ k` entries in the memory at `addr` is registered as `bgid`, in slot `i` and in no
other, and its head stands at count `n`. -/
structure BufPlaced (bgid : UInt16) (addr : UInt64) (k i : ℕ) (p : Provided) (n : ℕ) : Prop where
  slot : i < slipBufringsMax
  ring : p.bufrings i = some ⟨addr, UInt32.ofNat (2 ^ k), bgid, UInt16.ofNat n⟩
  others : ∀ j < slipBufringsMax, j ≠ i → ∀ b, p.bufrings j = some b → b.bgid ≠ bgid

/-- The caller has added `added` to the memory at `addr`, and the last `2 ^ k` of them are still in
their entries. -/
structure Filled (addr : UInt64) (k : ℕ) (p : Provided) (added : List Buf) : Prop where
  tail : (p.mem addr).tail = UInt16.ofNat added.length
  entries : ∀ j b, added[j]? = some b → added.length ≤ j + 2 ^ k →
    (p.mem addr).bufs (j % 2 ^ k) = b

/-- Of the buffers `added` to the ring, the first `n` are taken. -/
structure Serves (bgid : UInt16) (addr : UInt64) (k i : ℕ) (p : Provided) (added : List Buf) (n : ℕ) :
    Prop extends BufPlaced bgid addr k i p n, Filled addr k p added where
  behind : n ≤ added.length
  within : added.length ≤ n + 2 ^ k
  lent : p.lent bgid = true → 0 < n

section Serves
variable {bgid g : UInt16} {addr : UInt64} {k i n : ℕ} {p : Provided} {added : List Buf}

theorem slipBufringOf_some {j : ℕ} {b : SlipBufring} (h : p.slipBufringOf g = some (j, b)) :
    j < slipBufringsMax ∧ p.bufrings j = some b ∧ b.bgid = g := by
  obtain ⟨x, hx, hfound⟩ := List.exists_of_findSome?_eq_some h
  split at hfound
  · next b' hb' =>
    split at hfound
    · next hg =>
      cases hfound
      exact ⟨List.mem_range.mp hx, hb', hg⟩
    · cases hfound
  · cases hfound

theorem slipBufringOf_none (h : p.slipBufringOf g = none) :
    ∀ j < slipBufringsMax, ∀ b, p.bufrings j = some b → b.bgid ≠ g := by
  intro j hj b hb hg
  have hnone := List.findSome?_eq_none_iff.mp h j (List.mem_range.mpr hj)
  simp [hb, hg] at hnone

/-- The group's ring is found where it is. -/
theorem BufPlaced.found (h : BufPlaced bgid addr k i p n) :
    p.slipBufringOf bgid = some (i, ⟨addr, UInt32.ofNat (2 ^ k), bgid, UInt16.ofNat n⟩) := by
  cases hfind : p.slipBufringOf bgid with
  | none => exact absurd rfl (slipBufringOf_none hfind i h.slot _ h.ring)
  | some found =>
    obtain ⟨j, b⟩ := found
    obtain ⟨hj, hb, hg⟩ := slipBufringOf_some hfind
    by_cases hij : j = i
    · rw [hij, h.ring] at hb
      cases hb
      rw [hij]
    · exact absurd hg (h.others j hj hij b hb)

/-- The group's own slot, with its head moved to count `m`. -/
theorem BufPlaced.move (h : BufPlaced bgid addr k i p n) (m : ℕ) (is : Bool) :
    BufPlaced bgid addr k i ((p.setRing i (some ⟨addr, UInt32.ofNat (2 ^ k), bgid,
      UInt16.ofNat m⟩)).setLent bgid is) m where
  slot := h.slot
  ring := if_pos rfl
  others := by
    intro j hj hij b hb
    rw [Provided.setLent, Provided.setRing] at hb
    simp only [if_neg hij] at hb
    exact h.others j hj hij b hb

theorem BufPlaced.unread_eq {count : ℕ} (h : BufPlaced bgid addr k i p n)
    (htail : (p.mem addr).tail = UInt16.ofNat count) (hle : n ≤ count) (hlt : count < n + 65536) :
    p.unread bgid = count - n := by
  rw [Provided.unread, h.found]
  simp only
  rw [htail]
  exact counter_sub hle hlt

theorem Serves.size (h : Serves bgid addr k i p added n) (hk : k ≤ 15) :
    added.length < n + 65536 := by
  have hpow : 2 ^ k ≤ 2 ^ 15 := Nat.pow_le_pow_right (by decide) hk
  have hwithin := h.within
  omega

/-- A change of another slot that does not give it this group. -/
theorem Serves.setRing_ne {q : ℕ} (h : Serves bgid addr k i p added n) (hq : q ≠ i)
    {b : Option SlipBufring} (hb : ∀ x, b = some x → x.bgid ≠ bgid) :
    Serves bgid addr k i (p.setRing q b) added n where
  slot := h.slot
  ring := (if_neg hq.symm).trans h.ring
  others := by
    intro j hj hij x hx
    rw [Provided.setRing] at hx
    simp only at hx
    split at hx
    · exact hb x hx
    · exact h.others j hj hij x hx
  toFilled := ⟨h.tail, h.entries⟩
  behind := h.behind
  within := h.within
  lent := h.lent

theorem Serves.setLent_ne (h : Serves bgid addr k i p added n) (hg : g ≠ bgid) (is : Bool) :
    Serves bgid addr k i (p.setLent g is) added n where
  toBufPlaced := ⟨h.slot, h.ring, h.others⟩
  toFilled := ⟨h.tail, h.entries⟩
  behind := h.behind
  within := h.within
  lent := by
    intro hl
    rw [Provided.setLent] at hl
    simp only [if_neg hg.symm] at hl
    exact h.lent hl

/-- Another group's ring is in another slot. -/
theorem Serves.slot_ne {j : ℕ} {b : SlipBufring} (h : Serves bgid addr k i p added n) (hg : g ≠ bgid)
    (hfind : p.slipBufringOf g = some (j, b)) : j ≠ i ∧ b.bgid ≠ bgid := by
  obtain ⟨-, hb, hbg⟩ := slipBufringOf_some hfind
  have hne : b.bgid ≠ bgid := by rwa [hbg]
  refine ⟨fun hji => ?_, hne⟩
  rw [hji, h.ring] at hb
  cases hb
  exact hne rfl

theorem Serves.take_ne (h : Serves bgid addr k i p added n) (hg : g ≠ bgid) :
    Serves bgid addr k i (p.bufringTake g).1 added n := by
  unfold Provided.bufringTake
  split
  · exact h.setLent_ne hg false
  · next j b hfind =>
    obtain ⟨hj, hb⟩ := h.slot_ne hg hfind
    split
    · exact h.setLent_ne hg false
    · apply (h.setRing_ne hj _).setLent_ne hg true
      intro x hx
      cases hx
      exact hb

theorem Serves.unget_ne (h : Serves bgid addr k i p added n) (hg : g ≠ bgid) :
    Serves bgid addr k i (p.bufringUnget g) added n := by
  unfold Provided.bufringUnget
  split
  · exact h
  · next j b hfind =>
    obtain ⟨hj, hb⟩ := h.slot_ne hg hfind
    apply (h.setRing_ne hj _).setLent_ne hg false
    intro x hx
    cases hx
    exact hb

theorem Serves.register (h : Serves bgid addr k i p added n) (arg : Option BufReg) :
    Serves bgid addr k i (p.registerPbufRing arg).1 added n := by
  unfold Provided.registerPbufRing
  (repeat' split) <;> try exact h
  next reg _ _ hgroup _ j hfree =>
    have hj : j ≠ i := by
      intro hji
      have hnone := List.find?_some hfree
      rw [hji, h.ring] at hnone
      cases hnone
    have hg : reg.bgid ≠ bgid := by
      intro hreg
      rw [hreg, h.found] at hgroup
      exact hgroup rfl
    apply (h.setRing_ne hj _).setLent_ne hg false
    intro x hx
    cases hx
    exact hg

theorem Serves.unregister (h : Serves bgid addr k i p added n) {arg : Option BufReg}
    (harg : ∀ reg, arg = some reg → reg.bgid ≠ bgid) :
    Serves bgid addr k i (p.unregisterPbufRing arg).1 added n := by
  unfold Provided.unregisterPbufRing
  (repeat' split) <;> try exact h
  next reg _ j b hfind =>
    apply h.setRing_ne (h.slot_ne (harg reg rfl) hfind).1
    intro x hx
    cases hx

theorem Serves.add_ne {x : UInt64} (h : Serves bgid addr k i p added n) (hx : x ≠ addr)
    (entries : UInt32) (buf : Buf) : Serves bgid addr k i (p.callerAdds x entries buf) added n where
  toBufPlaced := ⟨h.slot, h.ring, h.others⟩
  tail := by
    simp only [Provided.callerAdds, if_neg hx.symm]
    exact h.tail
  behind := h.behind
  within := h.within
  entries := by
    simp only [Provided.callerAdds, if_neg hx.symm]
    exact h.entries
  lent := h.lent

/-- With the head moved, within the bounds. -/
theorem Serves.move (h : Serves bgid addr k i p added n) {m : ℕ} (is : Bool)
    (hbehind : m ≤ added.length) (hwithin : added.length ≤ m + 2 ^ k) (hlent : is = true → 0 < m) :
    Serves bgid addr k i ((p.setRing i (some ⟨addr, UInt32.ofNat (2 ^ k), bgid, UInt16.ofNat m⟩)).setLent
      bgid is) added m where
  toBufPlaced := h.toBufPlaced.move m is
  toFilled := ⟨h.tail, h.entries⟩
  behind := hbehind
  within := hwithin
  lent := by
    intro hl
    rw [Provided.setLent] at hl
    simp only [if_true] at hl
    exact hlent hl

/-- While a buffer is left, a take gives the next one in the order of the adds. -/
theorem Serves.take_some (h : Serves bgid addr k i p added n) (hk : k ≤ 15) {buf : Buf}
    (hbuf : added[n]? = some buf) :
    (p.bufringTake bgid).2 = some buf ∧
      Serves bgid addr k i (p.bufringTake bgid).1 added (n + 1) := by
  have hlt : n < added.length := (List.getElem?_eq_some_iff.mp hbuf).1
  have hne : UInt16.ofNat added.length ≠ UInt16.ofNat n := by
    rw [Ne, counter_eq_iff h.behind (h.size hk)]
    omega
  have hentry := h.entries n buf hbuf h.within
  have hwithin := h.within
  simp only [Provided.bufringTake, h.found, h.tail, if_neg hne, counter_cell hk, hentry, counter_succ,
    true_and]
  exact h.move true hlt (by omega) (fun _ => Nat.succ_pos n)

/-- With all of them taken it gives none. -/
theorem Serves.take_none (h : Serves bgid addr k i p added n) (hn : added.length ≤ n) :
    (p.bufringTake bgid).2 = none ∧ Serves bgid addr k i (p.bufringTake bgid).1 added n := by
  have heq : added.length = n := le_antisymm hn h.behind
  have hempty : (p.mem addr).tail = UInt16.ofNat n := by rw [h.tail, heq]
  simp only [Provided.bufringTake, h.found, if_pos hempty, true_and]
  have hring : p.setRing i (some ⟨addr, UInt32.ofNat (2 ^ k), bgid, UInt16.ofNat n⟩) = p := by
    rw [Provided.setRing, ← h.ring]
    congr 1
    funext j
    split
    · next hj => rw [hj]
    · rfl
  have hmoved := h.move false h.behind h.within (fun hf => by cases hf)
  rw [hring] at hmoved
  exact hmoved

/-- Giving the last one back moves the head to it again. -/
theorem Serves.unget (h : Serves bgid addr k i p added n) (hk : k ≤ 15) (hlent : p.lent bgid = true)
    (hbound : (p.bufringUnget bgid).unread bgid ≤ 2 ^ k) :
    Serves bgid addr k i (p.bufringUnget bgid) added (n - 1) := by
  have hpos := h.lent hlent
  have hbehind := h.behind
  have hwithin := h.within
  have hpow : 2 ^ k ≤ 2 ^ 15 := Nat.pow_le_pow_right (by decide) hk
  have hunget : p.bufringUnget bgid = (p.setRing i (some ⟨addr, UInt32.ofNat (2 ^ k), bgid,
      UInt16.ofNat (n - 1)⟩)).setLent bgid false := by
    simp only [Provided.bufringUnget, h.found, counter_pred hpos]
  have hunread := (h.toBufPlaced.move (n - 1) false).unread_eq h.tail (by omega) (by omega)
  rw [hunget] at hbound ⊢
  rw [hunread] at hbound
  exact h.move false (by omega) (by omega) (fun hf => by cases hf)

/-- What the caller adds stands behind the rest, and overwrites none of the last `2 ^ k`. -/
theorem Filled.add (h : Filled addr k p added) (hk : k ≤ 15) (buf : Buf) :
    Filled addr k (p.callerAdds addr (UInt32.ofNat (2 ^ k)) buf) (added ++ [buf]) where
  tail := by
    simp only [Provided.callerAdds, if_true, h.tail, List.length_append, List.length_singleton,
      counter_succ]
  entries := by
    intro j b hj hlast
    simp only [List.length_append, List.length_singleton] at hlast
    simp only [Provided.callerAdds, if_true, h.tail, counter_cell hk]
    rcases Nat.lt_or_ge j added.length with hlt | hge
    · have hcell : ¬ j % 2 ^ k = added.length % 2 ^ k := by
        intro hmod
        have hdvd := (Nat.modEq_iff_dvd' hlt.le).mp hmod
        have hle := Nat.le_of_dvd (by omega) hdvd
        omega
      rw [List.getElem?_append_left hlt] at hj
      rw [if_neg hcell]
      exact h.entries j b hj (by omega)
    · have hlast' : j < (added ++ [buf]).length := (List.getElem?_eq_some_iff.mp hj).1
      simp only [List.length_append, List.length_singleton] at hlast'
      have heq : j = added.length := by omega
      rw [heq, List.getElem?_concat_length] at hj
      cases hj
      rw [if_pos (by rw [heq])]

theorem Serves.add (h : Serves bgid addr k i p added n) (hk : k ≤ 15) (buf : Buf)
    (hbound : (p.callerAdds addr (UInt32.ofNat (2 ^ k)) buf).unread bgid ≤ 2 ^ k) :
    Serves bgid addr k i (p.callerAdds addr (UInt32.ofNat (2 ^ k)) buf) (added ++ [buf]) n := by
  have hbehind := h.behind
  have hwithin := h.within
  have hpow : 2 ^ k ≤ 2 ^ 15 := Nat.pow_le_pow_right (by decide) hk
  have hplaced : BufPlaced bgid addr k i (p.callerAdds addr (UInt32.ofNat (2 ^ k)) buf) n :=
    ⟨h.slot, h.ring, h.others⟩
  have hfilled := h.toFilled.add hk buf
  have hlen : (added ++ [buf]).length = added.length + 1 := List.length_append
  rw [hplaced.unread_eq hfilled.tail (by omega) (by omega), hlen] at hbound
  exact {
    toBufPlaced := hplaced
    toFilled := hfilled
    behind := by omega
    within := by omega
    lent := h.lent }

theorem addedAt_append (tr ev : List BufEvent) :
    addedAt addr (tr ++ ev) = addedAt addr tr ++ addedAt addr ev := List.filterMap_append

/-- One event more, as far as the buffers kept go. -/
theorem keptOf_concat (tr : List BufEvent) (e : BufEvent) : keptOf bgid (tr ++ [e]) =
    match e with
    | .took g buf => if g = bgid then keptOf bgid tr ++ [buf] else keptOf bgid tr
    | .gaveBack g => if g = bgid then (keptOf bgid tr).dropLast else keptOf bgid tr
    | .added .. => keptOf bgid tr := by
  rw [keptOf, List.foldl_append]
  rfl

/-- The ring serves what the trace and the adds before it say, and what is kept of it are the first
ones added. -/
structure InOrder (bgid : UInt16) (addr : UInt64) (k i : ℕ) (pre : List Buf) (tr : List BufEvent)
    (p : Provided) : Prop where
  serves : Serves bgid addr k i p (pre ++ addedAt addr tr) (keptOf bgid tr).length
  prefixed : keptOf bgid tr <+: pre ++ addedAt addr tr

/-- A step that adds nothing and takes nothing for this ring. -/
theorem InOrder.idle {pre : List Buf} {tr ev : List BufEvent} {q : Provided}
    (h : InOrder bgid addr k i pre tr p) (hadded : addedAt addr ev = [])
    (hkept : keptOf bgid (tr ++ ev) = keptOf bgid tr)
    (hserves : Serves bgid addr k i q (pre ++ addedAt addr tr) (keptOf bgid tr).length) :
    InOrder bgid addr k i pre (tr ++ ev) q := by
  constructor
  · rw [addedAt_append, hadded, List.append_nil, hkept]
    exact hserves
  · rw [addedAt_append, hadded, List.append_nil, hkept]
    exact h.prefixed

/-- The next buffer in line makes the kept ones one longer, and still the first ones added. -/
theorem prefix_concat {l m : List Buf} {buf : Buf} (h : l <+: m) (hbuf : m[l.length]? = some buf) :
    l ++ [buf] <+: m := by
  obtain ⟨rest, rfl⟩ := h
  rw [List.getElem?_append_right le_rfl, Nat.sub_self] at hbuf
  cases rest with
  | nil => cases hbuf
  | cons b rest =>
    cases hbuf
    exact ⟨rest, by simp⟩

theorem InOrder.step {pre : List Buf} {tr : List BufEvent} {l : BufLabel} (hk : k ≤ 15)
    (h : InOrder bgid addr k i pre tr p) (hc : Careful bgid addr (UInt32.ofNat (2 ^ k)) p l) :
    InOrder bgid addr k i pre (tr ++ p.events l) (p.next l) := by
  have hpow : 2 ^ k ≤ 2 ^ 15 := Nat.pow_le_pow_right (by decide) hk
  have hsize : (UInt32.ofNat (2 ^ k)).toNat = 2 ^ k := UInt32.toNat_ofNat_of_lt' (hpow.trans_lt (by decide))
  obtain ⟨hact, hbound⟩ := hc
  rw [hsize] at hbound
  cases l with
  | register arg => exact h.idle rfl (by simp [Provided.events]) (h.serves.register arg)
  | unregister arg =>
    apply h.idle rfl (by simp [Provided.events])
    apply h.serves.unregister
    intro reg harg
    rw [harg] at hact
    exact hact
  | add x entries buf =>
    by_cases hx : x = addr
    · have hentries : entries = UInt32.ofNat (2 ^ k) := hact hx
      subst hx hentries
      have hadded : addedAt x (tr ++ [.added x buf]) = addedAt x tr ++ [buf] := by
        simp [addedAt]
      constructor
      · rw [Provided.events, hadded, keptOf_concat, ← List.append_assoc]
        exact h.serves.add hk buf hbound
      · rw [Provided.events, hadded, keptOf_concat, ← List.append_assoc]
        exact h.prefixed.trans (List.prefix_append _ _)
    · apply h.idle
      · simp [Provided.events, addedAt, hx]
      · rw [Provided.events, keptOf_concat]
      · exact h.serves.add_ne hx entries buf
  | take g =>
    by_cases hg : g = bgid
    · subst hg
      cases hnext : (pre ++ addedAt addr tr)[(keptOf g tr).length]? with
      | none =>
        obtain ⟨hans, hserves⟩ := h.serves.take_none (List.getElem?_eq_none_iff.mp hnext)
        have hev : p.events (.take g) = [] := by rw [Provided.events, hans]
        rw [hev]
        exact h.idle rfl (by rw [List.append_nil]) hserves
      | some buf =>
        obtain ⟨hans, hserves⟩ := h.serves.take_some hk hnext
        have hev : p.events (.take g) = [.took g buf] := by rw [Provided.events, hans]
        have hadded : addedAt addr (tr ++ [.took g buf]) = addedAt addr tr := by
          simp [addedAt]
        have hkept : keptOf g (tr ++ [.took g buf]) = keptOf g tr ++ [buf] := by
          rw [keptOf_concat]
          exact if_pos rfl
        rw [hev]
        constructor
        · rw [hadded, hkept, List.length_append]
          exact hserves
        · rw [hadded, hkept]
          exact prefix_concat h.prefixed hnext
    · have hev : addedAt addr (p.events (.take g)) = [] ∧
          keptOf bgid (tr ++ p.events (.take g)) = keptOf bgid tr := by
        rw [Provided.events]
        split
        · exact ⟨rfl, by rw [keptOf_concat]; exact if_neg hg⟩
        · exact ⟨rfl, by rw [List.append_nil]⟩
      exact h.idle hev.1 hev.2 (h.serves.take_ne hg)
  | unget g =>
    by_cases hg : g = bgid
    · subst hg
      have hserves := h.serves.unget hk (hact rfl) hbound
      have hadded : addedAt addr (tr ++ [.gaveBack g]) = addedAt addr tr := by simp [addedAt]
      have hkept : keptOf g (tr ++ [.gaveBack g]) = (keptOf g tr).dropLast := by
        rw [keptOf_concat]
        exact if_pos rfl
      constructor
      · rw [Provided.events, hadded, hkept, List.length_dropLast]
        exact hserves
      · rw [Provided.events, hadded, hkept]
        exact (List.dropLast_prefix _).trans h.prefixed
    · apply h.idle
      · rfl
      · rw [Provided.events, keptOf_concat]
        exact if_neg hg
      · exact h.serves.unget_ne hg

theorem keptOf_quiet {tr' : List BufEvent} (htook : ∀ buf, .took bgid buf ∉ tr')
    (hback : .gaveBack bgid ∉ tr') (tr : List BufEvent) : keptOf bgid (tr ++ tr') = keptOf bgid tr := by
  induction tr' generalizing tr with
  | nil => rw [List.append_nil]
  | cons e rest ih =>
    have hrest := ih (fun buf hb => htook buf (List.mem_cons_of_mem _ hb))
      (fun hb => hback (List.mem_cons_of_mem _ hb)) (tr ++ [e])
    rw [List.append_assoc, List.singleton_append] at hrest
    rw [hrest, keptOf_concat]
    cases e with
    | added x buf => rfl
    | took g buf =>
      apply if_neg
      rintro rfl
      exact htook buf List.mem_cons_self
    | gaveBack g =>
      apply if_neg
      rintro rfl
      exact hback List.mem_cons_self

end Serves

/-- Buffers the caller adds one by one. -/
def Provided.fill (p : Provided) (addr : UInt64) (entries : UInt32) (bufs : List Buf) : Provided :=
  bufs.foldl (fun p buf => p.callerAdds addr entries buf) p

theorem Filled.fill {addr : UInt64} {k : ℕ} {p : Provided} {added : List Buf}
    (h : Filled addr k p added) (hk : k ≤ 15) (bufs : List Buf) :
    Filled addr k (p.fill addr (UInt32.ofNat (2 ^ k)) bufs) (added ++ bufs) := by
  induction bufs generalizing p added with
  | nil =>
    rw [List.append_nil]
    exact h
  | cons buf rest ih =>
    have hrest := ih (h.add hk buf)
    rw [List.append_assoc, List.singleton_append] at hrest
    exact hrest

/-- The check of `ring_entries` lets through the powers of two up to `2 ^ 15`. -/
theorem entries_power {e : UInt32} (h0 : e ≠ 0) (hand : e &&& (e - 1) = 0) (hmax : e ≤ 0x8000) :
    ∃ k ≤ 15, e = UInt32.ofNat (2 ^ k) := by
  have hpos : e.toNat ≠ 0 := fun h => h0 (UInt32.toNat.inj h)
  have hone : (1 : UInt32) ≤ e := UInt32.le_iff_toNat_le.mpr (Nat.one_le_iff_ne_zero.mpr hpos)
  have hnat : e.toNat &&& (e.toNat - 1) = 0 := by
    have heq := congrArg UInt32.toNat hand
    rw [UInt32.toNat_and, UInt32.toNat_sub_of_le _ _ hone] at heq
    exact heq
  obtain ⟨k, hk⟩ := (Nat.and_sub_one_eq_zero_iff_isPowerOfTwo hpos).mp hnat
  have hle : 2 ^ k ≤ 2 ^ 15 := hk ▸ UInt32.le_iff_toNat_le.mp hmax
  refine ⟨k, (Nat.pow_le_pow_iff_right (by decide)).mp hle, ?_⟩
  rw [← hk, UInt32.ofNat_toNat]

/-- A registration that answers 0 puts the ring, with nothing taken, into a free slot. -/
theorem register_serves {p s : Provided} {reg : BufReg} {pre : List Buf}
    (htail : (p.mem reg.ringAddr).tail = 0) (hpre : pre.length ≤ reg.ringEntries.toNat)
    (hreg : (p.fill reg.ringAddr reg.ringEntries pre).registerPbufRing (some reg) = (s, 0)) :
    ∃ k ≤ 15, ∃ i, reg.ringEntries = UInt32.ofNat (2 ^ k) ∧
      Serves reg.bgid reg.ringAddr k i s pre 0 := by
  simp only [Provided.registerPbufRing] at hreg
  (repeat' split at hreg) <;> obtain ⟨hs, hanswer⟩ := Prod.mk.inj hreg <;>
    try exact absurd hanswer (by decide)
  next hshape hentries hgroup _ i hfree =>
    simp only [Bool.or_eq_true, decide_eq_true_eq, not_or, not_not, UInt32.not_lt] at hentries
    obtain ⟨k, hk, he⟩ := entries_power hentries.1.1 hentries.1.2 hentries.2
    have hpow : 2 ^ k ≤ 2 ^ 15 := Nat.pow_le_pow_right (by decide) hk
    have hsize : (UInt32.ofNat (2 ^ k)).toNat = 2 ^ k :=
      UInt32.toNat_ofNat_of_lt' (hpow.trans_lt (by decide))
    have hempty : Filled reg.ringAddr k p [] := ⟨htail, fun j b hb => by cases hb⟩
    have hfilled := hempty.fill hk pre
    rw [← he] at hfilled
    rw [he, hsize] at hpre
    have hfind : (p.fill reg.ringAddr reg.ringEntries pre).slipBufringOf reg.bgid = none := by
      rw [← Option.not_isSome_iff_eq_none]
      exact hgroup
    subst hs
    refine ⟨k, hk, i, he, {
      slot := List.mem_range.mp (List.mem_of_find?_eq_some hfree)
      ring := by
        rw [← he]
        exact if_pos rfl
      others := ?_
      toFilled := ⟨hfilled.tail, hfilled.entries⟩
      behind := Nat.zero_le _
      within := by omega
      lent := ?_ }⟩
    · intro j hj hij b hb
      rw [Provided.setLent, Provided.setRing] at hb
      simp only [if_neg hij] at hb
      exact slipBufringOf_none hfind j hj b hb
    · intro hl
      rw [Provided.setLent] at hl
      simp at hl

/-- What the ring has handed out when the trace is `tr` and the state `s`: the buffers taken and not
given back are the first ones added; a take gives the next one in line, and none exactly when all of
them are taken; one given back comes again with the next take, whatever happens in between. -/
structure HandsOut (bgid : UInt16) (addr : UInt64) (entries : UInt32) (added : List Buf)
    (tr : List BufEvent) (s : Provided) : Prop where
  inOrder : keptOf bgid tr <+: added
  next : (s.bufringTake bgid).2 = added[(keptOf bgid tr).length]?
  empty : (s.bufringTake bgid).2 = none ↔ keptOf bgid tr = added
  again : Careful bgid addr entries s (.unget bgid) → ∀ tr' s',
    Run bufMachine (Careful bgid addr entries) (s.next (.unget bgid)) tr' s' →
    (∀ buf, .took bgid buf ∉ tr') → .gaveBack bgid ∉ tr' →
    ∃ buf, (keptOf bgid tr).getLast? = some buf ∧ (s'.bufringTake bgid).2 = some buf

section Order
variable {p s₀ s : Provided} {reg : BufReg} {pre : List Buf} {tr : List BufEvent}

/-- After every run of a registered ring, for the size its registration let through. -/
theorem ring_inOrder (htail : (p.mem reg.ringAddr).tail = 0)
    (hpre : pre.length ≤ reg.ringEntries.toNat)
    (hreg : (p.fill reg.ringAddr reg.ringEntries pre).registerPbufRing (some reg) = (s₀, 0))
    (hr : Run bufMachine (Careful reg.bgid reg.ringAddr reg.ringEntries) s₀ tr s) :
    ∃ k ≤ 15, ∃ i, reg.ringEntries = UInt32.ofNat (2 ^ k) ∧
      InOrder reg.bgid reg.ringAddr k i pre tr s := by
  obtain ⟨k, hk, i, he, hstart⟩ := register_serves htail hpre hreg
  refine ⟨k, hk, i, he, ?_⟩
  apply hr.invariant (fun tr s => InOrder reg.bgid reg.ringAddr k i pre tr s)
  · constructor
    · rw [show addedAt reg.ringAddr [] = [] from rfl, List.append_nil]
      exact hstart
    · exact List.nil_prefix
  · intro tr s l s' _ h hc hs
    cases hs
    rw [he] at hc
    exact h.step hk hc

theorem take_next (htail : (p.mem reg.ringAddr).tail = 0)
    (hpre : pre.length ≤ reg.ringEntries.toNat)
    (hreg : (p.fill reg.ringAddr reg.ringEntries pre).registerPbufRing (some reg) = (s₀, 0))
    (hr : Run bufMachine (Careful reg.bgid reg.ringAddr reg.ringEntries) s₀ tr s) :
    (s.bufringTake reg.bgid).2 =
      (pre ++ addedAt reg.ringAddr tr)[(keptOf reg.bgid tr).length]? := by
  obtain ⟨k, hk, i, -, hin⟩ := ring_inOrder htail hpre hreg hr
  cases hnext : (pre ++ addedAt reg.ringAddr tr)[(keptOf reg.bgid tr).length]? with
  | none => exact (hin.serves.take_none (List.getElem?_eq_none_iff.mp hnext)).1
  | some buf => exact (hin.serves.take_some hk hnext).1

end Order

/-- A buffer ring hands out the caller's buffers once and in the order they were added, from its
registration on and over any number of wraps of its counters. -/
theorem buffers_once_in_order {p s₀ s : Provided} {reg : BufReg} {pre : List Buf} {tr : List BufEvent}
    (htail : (p.mem reg.ringAddr).tail = 0) (hpre : pre.length ≤ reg.ringEntries.toNat)
    (hreg : (p.fill reg.ringAddr reg.ringEntries pre).registerPbufRing (some reg) = (s₀, 0))
    (hr : Run bufMachine (Careful reg.bgid reg.ringAddr reg.ringEntries) s₀ tr s) :
    HandsOut reg.bgid reg.ringAddr reg.ringEntries (pre ++ addedAt reg.ringAddr tr) tr s := by
  obtain ⟨k, hk, i, -, hin⟩ := ring_inOrder htail hpre hreg hr
  have hnext := take_next htail hpre hreg hr
  refine ⟨hin.prefixed, hnext, ?_, ?_⟩
  · rw [hnext, List.getElem?_eq_none_iff]
    constructor
    · exact fun hle => hin.prefixed.eq_of_length_le hle
    · intro heq
      rw [heq]
  · intro hc tr' s' hr' htook hback
    have hlent := hin.serves.lent (hc.1 rfl)
    have hall := (hr.next hc rfl).append hr'
    have hagain := take_next htail hpre hreg hall
    have hev : bufMachine.events s (.unget reg.bgid) = [.gaveBack reg.bgid] := rfl
    have hkept : keptOf reg.bgid (tr ++ [.gaveBack reg.bgid] ++ tr') = (keptOf reg.bgid tr).dropLast := by
      rw [keptOf_quiet htook hback, keptOf_concat]
      exact if_pos rfl
    rw [hev, hkept, List.length_dropLast, addedAt_append, addedAt_append] at hagain
    obtain ⟨rest, hrest⟩ := hin.prefixed
    have hne : keptOf reg.bgid tr ≠ [] := List.ne_nil_of_length_pos hlent
    refine ⟨(keptOf reg.bgid tr).getLast hne, List.getLast?_eq_some_getLast hne, ?_⟩
    rw [hagain, show addedAt reg.ringAddr [.gaveBack reg.bgid] = [] from rfl, List.append_nil,
      ← List.append_assoc, ← hrest, List.append_assoc,
      List.getElem?_append_left (by omega), ← List.getLast?_eq_getElem?]
    exact List.getLast?_eq_some_getLast hne

instance (bgid : UInt16) (addr : UInt64) (entries : UInt32) (p : Provided) (l : BufLabel) :
    Decidable (Careful bgid addr entries p l) :=
  match l with
  | .add x n _ => inferInstanceAs (Decidable ((x = addr → n = entries) ∧ _ ≤ _))
  | .unget g => inferInstanceAs (Decidable ((g = bgid → p.lent g = true) ∧ _ ≤ _))
  | .unregister (some reg) => inferInstanceAs (Decidable (reg.bgid ≠ bgid ∧ _ ≤ _))
  | .unregister none | .register _ | .take _ => inferInstanceAs (Decidable (True ∧ _ ≤ _))

/-- A ring of two: both buffers added, one taken and given back, both taken. -/
theorem buffers_once_in_order_two : ∃ tr s, keptOf 3 tr = [⟨64, 8, 0⟩, ⟨72, 8, 1⟩] ∧
    HandsOut 3 4096 2 ([⟨64, 8, 0⟩] ++ addedAt 4096 tr) tr s := by
  obtain ⟨tr, s, hr, hkept⟩ := Run.of_exec bufMachine (Careful 3 4096 2)
    (((Provided.fill {} 4096 2 [⟨64, 8, 0⟩]).registerPbufRing (some ⟨4096, 2, 3, 0⟩)).1)
    (fun tr _ => keptOf 3 tr = [⟨64, 8, 0⟩, ⟨72, 8, 1⟩])
    [.add 4096 2 ⟨72, 8, 1⟩, .take 3, .unget 3, .take 3, .take 3, .take 3] (by decide +kernel)
  exact ⟨tr, s, hkept, @buffers_once_in_order {} _ s ⟨4096, 2, 3, 0⟩ [⟨64, 8, 0⟩] tr rfl (by decide)
    (Prod.ext rfl (by decide +kernel)) hr⟩

end SlipstreamIO.Engine
