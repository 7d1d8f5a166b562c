import SlipstreamIO.EngineState
import SlipstreamIO.Runs
import Mathlib.Data.Nat.Size

/-! Which side answers: the calls that name a ring by its token, the one that names an address, and
the mode that may change between any two of them. -/
namespace SlipstreamIO.Syscall

open Engine Runs

def emfile : Int32 := 24
def enomem : Int32 := 12

def slipRingsMax : ℕ := 64
def slipRingToken : Int32 := 0x40000000

def ioringOffSqRing : UInt64 := 0
def ioringOffCqRing : UInt64 := 0x8000000
def ioringOffSqes : UInt64 := 0x10000000

/-- The three blocks of a ring in use, sliced from its one allocation. -/
structure RingMem where
  sqBlock : ℕ
  sqSize : ℕ
  cqBlock : ℕ
  cqSize : ℕ
  sqes : ℕ
  sqesSize : ℕ
  deriving DecidableEq, Repr

def blockAlign (n : ℕ) : ℕ := (n + 63) / 64 * 64

/-- The slices of a block at address `at_`, in the order setup carves them. -/
def RingMem.slice (at_ sqEntries cqEntries : ℕ) : RingMem where
  sqBlock := at_
  sqSize := 24 + sqEntries * 4
  cqBlock := at_ + blockAlign (24 + sqEntries * 4)
  cqSize := 24 + cqEntries * 16
  sqes := at_ + blockAlign (24 + sqEntries * 4) + blockAlign (24 + cqEntries * 16)
  sqesSize := sqEntries * 64

/-- The address is one of the ring's three blocks. -/
def RingMem.has (m : RingMem) (addr : ℕ) : Bool :=
  addr == m.sqBlock || addr == m.cqBlock || addr == m.sqes

/-- `g_engine` (`none` is -1, not asked yet) and `g_rings`. -/
structure Switch where
  gEngine : Option Bool := none
  rings : ℕ → Option RingMem := fun _ => none

inductive Side where
  | os
  | engine
  deriving DecidableEq, Repr

namespace Switch

/-- `available` is what `slipstream_uring_available` says if it is asked. -/
def engineChosen (s : Switch) (available : Bool) : Bool × Switch :=
  match s.gEngine with
  | some on => (on, s)
  | none => (!available, { s with gEngine := some (!available) })

def setEngine (s : Switch) (on : Int32) : Switch := { s with gEngine := some (on ≠ 0) }

def ringOf (s : Switch) (fd : Int32) : Option RingMem :=
  if fd &&& slipRingToken = 0 then none
  else
    let i := fd &&& ~~~slipRingToken
    if i < 0 ∨ slipRingsMax ≤ i.toInt.toNat then none else s.rings i.toInt.toNat

def setRing (s : Switch) (i : ℕ) (m : Option RingMem) : Switch :=
  { s with rings := fun j => if j = i then m else s.rings j }

def tokenOf (i : ℕ) : Int32 := Int32.ofNat i ||| slipRingToken

/-- `refused` says that `p->flags` has a shape the engine does not serve; `block` is what calloc
gives, with `none` also for a mutex, a condition variable or a backend that cannot be made. There is no
answer when a rounding loop does not end within the fuel. -/
def engineSetup (s : Switch) (fuel : ℕ) (entries cqEntries : UInt32) (refused : Bool)
    (block : Option ℕ) : Option (Int32 × Switch) :=
  if entries = 0 || refused then some (-einval, s)
  else
    match (List.range slipRingsMax).find? fun i => (s.rings i).isNone with
    | none => some (-emfile, s)
    | some i => do
      let sq ← roundUpPow2 fuel entries
      let cq ← cqRounded fuel cqEntries sq
      match block with
      | none => return (-enomem, s)
      | some at_ => return (tokenOf i, s.setRing i (some (.slice at_ sq.toNat cq.toNat)))

def engineMmap (s : Switch) (length : ℕ) (fd : Int32) (offset : Int64) : Option ℕ :=
  match s.ringOf fd with
  | none => none
  | some m =>
    let off := offset.toUInt64
    if off = ioringOffSqRing then if length ≤ m.sqSize then some m.sqBlock else none
    else if off = ioringOffCqRing then if length ≤ m.cqSize then some m.cqBlock else none
    else if off = ioringOffSqes then if length ≤ m.sqesSize then some m.sqes else none
    else none

def engineMunmap (s : Switch) (addr : ℕ) : Int32 :=
  if (List.range slipRingsMax).any fun i => (s.rings i).any (·.has addr) then 0 else -enoent

def engineClose (s : Switch) (fd : Int32) : Int32 × Switch :=
  match s.ringOf fd with
  | none => (-ebadf, s)
  | some _ => (0, s.setRing (fd &&& ~~~slipRingToken).toInt.toNat none)

end Switch

def fdIsRingToken (fd : Int32) : Bool := 0 < fd && (fd &&& slipRingToken) ≠ 0

/-- The calls that are the engine's or the OS's by what they name. -/
inductive Call where
  | mmap (length : ℕ) (fd : Int32) (offset : Int64)
  | munmap (addr : ℕ)
  | close (fd : Int32)
  deriving DecidableEq

/-- What a call returns: an address, or an int. -/
inductive Answer where
  | pointer (p : ℕ)
  | int (r : Int32)
  deriving DecidableEq

namespace Switch

/-- `os` is what the OS answers when it is asked. -/
def slipstreamMmap (s : Switch) (length : ℕ) (fd : Int32) (offset : Int64) (os : Answer) :
    Side × Answer :=
  if fdIsRingToken fd then
    match s.engineMmap length fd offset with
    | some p => (.engine, .pointer p)
    | none => (.engine, .int (-einval))
  else (.os, os)

def slipstreamMunmap (s : Switch) (addr : ℕ) (available : Bool) (os : Answer) :
    Side × Answer × Switch :=
  let (chosen, s) := s.engineChosen available
  if chosen && s.engineMunmap addr = 0 then (.engine, .int 0, s) else (.os, os, s)

def slipstreamClose (s : Switch) (fd : Int32) (os : Answer) : Side × Answer × Switch :=
  if fdIsRingToken fd then (.engine, .int (s.engineClose fd).1, (s.engineClose fd).2) else (.os, os, s)

/-- One of the three calls: who answers, what, and the state after it. -/
def call (s : Switch) (available : Bool) (os : Answer) : Call → Side × Answer × Switch
  | .mmap length fd offset =>
    ((s.slipstreamMmap length fd offset os).1, (s.slipstreamMmap length fd offset os).2, s)
  | .munmap addr => s.slipstreamMunmap addr available os
  | .close fd => s.slipstreamClose fd os

/-- The call names a live engine ring: by the token setup handed out for it, or by the address of
one of its blocks. -/
def Names (s : Switch) : Call → Prop
  | .mmap _ fd _ | .close fd => ∃ i < slipRingsMax, (s.rings i).isSome ∧ fd = tokenOf i
  | .munmap addr => ∃ i < slipRingsMax, ∃ m, s.rings i = some m ∧ m.has addr = true

end Switch

inductive SwitchLabel where
  | setEngine (on : Int32)
  | consult (available : Bool)
  | setup (available : Bool) (fuel : ℕ) (entries cqEntries : UInt32) (refused : Bool) (block : Option ℕ)
  | call (available : Bool) (os : Answer) (c : Call)

/-- A call as it was made: the state it found, and the side that answered. -/
structure Called where
  state : Switch
  available : Bool
  call : Call
  side : Side

/-- `consult` is a call of enter, register or `uses_engine`, which ask for the mode and no more. -/
def switchStep (linux : Bool) (s : Switch) : SwitchLabel → Option Switch
  | .setEngine on => some (s.setEngine on)
  | .consult available => some (s.engineChosen available).2
  | .setup available fuel entries cqEntries refused block =>
    let s' := if linux then (s.engineChosen available).2 else s
    if linux && !(s.engineChosen available).1 then some s'
    else (s'.engineSetup fuel entries cqEntries refused block).map Prod.snd
  | .call available os c => some (s.call available os c).2.2

def switchEvents (s : Switch) : SwitchLabel → List Called
  | .call available os c => [⟨s, available, c, (s.call available os c).1⟩]
  | _ => []

def switchMachine (linux : Bool) : Machine Switch SwitchLabel Called :=
  ⟨switchStep linux, switchEvents⟩

/-- The engine answers exactly the calls that name a live ring of its own. -/
def Called.OnItsSide (c : Called) : Prop := c.side = .engine ↔ c.state.Names c.call

/-- A block of a live ring is unmapped in engine mode; a number with the token bit is a live
ring's. -/
def Called.InEngineMode (c : Called) : Prop :=
  match c.call with
  | .mmap _ fd _ | .close fd => fdIsRingToken fd = true → (c.state.ringOf fd).isSome = true
  | .munmap addr => c.state.Names (.munmap addr) → (c.state.engineChosen c.available).1 = true

section Tokens
variable {s : Switch} {fd : Int32}

theorem tokenOf_spec {i : ℕ} (hi : i < slipRingsMax) : fdIsRingToken (Switch.tokenOf i) = true ∧
    (Switch.tokenOf i &&& ~~~slipRingToken) = Int32.ofNat i ∧ ¬ Int32.ofNat i < 0 ∧
      (Int32.ofNat i).toInt.toNat = i := by
  revert i
  decide +kernel

/-- A number with the token bit is its low part with that bit. -/
theorem token_bit (h : fd &&& slipRingToken ≠ 0) :
    (fd &&& ~~~slipRingToken) ||| slipRingToken = fd := by
  rw [← Int32.toBitVec_inj]
  have htoken : slipRingToken.toBitVec = BitVec.twoPow 32 30 := by decide
  have hbit : fd.toBitVec.getLsbD 30 = true := by
    by_contra hbit
    apply h
    rw [← Int32.toBitVec_inj, Int32.toBitVec_and, htoken, BitVec.and_twoPow, if_neg hbit]
    rfl
  rw [Int32.toBitVec_or, Int32.toBitVec_and, Int32.toBitVec_not, htoken]
  apply BitVec.eq_of_getLsbD_eq
  intro i hi
  by_cases hi30 : i = 30
  · subst hi30
    simp [hbit]
  · simp [hi30, hi]

/-- `ring_of` finds a ring exactly behind the token that setup hands out for it. -/
theorem ringOf_isSome_iff : (s.ringOf fd).isSome = true ↔
    ∃ i < slipRingsMax, (s.rings i).isSome = true ∧ fd = Switch.tokenOf i := by
  constructor
  · intro h
    unfold Switch.ringOf at h
    split at h
    · cases h
    next htoken =>
    dsimp only at h
    split at h
    · cases h
    next hlow =>
    rw [not_or, not_le] at hlow
    refine ⟨_, hlow.2, h, ?_⟩
    have hnn : 0 ≤ (fd &&& ~~~slipRingToken).toInt := by
      have := hlow.1
      rwa [Int32.not_lt, Int32.le_iff_toInt_le] at this
    have hback : Int32.ofNat (fd &&& ~~~slipRingToken).toInt.toNat = fd &&& ~~~slipRingToken := by
      rw [← Int32.ofInt_eq_ofNat, Int.toNat_of_nonneg hnn, Int32.ofInt_toInt]
    rw [Switch.tokenOf, hback, token_bit htoken]
  · rintro ⟨i, hi, hlive, rfl⟩
    obtain ⟨htoken, hlow, hnn, hback⟩ := tokenOf_spec hi
    have hbit : Switch.tokenOf i &&& slipRingToken ≠ 0 := by
      rw [fdIsRingToken, Bool.and_eq_true, decide_eq_true_eq, decide_eq_true_eq] at htoken
      exact htoken.2
    rw [Switch.ringOf, if_neg hbit]
    dsimp only
    rw [hlow, if_neg (by rw [hback]; exact not_or.mpr ⟨hnn, not_le.mpr hi⟩), hback]
    exact hlive

theorem names_iff_ringOf (length : ℕ) (offset : Int64) :
    s.Names (.mmap length fd offset) ↔ (s.ringOf fd).isSome = true := ringOf_isSome_iff.symm

/-- What the engine finds is behind a number the shim takes for a token. -/
theorem fdIsRingToken_of_isSome (h : (s.ringOf fd).isSome = true) : fdIsRingToken fd = true := by
  obtain ⟨i, hi, -, rfl⟩ := ringOf_isSome_iff.mp h
  exact (tokenOf_spec hi).1

theorem engineMunmap_eq_zero_iff (addr : ℕ) :
    s.engineMunmap addr = 0 ↔ s.Names (.munmap addr) := by
  have hne : (-enoent : Int32) ≠ 0 := by decide
  simp [Switch.engineMunmap, Switch.Names, Option.any_eq_true, hne]

theorem engineChosen_rings (available : Bool) : (s.engineChosen available).2.rings = s.rings := by
  unfold Switch.engineChosen
  split <;> rfl

end Tokens

theorem call_side_iff (s : Switch) (available : Bool) (os : Answer) (c : Call) :
    ((s.call available os c).1 = .engine ↔ s.Names c) ↔
      Called.InEngineMode ⟨s, available, c, (s.call available os c).1⟩ := by
  have hfd (fd : Int32) (hname : s.Names c ↔ (s.ringOf fd).isSome = true)
      (hside : (s.call available os c).1 = .engine ↔ fdIsRingToken fd = true) :
      ((s.call available os c).1 = .engine ↔ s.Names c) ↔
        (fdIsRingToken fd = true → (s.ringOf fd).isSome = true) := by
    rw [hside, hname]
    constructor
    · exact fun h => h.mp
    · exact fun h => ⟨h, fdIsRingToken_of_isSome⟩
  cases c with
  | mmap length fd offset =>
    apply hfd fd (names_iff_ringOf length offset)
    simp only [Switch.call, Switch.slipstreamMmap]
    split
    · next htoken => split <;> simp [htoken]
    · next htoken => simp [htoken]
  | close fd =>
    apply hfd fd (names_iff_ringOf 0 0)
    simp only [Switch.call, Switch.slipstreamClose]
    split
    · next htoken => simp [htoken]
    · next htoken => simp [htoken]
  | munmap addr =>
    have hname : (s.engineChosen available).2.engineMunmap addr = 0 ↔ s.Names (.munmap addr) := by
      rw [← engineMunmap_eq_zero_iff, Switch.engineMunmap, Switch.engineMunmap, engineChosen_rings]
    have hside : (s.call available os (.munmap addr)).1 = .engine ↔
        (s.engineChosen available).1 = true ∧ s.Names (.munmap addr) := by
      rw [← hname]
      simp only [Switch.call, Switch.slipstreamMunmap]
      split
      · next h => simpa using h
      · next h => simpa using h
    rw [hside]
    simp only [Called.InEngineMode]
    constructor
    · exact fun h hn => (h.mpr hn).1
    · exact fun h => ⟨fun hb => hb.2, fun hn => ⟨h hn, hn⟩⟩

theorem engine_answers_what_it_owns {linux : Bool} {tr : List Called} {s : Switch}
    (hr : Run (switchMachine linux) (fun _ _ => True) {} tr s) :
    ∀ c ∈ tr, c.OnItsSide ↔ c.InEngineMode := by
  refine hr.invariant (fun tr _ => ∀ c ∈ tr, c.OnItsSide ↔ c.InEngineMode) (by simp) ?_
  intro tr s l s' _ h _ _ c hc
  rcases List.mem_append.mp hc with hc | hc
  · exact h c hc
  · cases l with
    | call available os call =>
      cases List.mem_singleton.mp hc
      exact call_side_iff s available os call
    | _ => cases hc

/-- A ring made in engine mode, the mode switched off, and the ring's first block unmapped. -/
theorem os_unmaps_ring_block : ∃ tr s, Run (switchMachine true) (fun _ _ => True) {} tr s ∧
    ∃ c ∈ tr, ¬ c.OnItsSide := by
  have h : Run (switchMachine true) (fun _ _ => True) {} [] _ := .start
  have h := h.next (l := .setEngine 1) trivial rfl
  have h := h.next (l := .setup true 1 1 0 false (some 4096)) trivial rfl
  have h := h.next (l := .setEngine 0) trivial rfl
  have h := h.next (l := .call true (.int 0) (.munmap 4096)) trivial rfl
  refine ⟨_, _, h, _, List.mem_append_right _ (List.mem_singleton_self _), fun hside => ?_⟩
  have hos : Side.os = Side.engine := hside.mpr ⟨0, by decide, _, rfl, by decide⟩
  cases hos

theorem engine_answers_what_it_owns_unmapped : ∃ tr : List Called, tr ≠ [] ∧
    ∀ c ∈ tr, c.OnItsSide ↔ c.InEngineMode := by
  have h : Run (switchMachine true) (fun _ _ => True) {} [] _ := .start
  have h := h.next (l := .setEngine 1) trivial rfl
  have h := h.next (l := .setup true 1 1 0 false (some 4096)) trivial rfl
  have h := h.next (l := .call true (.int 0) (.munmap 4096)) trivial rfl
  have h := h.next (l := .call true (.int 0) (.close (Switch.tokenOf 0))) trivial rfl
  exact ⟨_, by simp [switchMachine, switchEvents], engine_answers_what_it_owns h⟩

end SlipstreamIO.Syscall
