import SlipstreamIO.BlockSlices
import SlipstreamIO.SyscallSwitch

/-! `slipstream_engine_setup`: the sizes, and the areas cut from the one block a
ring is. -/
namespace SlipstreamIO.Engine

open BlockSlices Syscall

/-- `block_align`: every slice starts on a cache line. -/
def alignBlock (n : UInt64) : UInt64 := (n + 63) &&& ~~~63

/-- `sizeof` of `struct sq_ring` and of `struct cq_ring`. -/
def ringHeaderSize : UInt64 := 24
def arrayEntrySize : UInt64 := 4
def cqeSize : UInt64 := 16
def sqeSize : UInt64 := 64
def opSize : UInt64 := 104
def pointerSize : UInt64 := 8
def doneSize : UInt64 := 16

/-- What setup writes into a `struct slip_ring`, and into the headers of its two rings. -/
structure RingLayout where
  sqEntries : UInt32
  cqEntries : UInt32
  opPoolN : UInt32
  sqSize : UInt64
  cqSize : UInt64
  sqesSize : UInt64
  blockSize : UInt64
  block : UInt64
  sqBlock : UInt64
  cqBlock : UInt64
  sqes : UInt64
  opPool : UInt64
  waiting : UInt64
  ready : UInt64
  done : UInt64
  sqRingMask : UInt32
  sqRingEntries : UInt32
  cqRingMask : UInt32
  cqRingEntries : UInt32
  deriving DecidableEq, Repr

namespace RingLayout

def sqSizeOf (sqEntries : UInt32) : UInt64 := ringHeaderSize + sqEntries.toUInt64 * arrayEntrySize
def cqSizeOf (cqEntries : UInt32) : UInt64 := ringHeaderSize + cqEntries.toUInt64 * cqeSize
def sqesSizeOf (sqEntries : UInt32) : UInt64 := sqEntries.toUInt64 * sqeSize
def opsPart (opPoolN : UInt32) : UInt64 := alignBlock (opPoolN.toUInt64 * opSize)
def ptrsPart (opPoolN : UInt32) : UInt64 := alignBlock (opPoolN.toUInt64 * pointerSize)
def donePart (opPoolN : UInt32) : UInt64 := alignBlock (opPoolN.toUInt64 * doneSize)

def blockSizeOf (sqEntries cqEntries : UInt32) : UInt64 :=
  alignBlock (sqSizeOf sqEntries) + alignBlock (cqSizeOf cqEntries) +
    alignBlock (sqesSizeOf sqEntries) + opsPart cqEntries + 2 * ptrsPart cqEntries +
    donePart cqEntries

/-- The ring over the block at address `block`: `at` moves on by one part at a time. -/
def carved (sqEntries cqEntries : UInt32) (block : UInt64) : RingLayout :=
  let cqBlock := block + alignBlock (sqSizeOf sqEntries)
  let sqes := cqBlock + alignBlock (cqSizeOf cqEntries)
  let opPool := sqes + alignBlock (sqesSizeOf sqEntries)
  let waiting := opPool + opsPart cqEntries
  let ready := waiting + ptrsPart cqEntries
  let done := ready + ptrsPart cqEntries
  { sqEntries := sqEntries
    cqEntries := cqEntries
    opPoolN := cqEntries
    sqSize := sqSizeOf sqEntries
    cqSize := cqSizeOf cqEntries
    sqesSize := sqesSizeOf sqEntries
    blockSize := blockSizeOf sqEntries cqEntries
    block := block
    sqBlock := block
    cqBlock := cqBlock
    sqes := sqes
    opPool := opPool
    waiting := waiting
    ready := ready
    done := done
    sqRingMask := sqEntries - 1
    sqRingEntries := sqEntries
    cqRingMask := cqEntries - 1
    cqRingEntries := cqEntries }

/-- The bytes of the SQ ring, the CQ ring, the SQE array, the op pool, and `waiting`, `ready` and
`done`. -/
def areas (r : RingLayout) : List Area :=
  [⟨r.sqBlock.toNat, r.sqBlock.toNat + r.sqSize.toNat⟩,
    ⟨r.cqBlock.toNat, r.cqBlock.toNat + r.cqSize.toNat⟩,
    ⟨r.sqes.toNat, r.sqes.toNat + r.sqesSize.toNat⟩,
    ⟨r.opPool.toNat, r.opPool.toNat + r.opPoolN.toNat * opSize.toNat⟩,
    ⟨r.waiting.toNat, r.waiting.toNat + r.opPoolN.toNat * pointerSize.toNat⟩,
    ⟨r.ready.toNat, r.ready.toNat + r.opPoolN.toNat * pointerSize.toNat⟩,
    ⟨r.done.toNat, r.done.toNat + r.opPoolN.toNat * doneSize.toNat⟩]

end RingLayout

/-- `p->sq_off` and `p->cq_off`, as far as setup fills them. -/
structure SqringOffsets where
  head : UInt32 := 0
  tail : UInt32 := 0
  ringMask : UInt32 := 0
  ringEntries : UInt32 := 0
  flags : UInt32 := 0
  dropped : UInt32 := 0
  array : UInt32 := 0
  deriving DecidableEq, Repr

structure CqringOffsets where
  head : UInt32 := 0
  tail : UInt32 := 0
  ringMask : UInt32 := 0
  ringEntries : UInt32 := 0
  overflow : UInt32 := 0
  cqes : UInt32 := 0
  flags : UInt32 := 0
  deriving DecidableEq, Repr

/-- `struct io_uring_params`, as far as setup reads and writes it. -/
structure UringParams where
  sqEntries : UInt32 := 0
  cqEntries : UInt32 := 0
  flags : UInt32 := 0
  features : UInt32 := 0
  sqOff : SqringOffsets := {}
  cqOff : CqringOffsets := {}
  deriving DecidableEq, Repr

/-- IORING_SETUP_IOPOLL, SQPOLL, SQE128, CQE32, NO_MMAP and NO_SQARRAY. -/
def refusedShapes : UInt32 := 0x1 ||| 0x2 ||| 0x400 ||| 0x800 ||| 0x4000 ||| 0x10000

def ioringFeatExtArg : UInt32 := 0x100

def UringParams.filled (p : UringParams) (r : RingLayout) : UringParams :=
  { p with
    sqEntries := r.sqEntries
    cqEntries := r.cqEntries
    features := ioringFeatExtArg
    sqOff := {
      head := 0, tail := 4, ringMask := 8, ringEntries := 12, flags := 16, dropped := 20, array := 24 }
    cqOff := {
      head := 0, tail := 4, ringMask := 8, ringEntries := 12, overflow := 16, cqes := 24, flags := 20 } }

/-- What setup asks of others: a block from the heap, which ends within the address space, a mutex, a
condition variable, and the backend's own state. -/
structure SetupEnv where
  calloc : UInt64 → Option UInt64
  mtxInit : Bool := true
  cndInit : Bool := true
  openRing : Bool := true
  fits : ∀ n block, calloc n = some block → block.toNat + n.toNat ≤ 2 ^ 64

def setRingAt (rings : ℕ → Option RingLayout) (i : ℕ) (r : RingLayout) : ℕ → Option RingLayout :=
  fun j => if j = i then some r else rings j

/-- Setup from the rounded entries on: the block, what can still fail, and `*p`. -/
def setupRounded (env : SetupEnv) (rings : ℕ → Option RingLayout) (p : UringParams) (idx : ℕ)
    (s c : UInt32) : Int32 × (ℕ → Option RingLayout) × Option UringParams :=
  match env.calloc (RingLayout.blockSizeOf s c) with
  | none => (-enomem, rings, some p)
  | some block =>
    if env.mtxInit && env.cndInit && env.openRing then
      (Switch.tokenOf idx, setRingAt rings idx (.carved s c block), some (p.filled (.carved s c block)))
    else (-enomem, rings, some p)

/-- Answers the return value, `g_rings` and `*p`; none when a rounding loop does not end within the
fuel. -/
def slipstreamEngineSetup (env : SetupEnv) (fuel : ℕ) (rings : ℕ → Option RingLayout)
    (entries : UInt32) (p : Option UringParams) :
    Option (Int32 × (ℕ → Option RingLayout) × Option UringParams) :=
  match p with
  | none => some (-einval, rings, p)
  | some params =>
    if entries = 0 then some (-einval, rings, p)
    else if params.flags &&& refusedShapes ≠ 0 then some (-einval, rings, p)
    else
      match (List.range slipRingsMax).find? fun i => (rings i).isNone with
      | none => some (-emfile, rings, p)
      | some idx => do
        let sqEntries ← roundUpPow2 fuel entries
        let cqEntries ← cqRounded fuel params.cqEntries sqEntries
        return setupRounded env rings params idx sqEntries cqEntries

section RoundUp
variable {fuel k : ℕ} {v n m : UInt32}

theorem shl_one_toNat (n : UInt32) : (n <<< 1).toNat = 2 * n.toNat % 4294967296 := by
  simp [UInt32.toNat_shiftLeft, Nat.shiftLeft_eq, Nat.mul_comm]

/-- The double of `2 ^ 31` wraps to zero, and zero stays. -/
theorem roundUpLoop_zero (hv : 0 < v) : roundUpLoop fuel v 0 = none := by
  induction fuel with
  | zero => rfl
  | succ fuel ih =>
    rw [roundUpLoop, if_pos hv]
    exact ih

/-- From the power `2 ^ k` on, with the powers below it too small: what the loop ends with. -/
theorem roundUpLoop_some (hn : n.toNat = 2 ^ k) (hbelow : ∀ j < k, 2 ^ j < v.toNat)
    (h : roundUpLoop fuel v n = some m) : LeastPower v.toNat m.toNat := by
  induction fuel generalizing n k with
  | zero => cases h
  | succ fuel ih =>
    rw [roundUpLoop] at h
    split at h
    · next hlt =>
      have hlt' : 2 ^ k < v.toNat := hn ▸ UInt32.lt_iff_toNat_lt.mp hlt
      have hk : k < 32 := (Nat.pow_lt_pow_iff_right (by decide)).mp (hlt'.trans v.toNat_lt)
      by_cases htop : k = 31
      · have hzero : n <<< 1 = 0 := by
          apply UInt32.toNat.inj
          rw [shl_one_toNat, hn, htop]
          rfl
        have hpos : 0 < v := UInt32.lt_iff_toNat_lt.mpr (Nat.zero_lt_of_lt hlt')
        rw [hzero, roundUpLoop_zero hpos] at h
        cases h
      · apply ih (k := k + 1) _ _ h
        · have hle : 2 ^ k ≤ 2 ^ 30 := Nat.pow_le_pow_right (by decide) (by omega)
          rw [shl_one_toNat, hn, Nat.pow_succ]
          omega
        · intro j hj
          have hle : 2 ^ j ≤ 2 ^ k := Nat.pow_le_pow_right (by decide) (by omega)
          omega
    · next hge =>
      cases h
      rw [hn]
      apply LeastPower.of_doubling _ hbelow
      rw [← hn]
      exact Nat.not_lt.mp fun hlt => hge (UInt32.lt_iff_toNat_lt.mpr hlt)

theorem roundUpLoop_ends (hn : n.toNat = 2 ^ k) (hv : v.toNat ≤ 2 ^ 31) (hk : k ≤ 31)
    (hf : 32 ≤ fuel + k) : ∃ m, roundUpLoop fuel v n = some m := by
  induction fuel generalizing n k with
  | zero => omega
  | succ fuel ih =>
    rw [roundUpLoop]
    split
    · next hlt =>
      have hlt' : 2 ^ k < 2 ^ 31 := hn ▸ (UInt32.lt_iff_toNat_lt.mp hlt).trans_le hv
      have hk' : k < 31 := (Nat.pow_lt_pow_iff_right (by decide)).mp hlt'
      apply ih (k := k + 1) _ (by omega) (by omega)
      have hle : 2 ^ k ≤ 2 ^ 30 := Nat.pow_le_pow_right (by decide) (by omega)
      rw [shl_one_toNat, hn, Nat.pow_succ]
      omega
    · exact ⟨n, rfl⟩

/-- The loop ends only with the least power of two that is not below `v`, and `v` is at most
`2 ^ 31` then. -/
theorem roundUpPow2_some (h : roundUpPow2 fuel v = some m) :
    LeastPower v.toNat m.toNat ∧ m.toNat ≤ 2 ^ 31 := by
  have hleast : LeastPower v.toNat m.toNat :=
    roundUpLoop_some (k := 0) rfl (fun j hj => absurd hj (by omega)) h
  refine ⟨hleast, ?_⟩
  obtain ⟨⟨j, hj⟩, -⟩ := hleast
  have hlt : 2 ^ j < 2 ^ 32 := hj ▸ m.toNat_lt
  have hj' : j < 32 := (Nat.pow_lt_pow_iff_right (by decide)).mp hlt
  rw [hj]
  exact Nat.pow_le_pow_right (by decide) (by omega)

theorem roundUpPow2_ends (hv : v.toNat ≤ 2 ^ 31) (hf : 32 ≤ fuel) :
    ∃ m, roundUpPow2 fuel v = some m :=
  roundUpLoop_ends (k := 0) rfl hv (by decide) (by omega)

end RoundUp

/-- Rounding up to whole cache lines, where nothing overflows. -/
theorem alignBlock_toNat {n : UInt64} (h : n.toNat + 63 < 2 ^ 64) :
    (alignBlock n).toNat = (n.toNat + 63) / 64 * 64 := by
  have hmask (x : ℕ) (hx : x < 2 ^ 64) : x &&& (2 ^ 64 - 1 - 63) = x / 64 * 64 := by
    apply Nat.eq_of_testBit_eq
    intro i
    have hhigh : x / 64 * 64 = (x >>> 6) <<< 6 := by
      rw [Nat.shiftRight_eq_div_pow, Nat.shiftLeft_eq]
    have hlow : 2 ^ 64 - 1 - 63 = (2 ^ 58 - 1) <<< 6 := by decide
    rw [hhigh, hlow, Nat.testBit_and, Nat.testBit_shiftLeft, Nat.testBit_shiftLeft,
      Nat.testBit_two_pow_sub_one, Nat.testBit_shiftRight]
    by_cases hi : 6 ≤ i
    · by_cases htop : i - 6 < 58
      · simp [hi, htop]
      · have hzero : x.testBit i = false :=
          Nat.testBit_lt_two_pow (hx.trans_le (Nat.pow_le_pow_right (by decide) (by omega)))
        simp [hi, htop, hzero]
    · simp [hi]
  rw [alignBlock, UInt64.toNat_and, UInt64.toNat_add]
  rw [show ((63 : UInt64)).toNat = 63 from rfl, Nat.mod_eq_of_lt h]
  exact hmask _ h

/-- What is used of each part, and the part itself, for rings of `s` and `c` entries. -/
def cutsOf (s c : ℕ) : List (ℕ × ℕ) :=
  [24 + s * 4, 24 + c * 16, s * 64, c * 104, c * 8, c * 8, c * 16].map fun n => (n, blockAlign n)

theorem cutsOf_fit (s c : ℕ) : ∀ cut ∈ cutsOf s c, cut.1 ≤ cut.2 := by
  intro cut hcut
  obtain ⟨n, -, rfl⟩ := List.mem_map.mp hcut
  simp only [blockAlign]
  omega

namespace RingLayout

section Sizes
variable {s c : UInt32}

theorem product_toNat {a : UInt32} (size : UInt64) (ha : a.toNat ≤ 2 ^ 31)
    (hsize : size.toNat ≤ 128) : (a.toUInt64 * size).toNat = a.toNat * size.toNat := by
  have hle : a.toNat * size.toNat ≤ 2 ^ 31 * 128 := Nat.mul_le_mul ha hsize
  rw [UInt64.toNat_mul, UInt32.toNat_toUInt64, Nat.mod_eq_of_lt (by omega)]

theorem sqSizeOf_toNat (hs : s.toNat ≤ 2 ^ 31) : (sqSizeOf s).toNat = 24 + s.toNat * 4 := by
  have hprod := product_toNat arrayEntrySize hs (by decide)
  rw [sqSizeOf, UInt64.toNat_add, hprod]
  simp only [ringHeaderSize, arrayEntrySize, UInt64.reduceToNat]
  omega

theorem cqSizeOf_toNat (hc : c.toNat ≤ 2 ^ 31) : (cqSizeOf c).toNat = 24 + c.toNat * 16 := by
  have hprod := product_toNat cqeSize hc (by decide)
  rw [cqSizeOf, UInt64.toNat_add, hprod]
  simp only [ringHeaderSize, cqeSize, UInt64.reduceToNat]
  omega

theorem sqesSizeOf_toNat (hs : s.toNat ≤ 2 ^ 31) : (sqesSizeOf s).toNat = s.toNat * 64 :=
  product_toNat sqeSize hs (by decide)

/-- A part is its size in whole cache lines. -/
theorem part_toNat {n : UInt64} {size : ℕ} (h : n.toNat = size) (hle : size ≤ 2 ^ 39) :
    (alignBlock n).toNat = blockAlign size := by
  rw [alignBlock_toNat (by omega), h]
  rfl

end Sizes

/-- The six sizes setup adds up, as numbers. -/
structure PartsAre (s c : UInt32) : Prop where
  sq : (alignBlock (sqSizeOf s)).toNat = blockAlign (24 + s.toNat * 4)
  cq : (alignBlock (cqSizeOf c)).toNat = blockAlign (24 + c.toNat * 16)
  sqes : (alignBlock (sqesSizeOf s)).toNat = blockAlign (s.toNat * 64)
  ops : (opsPart c).toNat = blockAlign (c.toNat * 104)
  ptrs : (ptrsPart c).toNat = blockAlign (c.toNat * 8)
  done : (donePart c).toNat = blockAlign (c.toNat * 16)

theorem partsAre {s c : UInt32} (hs : s.toNat ≤ 2 ^ 31) (hc : c.toNat ≤ 2 ^ 31) : PartsAre s c where
  sq := part_toNat (sqSizeOf_toNat hs) (by omega)
  cq := part_toNat (cqSizeOf_toNat hc) (by omega)
  sqes := part_toNat (sqesSizeOf_toNat hs) (by omega)
  ops := part_toNat (product_toNat opSize hc (by decide)) (by omega)
  ptrs := part_toNat (product_toNat pointerSize hc (by decide)) (by omega)
  done := part_toNat (product_toNat doneSize hc (by decide)) (by omega)

theorem blockSizeOf_toNat {s c : UInt32} (hs : s.toNat ≤ 2 ^ 31) (hc : c.toNat ≤ 2 ^ 31) :
    (blockSizeOf s c).toNat = parts (cutsOf s.toNat c.toNat) := by
  obtain ⟨hsq, hcq, hsqes, hops, hptrs, hdone⟩ := partsAre hs hc
  simp only [blockSizeOf, UInt64.toNat_add, UInt64.toNat_mul, hsq, hcq, hsqes, hops, hptrs, hdone,
    UInt64.reduceToNat, cutsOf, List.map_cons, List.map_nil, parts_cons, parts_nil, blockAlign]
  omega

/-- The areas are the used bytes of the parts, one part after the other. -/
theorem over_areas {s c : UInt32} {block : UInt64} (hs : s.toNat ≤ 2 ^ 31) (hc : c.toNat ≤ 2 ^ 31)
    (hpos : 0 < c.toNat) (hfit : block.toNat + (blockSizeOf s c).toNat ≤ 2 ^ 64) :
    (carved s c block).areas = carve block.toNat (cutsOf s.toNat c.toNat) := by
  rw [blockSizeOf_toNat hs hc] at hfit
  obtain ⟨hsq, hcq, hsqes, hops, hptrs, hdone⟩ := partsAre hs hc
  simp only [cutsOf, List.map_cons, List.map_nil, parts_cons, parts_nil] at hfit
  have hlast : 64 ≤ blockAlign (c.toNat * 16) := by
    unfold blockAlign
    omega
  have hcqBlock : (block + alignBlock (sqSizeOf s)).toNat =
      block.toNat + blockAlign (24 + s.toNat * 4) := by
    rw [UInt64.toNat_add, hsq, Nat.mod_eq_of_lt (by omega)]
  have hsqesAt := UInt64.toNat_add (block + alignBlock (sqSizeOf s)) (alignBlock (cqSizeOf c))
  rw [hcqBlock, hcq, Nat.mod_eq_of_lt (by omega)] at hsqesAt
  have hopsAt := UInt64.toNat_add (block + alignBlock (sqSizeOf s) + alignBlock (cqSizeOf c))
    (alignBlock (sqesSizeOf s))
  rw [hsqesAt, hsqes, Nat.mod_eq_of_lt (by omega)] at hopsAt
  have hwaitingAt := UInt64.toNat_add (block + alignBlock (sqSizeOf s) + alignBlock (cqSizeOf c) +
    alignBlock (sqesSizeOf s)) (opsPart c)
  rw [hopsAt, hops, Nat.mod_eq_of_lt (by omega)] at hwaitingAt
  have hreadyAt := UInt64.toNat_add (block + alignBlock (sqSizeOf s) + alignBlock (cqSizeOf c) +
    alignBlock (sqesSizeOf s) + opsPart c) (ptrsPart c)
  rw [hwaitingAt, hptrs, Nat.mod_eq_of_lt (by omega)] at hreadyAt
  have hdoneAt := UInt64.toNat_add (block + alignBlock (sqSizeOf s) + alignBlock (cqSizeOf c) +
    alignBlock (sqesSizeOf s) + opsPart c + ptrsPart c) (ptrsPart c)
  rw [hreadyAt, hptrs, Nat.mod_eq_of_lt (by omega)] at hdoneAt
  simp only [areas, carved, hcqBlock, hsqesAt, hopsAt, hwaitingAt, hreadyAt, hdoneAt,
    sqSizeOf_toNat hs, cqSizeOf_toNat hc, sqesSizeOf_toNat hs, cutsOf, List.map_cons, List.map_nil,
    carve, opSize, pointerSize, doneSize, UInt64.reduceToNat]

end RingLayout

/-- A ring a caller who asked for `entries` and `cqEntries` can use: the sizes are what they would be
as numbers, and no area shares a byte with another one or leaves the block. -/
structure SoundRing (entries cqEntries : UInt32) (r : RingLayout) : Prop where
  sqLeast : LeastPower entries.toNat r.sqEntries.toNat
  cqPower : ∃ k, r.cqEntries.toNat = 2 ^ k
  cqEnough : if cqEntries = 0 then r.cqEntries.toNat = 2 * r.sqEntries.toNat
    else cqEntries ≤ r.cqEntries
  sqMask : r.sqRingMask.toNat + 1 = r.sqEntries.toNat
  cqMask : r.cqRingMask.toNat + 1 = r.cqEntries.toNat
  opPoolN : r.opPoolN = r.cqEntries
  sqSize : r.sqSize.toNat = 24 + r.sqEntries.toNat * 4
  cqSize : r.cqSize.toNat = 24 + r.cqEntries.toNat * 16
  sqesSize : r.sqesSize.toNat = r.sqEntries.toNat * 64
  blockSize : r.blockSize.toNat = parts (cutsOf r.sqEntries.toNat r.cqEntries.toNat)
  blockFits : r.block.toNat + r.blockSize.toNat ≤ 2 ^ 64
  inside : ∀ a ∈ r.areas, a.Inside ⟨r.block.toNat, r.block.toNat + r.blockSize.toNat⟩
  apart : r.areas.Pairwise Area.Apart

theorem mask_toNat {n : UInt32} (h : 0 < n.toNat) : (n - 1).toNat + 1 = n.toNat := by
  have hone : (1 : UInt32) ≤ n := UInt32.le_iff_toNat_le.mpr h
  rw [UInt32.toNat_sub_of_le _ _ hone]
  exact Nat.sub_add_cancel h

theorem over_sound {entries cqEntries s c : UInt32} {block : UInt64}
    (hs : LeastPower entries.toNat s.toNat) (hsmax : s.toNat ≤ 2 ^ 31)
    (hc : ∃ k, c.toNat = 2 ^ k) (hcmax : c.toNat ≤ 2 ^ 31)
    (hcq : if cqEntries = 0 then c.toNat = 2 * s.toNat else cqEntries ≤ c)
    (hfit : block.toNat + (RingLayout.blockSizeOf s c).toNat ≤ 2 ^ 64) :
    SoundRing entries cqEntries (.carved s c block) := by
  have hcpos : 0 < c.toNat := by
    obtain ⟨k, hk⟩ := hc
    rw [hk]
    exact Nat.two_pow_pos k
  have hsize := RingLayout.blockSizeOf_toNat hsmax hcmax
  have hareas := RingLayout.over_areas hsmax hcmax hcpos hfit
  have hcuts := cutsOf_fit s.toNat c.toNat
  exact {
    sqLeast := hs
    cqPower := hc
    cqEnough := hcq
    sqMask := mask_toNat hs.pos
    cqMask := mask_toNat hcpos
    opPoolN := rfl
    sqSize := RingLayout.sqSizeOf_toNat hsmax
    cqSize := RingLayout.cqSizeOf_toNat hcmax
    sqesSize := RingLayout.sqesSizeOf_toNat hsmax
    blockSize := hsize
    blockFits := hfit
    inside := by
      intro a ha
      rw [hareas] at ha
      have hin := carve_inside hcuts block.toNat a ha
      rw [← hsize] at hin
      exact hin
    apart := by
      rw [hareas]
      exact carve_apart hcuts block.toNat }

/-- Setup returns, and refuses with everything as it was, or answers the token of a sound ring in a
slot that was free. -/
def SetupSound (env : SetupEnv) (rings : ℕ → Option RingLayout) (entries : UInt32)
    (p : UringParams) : Prop :=
  ∃ fuel ret rings' p', slipstreamEngineSetup env fuel rings entries (some p) =
      some (ret, rings', some p') ∧
    ((ret < 0 ∧ rings' = rings ∧ p' = p) ∨
      ∃ i r, ret = Switch.tokenOf i ∧ i < slipRingsMax ∧ rings i = none ∧
        rings' = setRingAt rings i r ∧ SoundRing entries p.cqEntries r ∧ p' = p.filled r)

/-- The size of the block for `2 ^ 31` SQ entries and, with the doubling wrapped, no CQ entries. -/
def wrappedBlockSize : UInt64 := 146028888192

section Setup
variable {env : SetupEnv} {rings : ℕ → Option RingLayout} {entries : UInt32} {p : UringParams}

theorem freeRing_some {i : ℕ} (h : (List.range slipRingsMax).find? (fun i => (rings i).isNone) = some i) :
    i < slipRingsMax ∧ rings i = none := by
  have hmem := List.mem_of_find?_eq_some h
  have hnone := List.find?_some h
  exact ⟨List.mem_range.mp hmem, Option.isNone_iff_eq_none.mp hnone⟩

theorem freeRing_none :
    (List.range slipRingsMax).find? (fun i => (rings i).isNone) = none ↔
      ∀ i < slipRingsMax, (rings i).isSome = true := by
  simp [List.find?_eq_none, Option.isSome_iff_ne_none]

theorem tokenOf_nonneg {i : ℕ} (h : i < slipRingsMax) : ¬ Switch.tokenOf i < 0 := by
  have hpos := (tokenOf_spec h).1
  simp only [fdIsRingToken, Bool.and_eq_true, decide_eq_true_eq] at hpos
  exact Int32.not_lt.mpr (Int32.le_of_lt hpos.1)

/-- Past its checks, setup answers exactly when both numbers can be rounded. -/
theorem setup_eq_some {fuel idx : ℕ} {out : Int32 × (ℕ → Option RingLayout) × Option UringParams}
    (h0 : entries ≠ 0) (hflags : p.flags &&& refusedShapes = 0)
    (hidx : (List.range slipRingsMax).find? (fun i => (rings i).isNone) = some idx) :
    slipstreamEngineSetup env fuel rings entries (some p) = some out ↔
      ∃ s c, roundUpPow2 fuel entries = some s ∧ cqRounded fuel p.cqEntries s = some c ∧
        setupRounded env rings p idx s c = out := by
  simp [slipstreamEngineSetup, h0, hflags, hidx, Option.bind_eq_some_iff]

/-- The CQ gets a size: the one asked for rounds, or twice the SQ's does not wrap. -/
theorem cq_rounds {fuel : ℕ} {s c : UInt32} (hs : LeastPower entries.toNat s.toNat)
    (hsmax : s.toNat ≤ 2 ^ 31) (hcmax : p.cqEntries ≠ 0 ∨ entries.toNat ≤ 2 ^ 30)
    (hc : cqRounded fuel p.cqEntries s = some c) :
    (∃ k, c.toNat = 2 ^ k) ∧ c.toNat ≤ 2 ^ 31 ∧
      (if p.cqEntries = 0 then c.toNat = 2 * s.toNat else p.cqEntries ≤ c) := by
  unfold cqRounded at hc
  by_cases h0 : p.cqEntries = 0
  · simp only [h0, ne_eq, not_true_eq_false, if_false, Option.some.injEq, if_true, false_or] at hc hcmax ⊢
    obtain ⟨k, hk⟩ := hs.1
    have hle : s.toNat ≤ 2 ^ 30 := hs.le_of_le hcmax
    have htwice : c.toNat = 2 * s.toNat := by
      rw [← hc, UInt32.toNat_mul, show (2 : UInt32).toNat = 2 from rfl]
      omega
    refine ⟨⟨k + 1, ?_⟩, by omega, htwice⟩
    rw [htwice, hk, Nat.pow_succ, Nat.mul_comm]
  · simp only [ne_eq, h0, not_false_eq_true, if_true, if_false] at hc ⊢
    obtain ⟨hleast, hmax⟩ := roundUpPow2_some hc
    exact ⟨hleast.1, hmax, UInt32.le_iff_toNat_le.mpr hleast.2.1⟩

/-- Doubling the largest power wraps to an empty CQ. -/
theorem doubling_wraps {s : UInt32} (hs : LeastPower entries.toNat s.toNat) (hsmax : s.toNat ≤ 2 ^ 31)
    (hbig : 2 ^ 30 < entries.toNat) : s = 0x80000000 := by
  obtain ⟨⟨k, hk⟩, hle, -⟩ := hs
  have hlow : 2 ^ 30 < 2 ^ k := by omega
  have hhigh : 2 ^ k ≤ 2 ^ 31 := by omega
  have hklow : 30 < k := (Nat.pow_lt_pow_iff_right (by decide)).mp hlow
  have hkhigh : k ≤ 31 := (Nat.pow_le_pow_iff_right (by decide)).mp hhigh
  have hk31 : k = 31 := by omega
  apply UInt32.toNat.inj
  rw [hk, hk31]
  rfl

theorem cqRounded_ends {s : UInt32} (hcq : p.cqEntries.toNat ≤ 2 ^ 31) :
    ∃ c, cqRounded 32 p.cqEntries s = some c := by
  unfold cqRounded
  split
  · exact roundUpPow2_ends hcq le_rfl
  · exact ⟨_, rfl⟩

/-- Rounded soundly, the ring is refused or sound. -/
theorem setupRounded_sound (env : SetupEnv) (p : UringParams) {idx : ℕ} {s c : UInt32}
    (hidx : idx < slipRingsMax ∧ rings idx = none)
    (hs : LeastPower entries.toNat s.toNat) (hsmax : s.toNat ≤ 2 ^ 31)
    (hc : ∃ k, c.toNat = 2 ^ k) (hcmax : c.toNat ≤ 2 ^ 31)
    (hcq : if p.cqEntries = 0 then c.toNat = 2 * s.toNat else p.cqEntries ≤ c) :
    ∃ ret rings' p', setupRounded env rings p idx s c = (ret, rings', some p') ∧
      ((ret < 0 ∧ rings' = rings ∧ p' = p) ∨
        ∃ i r, ret = Switch.tokenOf i ∧ i < slipRingsMax ∧ rings i = none ∧
          rings' = setRingAt rings i r ∧ SoundRing entries p.cqEntries r ∧ p' = p.filled r) := by
  unfold setupRounded
  split
  · exact ⟨_, _, _, rfl, Or.inl ⟨by decide, rfl, rfl⟩⟩
  · next block hblock =>
    split
    · have hsound := over_sound hs hsmax hc hcmax hcq (env.fits _ _ hblock)
      exact ⟨_, _, _, rfl, Or.inr ⟨idx, _, rfl, hidx.1, hidx.2, rfl, hsound, rfl⟩⟩
    · exact ⟨_, _, _, rfl, Or.inl ⟨by decide, rfl, rfl⟩⟩

theorem wrapped_blockSize : RingLayout.blockSizeOf 0x80000000 0 = wrappedBlockSize := by decide

theorem setupRounded_refused {idx : ℕ} (h : env.calloc wrappedBlockSize = none ∨
    (env.mtxInit && env.cndInit && env.openRing) = false) :
    setupRounded env rings p idx 0x80000000 0 = (-enomem, rings, some p) := by
  rw [setupRounded, wrapped_blockSize]
  split
  · rfl
  · next block hblock =>
    have hclosed := h.resolve_left (by rw [hblock]; exact Option.some_ne_none block)
    simp only [hclosed, Bool.false_eq_true, if_false]

/-- With `2 ^ 31` SQ entries and the CQ's size left to setup, a ring that is answered has no CQ
entries. -/
theorem setupRounded_wrapped {idx : ℕ} (block : UInt64)
    (hblock : env.calloc wrappedBlockSize = some block)
    (hopen : (env.mtxInit && env.cndInit && env.openRing) = true) :
    setupRounded env rings p idx 0x80000000 0 = (Switch.tokenOf idx,
      setRingAt rings idx (.carved 0x80000000 0 block), some (p.filled (.carved 0x80000000 0 block))) := by
  rw [setupRounded, wrapped_blockSize, hblock]
  simp only [hopen, if_true]

end Setup

/-- Setup refuses or gives a sound ring exactly when it refuses at once, or both numbers can be
rounded up within 32 bits and the doubled one does not wrap to an empty CQ that is served. -/
theorem setup_sound_iff (env : SetupEnv) (rings : ℕ → Option RingLayout) (entries : UInt32)
    (p : UringParams) (hflags : p.flags &&& refusedShapes = 0) :
    SetupSound env rings entries p ↔
      entries = 0 ∨ (∀ i < slipRingsMax, (rings i).isSome = true) ∨
        (entries.toNat ≤ 2 ^ 31 ∧ p.cqEntries.toNat ≤ 2 ^ 31 ∧
          (p.cqEntries ≠ 0 ∨ entries.toNat ≤ 2 ^ 30 ∨ env.calloc wrappedBlockSize = none ∨
            (env.mtxInit && env.cndInit && env.openRing) = false)) := by
  by_cases h0 : entries = 0
  · simp only [h0, true_or, iff_true]
    exact ⟨0, _, _, p, rfl, Or.inl ⟨by decide, rfl, rfl⟩⟩
  cases hidx : (List.range slipRingsMax).find? (fun i => (rings i).isNone) with
  | none =>
    refine iff_of_true ?_ (Or.inr (Or.inl (freeRing_none.mp hidx)))
    exact ⟨0, -emfile, rings, p, by simp [slipstreamEngineSetup, h0, hflags, hidx],
      Or.inl ⟨by decide, rfl, rfl⟩⟩
  | some idx =>
    have hfree := freeRing_some hidx
    have hsome : ¬ ∀ i < slipRingsMax, (rings i).isSome = true := by
      intro hall
      have hidx' := hall idx hfree.1
      rw [hfree.2] at hidx'
      cases hidx'
    simp only [h0, hsome, false_or]
    constructor
    · rintro ⟨fuel, ret, rings', p', hset, hout⟩
      obtain ⟨s, c, hs, hc, hround⟩ := (setup_eq_some h0 hflags hidx).mp hset
      obtain ⟨hleast, hsmax⟩ := roundUpPow2_some hs
      refine ⟨hleast.2.1.trans hsmax, ?_, ?_⟩
      · by_cases hzero : p.cqEntries = 0
        · rw [hzero]
          decide
        · rw [cqRounded, if_pos hzero] at hc
          obtain ⟨hcleast, hcmax⟩ := roundUpPow2_some hc
          exact hcleast.2.1.trans hcmax
      · by_contra hbad
        simp only [not_or, not_not, Bool.not_eq_false, not_le] at hbad
        obtain ⟨hzero, hbig, hcalloc, hopen⟩ := hbad
        obtain ⟨block, hblock⟩ := Option.ne_none_iff_exists'.mp hcalloc
        have hs31 := doubling_wraps hleast hsmax hbig
        have hc0 : c = 0 := by
          rw [cqRounded, if_neg (by simpa using hzero), hs31] at hc
          cases hc
          rfl
        rw [hs31, hc0, setupRounded_wrapped block hblock hopen] at hround
        cases hround
        rcases hout with ⟨hneg, -⟩ | ⟨i, r, -, -, -, -, hsound, hp⟩
        · exact tokenOf_nonneg hfree.1 hneg
        · have hr : 0 = r.cqEntries := congrArg UringParams.cqEntries hp
          obtain ⟨k, hk⟩ := hsound.cqPower
          rw [← hr] at hk
          exact absurd hk (Nat.two_pow_pos k).ne
    · rintro ⟨hentries, hcq, hgranted⟩
      obtain ⟨s, hs⟩ := roundUpPow2_ends hentries (le_refl 32)
      obtain ⟨c, hc⟩ := cqRounded_ends (s := s) hcq
      obtain ⟨hleast, hsmax⟩ := roundUpPow2_some hs
      by_cases hfits : p.cqEntries ≠ 0 ∨ entries.toNat ≤ 2 ^ 30
      · obtain ⟨hcpow, hcmax, hcenough⟩ := cq_rounds hleast hsmax hfits hc
        obtain ⟨ret, rings', p', hround, hout⟩ :=
          setupRounded_sound env p hfree hleast hsmax hcpow hcmax hcenough
        exact ⟨32, ret, rings', p', (setup_eq_some h0 hflags hidx).mpr ⟨s, c, hs, hc, hround⟩, hout⟩
      · simp only [not_or, not_not, not_le] at hfits
        obtain ⟨hzero, hbig⟩ := hfits
        have hrefused : env.calloc wrappedBlockSize = none ∨
            (env.mtxInit && env.cndInit && env.openRing) = false :=
          (hgranted.resolve_left (not_not.mpr hzero)).resolve_left (not_le.mpr hbig)
        have hs31 := doubling_wraps hleast hsmax hbig
        have hc0 : cqRounded 32 p.cqEntries s = some 0 := by
          rw [cqRounded, if_neg (not_not.mpr hzero), hs31]
          rfl
        refine ⟨32, -enomem, rings, p, (setup_eq_some h0 hflags hidx).mpr ⟨s, 0, hs, hc0, ?_⟩,
          Or.inl ⟨by decide, rfl, rfl⟩⟩
        rw [hs31]
        exact setupRounded_refused hrefused

/-- A heap that gives every block of up to `2 ^ 63` bytes, at one address. -/
def roomyHeap : SetupEnv where
  calloc n := if n.toNat ≤ 2 ^ 63 then some 0x10000 else none
  fits := by
    intro n block h
    split at h
    · next hn =>
      cases h
      simp only [UInt64.reduceToNat]
      omega
    · cases h

theorem setup_sound_iff_five : SetupSound roomyHeap (fun _ => none) 5 {} := by
  apply (setup_sound_iff roomyHeap (fun _ => none) 5 {} (by decide)).mpr
  exact Or.inr (Or.inr ⟨by decide, by decide, Or.inr (Or.inl (by decide))⟩)

/-- Above `2 ^ 31` entries setup does not return, and at `2 ^ 31` it gives a ring without CQ
entries. -/
theorem setup_hangs_and_wraps :
    ¬ SetupSound roomyHeap (fun _ => none) 0x80000001 {} ∧
      ¬ SetupSound roomyHeap (fun _ => none) 0x80000000 {} := by
  have hidx : (List.range slipRingsMax).find?
      (fun i => ((fun _ => none : ℕ → Option RingLayout) i).isNone) = some 0 := by decide
  constructor
  · rintro ⟨fuel, ret, rings', p', hset, -⟩
    obtain ⟨s, c, hs, -⟩ := (setup_eq_some (by decide) (by decide) hidx).mp hset
    obtain ⟨hleast, hsmax⟩ := roundUpPow2_some hs
    exact absurd (hleast.2.1.trans hsmax) (by decide)
  · rintro ⟨fuel, ret, rings', p', hset, hout⟩
    obtain ⟨s, c, hs, hc, hround⟩ := (setup_eq_some (by decide) (by decide) hidx).mp hset
    obtain ⟨hleast, hsmax⟩ := roundUpPow2_some hs
    have hs31 := doubling_wraps hleast hsmax (by decide)
    rw [hs31] at hc hround
    cases hc
    rw [show (0x80000000 : UInt32) * 2 = 0 by decide,
      setupRounded_wrapped 0x10000 (by decide) (by decide)] at hround
    cases hround
    rcases hout with ⟨hneg, -⟩ | ⟨i, r, -, -, -, -, hsound, hp⟩
    · exact tokenOf_nonneg (i := 0) (by decide) hneg
    · have hr : 0 = r.cqEntries := congrArg UringParams.cqEntries hp
      obtain ⟨k, hk⟩ := hsound.cqPower
      rw [← hr] at hk
      exact absurd hk (Nat.two_pow_pos k).ne

/-- The three blocks mmap hands out, as the switch sees them. -/
def RingLayout.mem (r : RingLayout) : RingMem where
  sqBlock := r.sqBlock.toNat
  sqSize := r.sqSize.toNat
  cqBlock := r.cqBlock.toNat
  cqSize := r.cqSize.toNat
  sqes := r.sqes.toNat
  sqesSize := r.sqesSize.toNat

/-- A ring of setup is sliced as the switch takes it to be. -/
theorem over_mem {s c : UInt32} {block : UInt64} (hs : s.toNat ≤ 2 ^ 31) (hc : c.toNat ≤ 2 ^ 31)
    (hfit : block.toNat + (RingLayout.blockSizeOf s c).toNat ≤ 2 ^ 64) (hpos : 0 < c.toNat) :
    (RingLayout.carved s c block).mem = .slice block.toNat s.toNat c.toNat := by
  have hareas := RingLayout.over_areas hs hc hpos hfit
  have hsq := RingLayout.sqSizeOf_toNat hs
  have hcq := RingLayout.cqSizeOf_toNat hc
  have hsqes := RingLayout.sqesSizeOf_toNat hs
  simp only [RingLayout.areas, cutsOf, List.map_cons, List.map_nil, carve, List.cons.injEq,
    Area.mk.injEq] at hareas
  obtain ⟨-, ⟨hcqBlock, -⟩, ⟨hsqesBlock, -⟩, -⟩ := hareas
  simp only [RingLayout.mem, RingMem.slice, RingMem.mk.injEq]
  exact ⟨rfl, hsq, hcqBlock, hcq, by rw [hsqesBlock], hsqes⟩

/-- The loop that strings the op pool onto `op_free`, from slot `n` down. -/
def strungFrom : ℕ → Vault → Vault
  | 0, v => v
  | i + 1, v => strungFrom i { v.setNext i v.opFree with opFree := some i }

/-- The vault calloc gives: zeros, and the sizes setup stored. -/
def zeroVault (n : ℕ) (cqEntries : UInt32) : Vault where
  opPool := fun _ => {}
  opPoolN := n
  opFree := none
  cqEntries := cqEntries
  cq := {}
  backlogHead := none
  backlogTail := none

/-- With the slots from `i` on strung, and the ones below it as calloc gave them. -/
def partVault (n : ℕ) (cqEntries : UInt32) (i : ℕ) : Vault :=
  { zeroVault n cqEntries with
    opPool := fun s => { next := if i ≤ s ∧ s + 1 < n then some (s + 1) else none }
    opFree := if i < n then some i else none }

theorem strungFrom_partVault (n : ℕ) (e : UInt32) {i : ℕ} (hi : i ≤ n) :
    strungFrom i (partVault n e i) = emptyVault n e := by
  induction i with
  | zero => simp [strungFrom, partVault, emptyVault, zeroVault]
  | succ i ih =>
    rw [strungFrom, ← ih (by omega)]
    congr 1
    have hlt : i < n := by omega
    simp only [partVault, zeroVault, Vault.setNext, Vault.setOp, hlt, if_true, Vault.mk.injEq,
      and_true]
    refine funext fun (s : ℕ) => ?_
    by_cases hs : s = i
    · by_cases hn : i + 1 < n <;> simp [hs, hn]
    · have hle : i + 1 ≤ s ↔ i ≤ s := by omega
      simp [hs, hle]

/-- The op vault of a new ring is the empty vault the runs start with. -/
theorem setup_vault (n : ℕ) (e : UInt32) : strungFrom n (zeroVault n e) = emptyVault n e := by
  have hzero : zeroVault n e = partVault n e n := by
    have hnone (s : ℕ) : ¬ (n ≤ s ∧ s + 1 < n) := by omega
    simp [partVault, zeroVault, hnone]
  rw [hzero]
  exact strungFrom_partVault n e le_rfl

end SlipstreamIO.Engine
