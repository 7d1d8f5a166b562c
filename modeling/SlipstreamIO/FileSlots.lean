import SlipstreamIO.PosixTry
import SlipstreamIO.SyscallSwitch
import Mathlib.Order.Lattice.Nat

/-! The registrations of the fixed file table, and why the scan of an install from the hint on finds
the lowest empty slot of the alloc range. -/
namespace SlipstreamIO.Engine

open Runs Syscall

def ioringRsrcRegisterSparse : UInt32 := 1

/-- `struct io_uring_rsrc_register`. -/
structure RsrcRegister where
  nr : UInt32
  flags : UInt32
  data : UInt64
  tags : UInt64
  deriving DecidableEq, Repr

/-- `struct io_uring_file_index_range`. -/
structure FileIndexRange where
  off : UInt32
  len : UInt32
  resv : UInt64
  deriving DecidableEq, Repr

namespace Ring

/-- IORING_REGISTER_FILES2; `table` says whether malloc gives the table. -/
def registerFiles2 (r : Ring) (arg : Option RsrcRegister) (table : Bool) : Ring × Int32 :=
  match arg with
  | none => (r, -efault)
  | some rr =>
    if rr.flags &&& ioringRsrcRegisterSparse = 0 || rr.data ≠ 0 || rr.tags ≠ 0 then (r, -einval)
    else if rr.nr = 0 || 2 ^ 20 < rr.nr.toNat then (r, -einval)
    else if r.fixed.isSome then (r, -ebusy)
    else if !table then (r, -enomem)
    else
      ({ r with
        fixed := some (List.replicate rr.nr.toNat (-1))
        allocOff := 0
        allocLen := rr.nr.toNat
        allocHint := 0 }, 0)

/-- IORING_UNREGISTER_FILES. -/
def unregisterFiles (r : Ring) : Ring × Int32 :=
  match r.fixed with
  | none => (r, -enxio)
  | some _ => ({ r with fixed := none, allocOff := 0, allocLen := 0, allocHint := 0 }, 0)

/-- IORING_REGISTER_FILE_ALLOC_RANGE. -/
def registerFileAllocRange (r : Ring) (arg : Option FileIndexRange) : Ring × Int32 :=
  match arg with
  | none => (r, -efault)
  | some range =>
    if r.fixed.isNone then (r, -enxio)
    else if range.resv ≠ 0 || r.fixedN < range.off.toNat ||
        r.fixedN - range.off.toNat < range.len.toNat then (r, -einval)
    else
      ({ r with
        allocOff := range.off.toNat
        allocLen := range.len.toNat
        allocHint := range.off.toNat }, 0)

/-- What the table holds in a slot; negative is empty. -/
def held (r : Ring) (slot : ℕ) : Int32 := (r.fixed.getD []).getD slot 0

end Ring

/-- What happens to the table: registrations, direct installs, and clears. -/
inductive TableLabel where
  | files2 (arg : Option RsrcRegister) (table : Bool)
  | allocRange (arg : Option FileIndexRange)
  | unregister
  | install (fileIndex : UInt32) (realfd : Int32)
  | clear (slot : ℕ)
  deriving DecidableEq

def Ring.tableStep (r : Ring) : TableLabel → Ring × Int32
  | .files2 arg table => r.registerFiles2 arg table
  | .allocRange arg => r.registerFileAllocRange arg
  | .unregister => r.unregisterFiles
  | .install fileIndex realfd => r.slipFixedInstall fileIndex realfd
  | .clear slot => r.slipFixedClear slot

/-- What happens to the table is written to the table and its alloc range alone. -/
theorem Ring.tableStep_eq (r : Ring) (l : TableLabel) : ∃ fixed allocOff allocLen allocHint,
    (r.tableStep l).1 = { r with fixed, allocOff, allocLen, allocHint } := by
  cases l with
  | files2 arg table =>
    simp only [Ring.tableStep, Ring.registerFiles2]
    repeat' split
    all_goals exact ⟨_, _, _, _, rfl⟩
  | allocRange arg =>
    simp only [Ring.tableStep, Ring.registerFileAllocRange]
    repeat' split
    all_goals exact ⟨_, _, _, _, rfl⟩
  | unregister =>
    simp only [Ring.tableStep, Ring.unregisterFiles]
    split
    all_goals exact ⟨_, _, _, _, rfl⟩
  | install fileIndex realfd =>
    simp only [Ring.tableStep, Ring.slipFixedInstall]
    repeat' split
    all_goals exact ⟨_, _, _, _, rfl⟩
  | clear slot =>
    simp only [Ring.tableStep, Ring.slipFixedClear]
    repeat' split
    all_goals exact ⟨_, _, _, _, rfl⟩

/-- The events are the answers. -/
def tableMachine : Machine Ring TableLabel Int32 where
  step r l := some (r.tableStep l).1
  events r l := [(r.tableStep l).2]

/-- What is installed is a descriptor: the backends install what accept or socket answered. -/
def InstallsFd (_ : Ring) : TableLabel → Prop
  | .install _ realfd => 0 ≤ realfd
  | _ => True

instance (r : Ring) (l : TableLabel) : Decidable (InstallsFd r l) :=
  match l with
  | .install _ realfd => inferInstanceAs (Decidable (0 ≤ realfd))
  | .files2 .. | .allocRange _ | .unregister | .clear _ => inferInstanceAs (Decidable True)

/-- The alloc range lies in the table, the hint in the range or at its end, and no slot of the range
below the hint is empty. -/
structure Ring.HintHolds (r : Ring) : Prop where
  small : r.fixedN ≤ 2 ^ 20
  range : r.allocOff + r.allocLen ≤ r.fixedN
  hintLow : r.allocOff ≤ r.allocHint
  hintHigh : r.allocHint ≤ r.allocOff + r.allocLen
  below : ∀ j, r.allocOff ≤ j → j < r.allocHint → 0 ≤ r.held j

/-- The empty slots of the alloc range. -/
def Ring.freeInRange (r : Ring) : Set ℕ :=
  {j | r.allocOff ≤ j ∧ j < r.allocOff + r.allocLen ∧ r.held j < 0}

section Scan
variable {fixed : List Int32} {stop tries probe slot : ℕ}

/-- Nothing empty between the probe and a slot further on: the scan comes to that slot. -/
theorem allocScan_reaches (off : ℕ) (hfree : fixed.getD slot 0 < 0) (hlt : slot < stop)
    (hocc : ∀ j, probe ≤ j → j < slot → 0 ≤ fixed.getD j 0) (hle : probe ≤ slot)
    (htries : slot < probe + tries) : Ring.allocScan fixed off stop tries probe = some slot := by
  induction tries generalizing probe with
  | zero => omega
  | succ tries ih =>
    rw [Ring.allocScan]
    by_cases hhere : probe = slot
    · rw [hhere, if_pos hfree]
    · have hnot : ¬ fixed.getD probe 0 < 0 := Int32.not_lt.mpr (hocc probe le_rfl (by omega))
      rw [if_neg hnot, if_neg (by omega)]
      exact ih (fun j hj => hocc j (by omega)) (by omega) (by omega)

/-- With every slot of the range taken, the scan goes around and finds none. -/
theorem allocScan_full {off : ℕ} (hocc : ∀ j, off ≤ j → j < stop → 0 ≤ fixed.getD j 0) (hlow : off ≤ probe)
    (hhigh : probe < stop) : Ring.allocScan fixed off stop tries probe = none := by
  induction tries generalizing probe with
  | zero => rfl
  | succ tries ih =>
    have hnot : ¬ fixed.getD probe 0 < 0 := Int32.not_lt.mpr (hocc probe hlow hhigh)
    rw [Ring.allocScan, if_neg hnot]
    split
    · exact ih le_rfl (by omega)
    · exact ih (by omega) (by omega)

end Scan

section Install
variable {r : Ring} {fixed : List Int32} {realfd : Int32} {slot : ℕ}

theorem Ring.held_eq (hfixed : r.fixed = some fixed) (j : ℕ) : r.held j = fixed.getD j 0 := by
  rw [Ring.held, hfixed, Option.getD_some]

theorem Ring.fixedN_eq (hfixed : r.fixed = some fixed) : r.fixedN = fixed.length := by
  rw [Ring.fixedN, hfixed, Option.getD_some]

theorem getD_set (fixed : List Int32) (slot j : ℕ) (fd : Int32) :
    (fixed.set slot fd).getD j 0 = if j = slot ∧ slot < fixed.length then fd else fixed.getD j 0 := by
  simp only [List.getD_eq_getElem?_getD, List.getElem?_set]
  by_cases hj : slot = j
  · by_cases hlt : j < fixed.length
    · simp [hj, hlt]
    · simp [hj, hlt]
  · simp [hj, Ne.symm hj]

/-- Every slot of the range is taken, or there is a lowest empty one. -/
theorem Ring.free_or_full (r : Ring) : (∃ slot, IsLeast r.freeInRange slot) ∨ r.freeInRange = ∅ := by
  rcases r.freeInRange.eq_empty_or_nonempty with hnone | hsome
  · exact Or.inr hnone
  · exact Or.inl ⟨sInf r.freeInRange, Nat.sInf_mem hsome, fun j hj => Nat.sInf_le hj⟩

theorem Ring.taken_of_full (hfull : r.freeInRange = ∅) {j : ℕ} (hlow : r.allocOff ≤ j)
    (hhigh : j < r.allocOff + r.allocLen) : 0 ≤ r.held j := by
  by_contra hneg
  have hmem : j ∈ r.freeInRange := ⟨hlow, hhigh, Int32.not_le.mp hneg⟩
  rw [hfull] at hmem
  exact hmem

/-- The scan starts at the hint, and all it leaves out below is taken: it finds the lowest one. -/
theorem Ring.HintHolds.install_free (h : r.HintHolds) (realfd : Int32) (hfixed : r.fixed = some fixed)
    (hslot : IsLeast r.freeInRange slot) :
    r.slipFixedInstall ioringFileIndexAlloc realfd =
      ({ r with fixed := some (fixed.set slot realfd), allocHint := slot + 1 }, Int32.ofNat slot) := by
  obtain ⟨⟨hlow, hhigh, hfree⟩, hleast⟩ := hslot
  have hhint : r.allocHint ≤ slot := by
    by_contra hlt
    exact Int32.not_lt.mpr (h.below slot hlow (by omega)) hfree
  have hocc (j : ℕ) (hj : r.allocHint ≤ j) (hjs : j < slot) : 0 ≤ fixed.getD j 0 := by
    rw [← Ring.held_eq hfixed]
    by_contra hneg
    have hmem : j ∈ r.freeInRange :=
      ⟨h.hintLow.trans hj, by omega, Int32.not_le.mp hneg⟩
    have hle := hleast hmem
    omega
  have hlowHint := h.hintLow
  rw [Ring.held_eq hfixed] at hfree
  have htries : slot < r.allocHint + r.allocLen := by omega
  have hscan := allocScan_reaches r.allocOff hfree hhigh hocc hhint htries
  have hprobe : ¬ (r.allocHint < r.allocOff ∨ r.allocOff + r.allocLen ≤ r.allocHint) := by omega
  simp only [slipFixedInstall, hfixed, if_true, if_neg hprobe, hscan]

theorem Ring.HintHolds.install_full (h : r.HintHolds) (realfd : Int32) (hfixed : r.fixed = some fixed)
    (hfull : r.freeInRange = ∅) :
    r.slipFixedInstall ioringFileIndexAlloc realfd = (r, -enfile) := by
  have hocc (j : ℕ) (hlow : r.allocOff ≤ j) (hhigh : j < r.allocOff + r.allocLen) :
      0 ≤ fixed.getD j 0 := by
    rw [← Ring.held_eq hfixed]
    exact Ring.taken_of_full hfull hlow hhigh
  have hscan (probe : ℕ) (hlow : r.allocOff ≤ probe) (hhigh : probe < r.allocOff + r.allocLen ∨ r.allocLen = 0) :
      Ring.allocScan fixed r.allocOff (r.allocOff + r.allocLen) r.allocLen probe = none := by
    rcases hhigh with hhigh | hzero
    · exact allocScan_full hocc hlow hhigh
    · rw [hzero, Ring.allocScan]
  have hlowHint := h.hintLow
  simp only [slipFixedInstall, hfixed, if_true]
  rw [hscan]
  · split <;> omega
  · split <;> omega

/-- With a table of the same length and range, the hint holds where the slots below it are taken. -/
theorem Ring.HintHolds.of_table (h : r.HintHolds) (hfixed : r.fixed = some fixed) {fixed' : List Int32}
    {hint : ℕ} (hlen : fixed'.length = fixed.length) (hlow : r.allocOff ≤ hint)
    (hhigh : hint ≤ r.allocOff + r.allocLen)
    (hbelow : ∀ j, r.allocOff ≤ j → j < hint → 0 ≤ fixed'.getD j 0) :
    { r with fixed := some fixed', allocHint := hint }.HintHolds where
  small := by
    have hn := h.small
    rw [Ring.fixedN_eq hfixed] at hn
    rw [Ring.fixedN_eq rfl, hlen]
    exact hn
  range := by
    have hr := h.range
    rw [Ring.fixedN_eq hfixed] at hr
    rw [Ring.fixedN_eq rfl, hlen]
    exact hr
  hintLow := hlow
  hintHigh := hhigh
  below := hbelow

theorem Ring.HintHolds.install (h : r.HintHolds) (fileIndex : UInt32) (hfd : 0 ≤ realfd) :
    (r.slipFixedInstall fileIndex realfd).1.HintHolds := by
  cases hfixed : r.fixed with
  | none =>
    simp only [slipFixedInstall, hfixed]
    exact h
  | some fixed =>
    have hN := Ring.fixedN_eq hfixed
    have hkeeps (slot j : ℕ) (hj : 0 ≤ fixed.getD j 0) : 0 ≤ (fixed.set slot realfd).getD j 0 := by
      rw [getD_set]
      split
      · exact hfd
      · exact hj
    by_cases halloc : fileIndex = ioringFileIndexAlloc
    · rw [halloc]
      rcases r.free_or_full with ⟨slot, hslot⟩ | hfull
      · have hin := hslot.1
        have hrange := h.range
        rw [h.install_free realfd hfixed hslot]
        apply h.of_table hfixed List.length_set (Nat.le_succ_of_le hin.1) hin.2.1
        intro j hlow hj
        by_cases hjs : j = slot
        · rw [getD_set, if_pos ⟨hjs, by have := hin.2.1; omega⟩]
          exact hfd
        · apply hkeeps
          rw [← Ring.held_eq hfixed]
          by_contra hneg
          have hmem : j ∈ r.freeInRange :=
            ⟨hlow, by have := hin.2.1; omega, Int32.not_le.mp hneg⟩
          have hle := hslot.2 hmem
          omega
      · rw [h.install_full realfd hfixed hfull]
        exact h
    · simp only [slipFixedInstall, hfixed, if_neg halloc]
      split
      · exact h
      · split
        · exact h
        · apply h.of_table hfixed List.length_set h.hintLow h.hintHigh
          intro j hlow hj
          apply hkeeps
          rw [← Ring.held_eq hfixed]
          exact h.below j hlow hj

theorem Ring.HintHolds.clear (h : r.HintHolds) (slot : ℕ) :
    (r.slipFixedClear slot).1.HintHolds := by
  cases hfixed : r.fixed with
  | none =>
    simp only [slipFixedClear, hfixed]
    exact h
  | some fixed =>
    have hhigh := h.hintHigh
    have hlow := h.hintLow
    simp only [slipFixedClear, hfixed]
    split
    · exact h
    · split
      · exact h
      · apply h.of_table hfixed List.length_set
        · split <;> omega
        · split <;> omega
        · intro j hj hlt
          have hbelow : j < r.allocHint ∧ j ≠ slot := by
            split at hlt <;> omega
          rw [getD_set, if_neg (by simp [hbelow.2]), ← Ring.held_eq hfixed]
          exact h.below j hj hbelow.1

end Install

/-- A table without a hint above the range's start holds. -/
theorem Ring.HintHolds.fresh {r : Ring} (hsmall : r.fixedN ≤ 2 ^ 20)
    (hrange : r.allocOff + r.allocLen ≤ r.fixedN) (hhint : r.allocHint = r.allocOff) : r.HintHolds where
  small := hsmall
  range := hrange
  hintLow := hhint.ge
  hintHigh := by omega
  below := by
    intro j hlow hj
    omega

/-- Every registration, install of a descriptor and clear keeps the hint true. -/
theorem Ring.HintHolds.step {r : Ring} {l : TableLabel} (h : r.HintHolds) (hl : InstallsFd r l) :
    (r.tableStep l).1.HintHolds := by
  cases l with
  | files2 arg table =>
    simp only [Ring.tableStep, Ring.registerFiles2]
    (repeat' split) <;> try exact h
    next rr _ hnr _ _ =>
      have hlen : (List.replicate rr.nr.toNat (-1 : Int32)).length = rr.nr.toNat := List.length_replicate
      simp only [Bool.or_eq_true, decide_eq_true_eq, not_or, not_lt] at hnr
      apply Ring.HintHolds.fresh
      · rw [Ring.fixedN_eq rfl, hlen]
        exact hnr.2
      · rw [Ring.fixedN_eq rfl, hlen]
        exact (Nat.zero_add _).le
      · rfl
  | allocRange arg =>
    simp only [Ring.tableStep, Ring.registerFileAllocRange]
    (repeat' split) <;> try exact h
    next range _ hin =>
      simp only [Bool.or_eq_true, decide_eq_true_eq, not_or, not_lt] at hin
      refine Ring.HintHolds.fresh (by exact h.small) ?_ rfl
      have hoff := hin.1.2
      have hlen := hin.2
      simp only [Ring.fixedN] at hoff hlen ⊢
      omega
  | unregister =>
    simp only [Ring.tableStep, Ring.unregisterFiles]
    split
    · exact h
    · exact Ring.HintHolds.fresh (Nat.zero_le _) le_rfl rfl
  | install fileIndex realfd => exact h.install fileIndex hl
  | clear slot => exact h.clear slot

/-- What an install with IORING_FILE_INDEX_ALLOC of the descriptor `realfd` has to do: the lowest
empty slot of the range gets it, no other slot changes, and -ENFILE says exactly that none is empty. -/
structure Ring.GivesLowest (r : Ring) (fixed : List Int32) (realfd : Int32) : Prop where
  lowest : ∀ slot, IsLeast r.freeInRange slot →
    (r.slipFixedInstall ioringFileIndexAlloc realfd).2 = Int32.ofNat slot ∧
    (r.slipFixedInstall ioringFileIndexAlloc realfd).1.fixed = some (fixed.set slot realfd)
  refuses : (r.slipFixedInstall ioringFileIndexAlloc realfd).2 = -enfile ↔
    ∀ j, r.allocOff ≤ j → j < r.allocOff + r.allocLen → 0 ≤ r.held j
  unchanged : (r.slipFixedInstall ioringFileIndexAlloc realfd).2 = -enfile →
    (r.slipFixedInstall ioringFileIndexAlloc realfd).1 = r

theorem slot_ne_enfile {slot : ℕ} (h : slot ≤ 2 ^ 20) : Int32.ofNat slot ≠ -enfile := by
  intro heq
  have hint := congrArg Int32.toInt heq
  rw [Int32.toInt_ofNat_of_lt (by omega)] at hint
  have hneg : (-enfile).toInt = -23 := by decide
  omega

theorem Ring.HintHolds.givesLowest {r : Ring} {fixed : List Int32} (h : r.HintHolds)
    (hfixed : r.fixed = some fixed) (realfd : Int32) : r.GivesLowest fixed realfd := by
  rcases r.free_or_full with ⟨slot, hslot⟩ | hfull
  · have hin := hslot.1
    have hinstall := h.install_free realfd hfixed hslot
    have hans : (r.slipFixedInstall ioringFileIndexAlloc realfd).2 ≠ -enfile := by
      rw [hinstall]
      have hrange := h.range
      have hsmall := h.small
      exact slot_ne_enfile (by have := hin.2.1; omega)
    refine ⟨fun slot' hslot' => ?_, ⟨fun h => absurd h hans, fun hall => ?_⟩, fun h => absurd h hans⟩
    · rw [hinstall, hslot'.unique hslot]
      exact ⟨rfl, rfl⟩
    · exact absurd hin.2.2 (Int32.not_lt.mpr (hall slot hin.1 hin.2.1))
  · have hinstall := h.install_full realfd hfixed hfull
    refine ⟨fun slot hslot => ?_, ⟨fun _ j => Ring.taken_of_full hfull, fun _ => ?_⟩, fun _ => ?_⟩
    · have hmem := hslot.1
      rw [hfull] at hmem
      cases hmem
    · rw [hinstall]
    · rw [hinstall]

/-- After every run of registrations, installs of descriptors and clears, the alloc range lies in the
table, and an install that asks for a slot gets the lowest empty one of the range. -/
theorem alloc_gives_lowest {n : ℕ} {e : UInt32} {tr : List Int32} {r : Ring}
    (hr : Run tableMachine InstallsFd (setupCore n e).ring tr r) :
    r.allocOff + r.allocLen ≤ r.fixedN ∧
      ∀ fixed, r.fixed = some fixed → ∀ realfd, 0 ≤ realfd → r.GivesLowest fixed realfd := by
  have hinv : r.HintHolds := by
    apply hr.invariant (fun _ r => r.HintHolds)
    · exact Ring.HintHolds.fresh (Nat.zero_le _) le_rfl rfl
    · intro tr r l r' _ h hl hs
      cases hs
      exact h.step hl
  exact ⟨hinv.range, fun fixed hfixed realfd _ => hinv.givesLowest hfixed realfd⟩

/-- A table of three, one slot installed by name, one given and cleared again. -/
theorem alloc_gives_lowest_three : ∃ r : Ring, r.fixed = some [-1, 7, -1] ∧
    (r.slipFixedInstall ioringFileIndexAlloc 9).2 = 0 ∧
    r.allocOff + r.allocLen ≤ r.fixedN ∧ r.GivesLowest [-1, 7, -1] 9 := by
  obtain ⟨tr, r, hr, hfixed, hslot⟩ := Run.of_exec tableMachine InstallsFd (setupCore 1 1).ring
    (fun _ r => r.fixed = some [-1, 7, -1] ∧ (r.slipFixedInstall ioringFileIndexAlloc 9).2 = 0)
    [.files2 (some ⟨3, 1, 0, 0⟩) true, .install 2 7, .install ioringFileIndexAlloc 8, .clear 0]
    (by decide)
  have hlow := alloc_gives_lowest hr
  exact ⟨r, hfixed, hslot, hlow.1, hlow.2 _ hfixed 9 (by decide)⟩

end SlipstreamIO.Engine
