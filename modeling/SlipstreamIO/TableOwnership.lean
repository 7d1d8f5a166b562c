import SlipstreamIO.Descriptors
import SlipstreamIO.DirectInstalls

/-! The descriptors behind the fixed table: made for direct ops, closed by CLOSE, by the table's
unregistration and with the ring. -/
namespace SlipstreamIO.Engine

open Runs

namespace Ring

def heldFds (r : Ring) : List Int32 := (r.fixed.getD []).filter (0 ≤ ·)

def Occupied (r : Ring) (slot : ℕ) : Prop := slot < r.fixedN ∧ 0 ≤ r.held slot

/-- A CLOSE in `process_queue` and in its try: what becomes of the table, and the descriptor that is closed. -/
def closeOp (r : Ring) (s : Sqe) : Ring × Option Int32 :=
  let realfd := r.slipFixedLookup s.fd
  if s.flags.fixedFile && realfd < 0 then (r, none)
  else if s.fileIndex ≠ 0 then
    let slot := s.fileIndex - 1
    let real := r.slipFixedLookup slot.toInt32
    if real < 0 then (r, none) else ((r.slipFixedClear slot.toNat).1, some real)
  else (r, some (if s.flags.fixedFile then realfd else s.fd))

end Ring

/-- A ring's table over the descriptors of the system. `inSlot` and `installed` are ghost: the descriptor
that was put into each slot, and all that ever were put into one. -/
structure OwnedTable where
  ring : Ring
  os : Descriptors Int32 := {}
  live : Bool := true
  inSlot : ℕ → Option ℕ := fun _ => none
  installed : List ℕ := []

/-- Register calls, a CLOSE, an op that makes a descriptor under the number the system gives it, a number
that somebody else closes, and the ring's close. -/
inductive OwnedLabel where
  | files2 (arg : Option RsrcRegister) (table : Bool)
  | allocRange (arg : Option FileIndexRange)
  | unregister
  | close (sqe : Sqe)
  | makes (sqe : Sqe) (fd : NonNeg)
  | elsewhere (fd : Int32)
  | ringClose

namespace OwnedTable
variable (s : OwnedTable)

/-- Every descriptor in the table is closed, and the table is freed. -/
def closeTable (r : Ring) : OwnedTable :=
  { s with ring := r, os := s.os.closeAll s.ring.heldFds, inSlot := fun _ => none }

/-- `slip_fixed_install` for a direct SOCKET or ACCEPT; without a slot the descriptor is closed again. Any
other descriptor goes to the caller, an open's also when it names a slot. -/
def makes (sqe : Sqe) (fd : NonNeg) : OwnedTable :=
  let os := s.os.make fd.1
  if sqe.fileIndex = 0 ∨ sqe.opcode = .openat ∨ sqe.opcode = .openat2 then { s with os }
  else
    let out := installDirect sqe s.ring fd
    if out.kept.isEmpty then { s with ring := out.ring, os := os.close fd.1 }
    else
      { s with
        ring := out.ring
        os
        inSlot := Function.update s.inSlot (s.ring.slipFixedInstall sqe.fileIndex fd).2.toInt.toNat
          (some s.os.made)
        installed := s.os.made :: s.installed }

def closes (sqe : Sqe) : OwnedTable :=
  match s.ring.closeOp sqe with
  | (r, none) => { s with ring := r }
  | (r, some fd) =>
    { s with
      ring := r
      os := s.os.close fd
      inSlot := if sqe.fileIndex ≠ 0 then Function.update s.inSlot (sqe.fileIndex - 1).toNat none
        else s.inSlot }

def step (l : OwnedLabel) : Option OwnedTable :=
  if s.live then
    match l with
    | .files2 arg table => some { s with ring := (s.ring.registerFiles2 arg table).1 }
    | .allocRange arg => some { s with ring := (s.ring.registerFileAllocRange arg).1 }
    | .unregister => some (s.closeTable s.ring.unregisterFiles.1)
    | .close sqe => some (s.closes sqe)
    -- the system gives no number that it has given already
    | .makes sqe fd => if s.os.names fd.1 = none then some (s.makes sqe fd) else none
    | .elsewhere fd => if fd ∈ s.ring.heldFds then none else some { s with os := s.os.lose fd }
    | .ringClose => some
      { s.closeTable { s.ring with fixed := none, allocOff := 0, allocLen := 0, allocHint := 0 } with
        live := false }
  else none

end OwnedTable

def ownedMachine : Machine OwnedTable OwnedLabel Empty where
  step s l := s.step l
  events _ _ := []

/-- A plain CLOSE does not name a descriptor of the table. -/
def PlainSpares (s : OwnedTable) : OwnedLabel → Prop
  | .close sqe => sqe.flags.fixedFile = false → sqe.fileIndex = 0 → sqe.fd ∉ s.ring.heldFds
  | _ => True

/-- No CLOSE with IOSQE_FIXED_FILE closes what a slot holds without emptying the slot. -/
def FixedSpares (s : OwnedTable) : OwnedLabel → Prop
  | .close sqe => sqe.flags.fixedFile = true → sqe.fileIndex = 0 → s.ring.slipFixedLookup sqe.fd < 0
  | _ => True

def ClosesBySlot (s : OwnedTable) (l : OwnedLabel) : Prop := PlainSpares s l ∧ FixedSpares s l

instance (s : OwnedTable) : (l : OwnedLabel) → Decidable (PlainSpares s l)
  | .close sqe => inferInstanceAs
      (Decidable (sqe.flags.fixedFile = false → sqe.fileIndex = 0 → sqe.fd ∉ s.ring.heldFds))
  | .files2 _ _ | .allocRange _ | .unregister | .makes _ _ | .elsewhere _ | .ringClose => isTrue trivial

instance (s : OwnedTable) : (l : OwnedLabel) → Decidable (FixedSpares s l)
  | .close sqe => inferInstanceAs (Decidable
      (sqe.flags.fixedFile = true → sqe.fileIndex = 0 → s.ring.slipFixedLookup sqe.fd < 0))
  | .files2 _ _ | .allocRange _ | .unregister | .makes _ _ | .elsewhere _ | .ringClose => isTrue trivial

instance (s : OwnedTable) (l : OwnedLabel) : Decidable (ClosesBySlot s l) :=
  inferInstanceAs (Decidable (_ ∧ _))

/-- The label ends what the slot holds: a close_direct of it, UNREGISTER_FILES, the ring's close. -/
def OwnedLabel.Ends (s : OwnedTable) (slot : ℕ) : OwnedLabel → Prop
  | .close sqe => sqe.fileIndex ≠ 0 ∧ slot = (sqe.fileIndex - 1).toNat ∧
      (sqe.flags.fixedFile = true → 0 ≤ s.ring.slipFixedLookup sqe.fd)
  | .unregister | .ringClose => True
  | _ => False

/-- What an occupied slot holds is the descriptor put there, not closed by the engine; everything ever
installed is closed once at most, and has been closed once it is in no slot any more; and what ends a slot
closes its descriptor. -/
structure OwnedTable.Owns (s : OwnedTable) : Prop where
  held : ∀ slot, s.ring.Occupied slot → ∃ i ∈ s.installed, s.inSlot slot = some i ∧
    s.os.names (s.ring.held slot) = some i ∧ s.os.closes i = 0
  there : ∀ slot i, s.inSlot slot = some i → s.ring.Occupied slot
  once : ∀ i ∈ s.installed, s.os.closes i ≤ 1
  gone : ∀ i ∈ s.installed, (∀ slot, s.inSlot slot ≠ some i) → s.os.closes i = 1
  ends : ∀ l s' slot i, s.step l = some s' → l.Ends s slot → s.inSlot slot = some i → s'.os.closes i = 1

section Tables
variable {r : Ring} {slot : ℕ} {fd : Int32} {q : Sqe}

theorem mem_heldFds : fd ∈ r.heldFds ↔ ∃ slot, r.Occupied slot ∧ r.held slot = fd := by
  rw [Ring.heldFds, List.mem_filter, decide_eq_true_eq, List.mem_iff_getElem]
  constructor
  · rintro ⟨⟨slot, hlt, rfl⟩, hle⟩
    have hheld : r.held slot = (r.fixed.getD [])[slot] := by
      rw [Ring.held, List.getD_eq_getElem _ _ hlt]
    exact ⟨slot, ⟨hlt, by rwa [hheld]⟩, hheld⟩
  · rintro ⟨slot, ⟨hlt, hle⟩, rfl⟩
    have hheld : r.held slot = (r.fixed.getD [])[slot] := by
      rw [Ring.held, List.getD_eq_getElem _ _ hlt]
    exact ⟨⟨slot, hlt, hheld.symm⟩, hle⟩

theorem not_occupied (h : r.fixed = none) : ¬ r.Occupied slot := by
  rintro ⟨hlt, -⟩
  rw [Ring.fixedN, h] at hlt
  exact absurd hlt (Nat.not_lt_zero slot)

/-- A lookup finds what an occupied slot holds. -/
theorem lookup_spec {x : Int32} (h : ¬ r.slipFixedLookup x < 0) :
    0 ≤ x ∧ r.Occupied x.toInt.toNat ∧ r.slipFixedLookup x = r.held x.toInt.toNat := by
  unfold Ring.slipFixedLookup at h ⊢
  cases htable : r.fixed with
  | none =>
    simp only [htable] at h
    exact absurd (by decide) h
  | some table =>
    simp only [htable] at h ⊢
    by_cases hneg : x < 0
    · rw [if_pos hneg] at h
      exact absurd (by decide) h
    rw [if_neg hneg] at h ⊢
    cases hheld : table[x.toInt.toNat]? with
    | none =>
      simp only [hheld] at h
      exact absurd (by decide) h
    | some held =>
      simp only [hheld] at h ⊢
      by_cases hempty : held < 0
      · rw [if_pos hempty] at h
        exact absurd (by decide) h
      rw [if_neg hempty]
      have hslot : r.held x.toInt.toNat = held := by
        rw [Ring.held_eq htable, List.getD_eq_getElem?_getD, hheld, Option.getD_some]
      refine ⟨Int32.not_lt.mp hneg, ⟨?_, ?_⟩, hslot.symm⟩
      · rw [Ring.fixedN_eq htable]
        exact (List.getElem?_eq_some_iff.mp hheld).1
      · rw [hslot]
        exact Int32.not_lt.mp hempty

theorem lookup_occupied {x : UInt32} (hsmall : r.fixedN ≤ 2 ^ 20) (h : r.Occupied x.toNat) :
    ¬ r.slipFixedLookup x.toInt32 < 0 := by
  obtain ⟨hlt, hle⟩ := h
  have hint : x.toInt32.toInt = x.toNat := by
    rw [← Int32.toInt_toBitVec, UInt32.toBitVec_toInt32, BitVec.toInt_eq_toNat_cond,
      UInt32.toNat_toBitVec, if_pos (by omega)]
  have hneg : ¬ x.toInt32 < 0 := by
    rw [Int32.lt_iff_toInt_lt, hint]
    have hz : Int32.toInt 0 = 0 := rfl
    omega
  cases htable : r.fixed with
  | none =>
    rw [Ring.fixedN, htable] at hlt
    exact absurd hlt (Nat.not_lt_zero _)
  | some table =>
    rw [Ring.fixedN_eq htable] at hlt
    rw [Ring.held_eq htable, List.getD_eq_getElem _ _ hlt] at hle
    have hget : table[x.toInt32.toInt.toNat]? = some table[x.toNat] := by
      rw [hint, Int.toNat_natCast, List.getElem?_eq_getElem hlt]
    simp only [Ring.slipFixedLookup, htable, if_neg hneg, hget]
    rw [if_neg (Int32.not_lt.mpr hle)]
    exact Int32.not_lt.mpr hle

/-- A clear of an occupied slot empties it and leaves the others. -/
theorem clear_spec (h : r.Occupied slot) :
    ∀ j, ((r.slipFixedClear slot).1.Occupied j ↔ r.Occupied j ∧ j ≠ slot) ∧
      (j ≠ slot → (r.slipFixedClear slot).1.held j = r.held j) := by
  obtain ⟨hlt, hle⟩ := h
  cases htable : r.fixed with
  | none =>
    rw [Ring.fixedN, htable] at hlt
    exact absurd hlt (Nat.not_lt_zero slot)
  | some table =>
    rw [Ring.fixedN_eq htable] at hlt
    rw [Ring.held_eq htable] at hle
    have hget : table[slot]? = some table[slot] := List.getElem?_eq_getElem hlt
    have hnot : ¬ table[slot] < 0 := by
      rw [List.getD_eq_getElem _ _ hlt] at hle
      exact Int32.not_lt.mpr hle
    have hfixed : (r.slipFixedClear slot).1.fixed = some (table.set slot (-1)) := by
      simp only [Ring.slipFixedClear, htable, hget, if_neg hnot]
    intro j
    have hheld (hne : j ≠ slot) : (r.slipFixedClear slot).1.held j = r.held j := by
      rw [Ring.held_eq hfixed, Ring.held_eq htable, getD_set, if_neg (fun h => hne h.1)]
    refine ⟨?_, hheld⟩
    unfold Ring.Occupied
    rw [Ring.fixedN_eq hfixed, Ring.fixedN_eq htable, List.length_set]
    by_cases hne : j = slot
    · rw [Ring.held_eq hfixed, getD_set, if_pos ⟨hne, hlt⟩]
      refine iff_of_false (fun h => absurd h.2 (by decide)) (fun h => h.2 hne)
    · rw [hheld hne]
      exact ⟨fun h => ⟨h, hne⟩, fun h => h.1⟩

/-- A registration of a table finds none and leaves it empty. -/
theorem registerFiles2_cases (r : Ring) (arg : Option RsrcRegister) (table : Bool) :
    (r.registerFiles2 arg table).1 = r ∨ r.fixed = none ∧
      ∃ n, (r.registerFiles2 arg table).1.fixed = some (List.replicate n (-1)) := by
  unfold Ring.registerFiles2
  (repeat' split) <;> try exact .inl rfl
  next rr _ _ hnone _ =>
    right
    exact ⟨Option.not_isSome_iff_eq_none.mp hnone, rr.nr.toNat, rfl⟩

theorem registerFileAllocRange_fixed (r : Ring) (arg : Option FileIndexRange) :
    (r.registerFileAllocRange arg).1.fixed = r.fixed := by
  unfold Ring.registerFileAllocRange
  (repeat' split) <;> rfl

theorem unregisterFiles_fixed (r : Ring) : r.unregisterFiles.1.fixed = none := by
  unfold Ring.unregisterFiles
  split
  · assumption
  · rfl

/-- An install without a slot leaves the ring alone; with one it fills an empty slot. -/
theorem Ring.HintHolds.installDirect_cases (h : r.HintHolds) (q : Sqe) (hfd : 0 ≤ fd) :
    (installDirect q r fd).ring.HintHolds ∧
    ((installDirect q r fd).kept.isEmpty = true ∧ (installDirect q r fd).ring = r ∨
    (installDirect q r fd).kept.isEmpty = false ∧
      ∃ slot, (r.slipFixedInstall q.fileIndex fd).2.toInt.toNat = slot ∧ ¬ r.Occupied slot ∧
        ∀ j, ((installDirect q r fd).ring.Occupied j ↔ r.Occupied j ∨ j = slot) ∧
          (installDirect q r fd).ring.held j = if j = slot then fd else r.held j) := by
  have hhint := h.install q.fileIndex hfd
  rcases h.install_cases q.fileIndex fd with
    ⟨hneg, hsame⟩ | ⟨table, slot, htable, hfree, hsmall, htable', hslot, -⟩
  · rw [installDirect_full hneg]
    exact ⟨hhint, .inl ⟨rfl, hsame⟩⟩
  · have hneg : ¬ (r.slipFixedInstall q.fileIndex fd).2 < 0 := by
      rw [hslot]
      exact ofNat_nonneg hsmall
    rw [installDirect_slot hneg]
    have hlt := lt_length_of_getD hfree
    refine ⟨hhint, .inr ⟨rfl, slot, ?_, ?_, fun j => ?_⟩⟩
    · rw [hslot, Int32.toInt_ofNat_of_lt (by omega)]
      rfl
    · rintro ⟨-, hle⟩
      rw [Ring.held_eq htable] at hle
      exact absurd hfree (Int32.not_lt.mpr hle)
    · have hheld : (r.slipFixedInstall q.fileIndex fd).1.held j = if j = slot then fd else r.held j := by
        rw [Ring.held_eq htable', Ring.held_eq htable, getD_set]
        by_cases hj : j = slot
        · rw [if_pos ⟨hj, hlt⟩, if_pos hj]
        · rw [if_neg (fun h => hj h.1), if_neg hj]
      refine ⟨?_, hheld⟩
      unfold Ring.Occupied
      rw [hheld, Ring.fixedN_eq htable', Ring.fixedN_eq htable, List.length_set]
      by_cases hj : j = slot
      · rw [if_pos hj]
        exact iff_of_true ⟨by omega, hfd⟩ (.inr hj)
      · rw [if_neg hj]
        exact ⟨.inl, fun h => h.resolve_right hj⟩

end Tables

/-- The table is in order, and each occupied slot holds the number of the descriptor put there. -/
structure OwnedTable.Inv (s : OwnedTable) : Prop where
  hint : s.ring.HintHolds
  os : s.os.Sound
  slots : ∀ slot, s.ring.Occupied slot ↔ ∃ i, s.inSlot slot = some i
  named : ∀ slot i, s.inSlot slot = some i →
    s.os.names (s.ring.held slot) = some i ∧ i ∈ s.installed
  apart : ∀ a b i, s.inSlot a = some i → s.inSlot b = some i → a = b
  gone : ∀ i ∈ s.installed, (∃ slot, s.inSlot slot = some i) ∨ s.os.closes i = 1

namespace OwnedTable.Inv
variable {s s' : OwnedTable} {slot i : ℕ} {fd : Int32} {q : Sqe} {l : OwnedLabel}

/-- A number that is not in the table names nothing that is in a slot. -/
theorem not_held (h : s.Inv) (hfd : fd ∉ s.ring.heldFds) (hi : s.inSlot slot = some i) :
    s.ring.held slot ≠ fd := by
  intro heq
  exact hfd (mem_heldFds.mpr ⟨slot, (h.slots slot).mpr ⟨i, hi⟩, heq⟩)

/-- The system changes, and nothing of it that the table holds. -/
theorem system (h : s.Inv) {os : Descriptors Int32} (hos : os.Sound)
    (hnames : ∀ slot i, s.inSlot slot = some i → os.names (s.ring.held slot) = some i)
    (hcloses : ∀ i, s.os.closes i ≤ os.closes i) : Inv { s with os } where
  hint := h.hint
  os := hos
  slots := h.slots
  named slot i hi := ⟨hnames slot i hi, (h.named slot i hi).2⟩
  apart := h.apart
  gone i hi := by
    rcases h.gone i hi with hin | hclosed
    · exact .inl hin
    · right
      have hle := hcloses i
      have honce := hos.once i
      dsimp only
      omega

theorem elsewhere (h : s.Inv) (hfd : fd ∉ s.ring.heldFds) : Inv { s with os := s.os.lose fd } := by
  apply h.system (h.os.lose fd)
  · intro slot i hi
    rw [Descriptors.lose_names_ne (h.not_held hfd hi)]
    exact (h.named slot i hi).1
  · exact fun i => Nat.le_refl _

/-- What is closed under a number that is not in the table is none of its descriptors. -/
theorem closeOther (h : s.Inv) (hfd : fd ∉ s.ring.heldFds) : Inv { s with os := s.os.close fd } := by
  apply h.system (h.os.close fd)
  · intro slot i hi
    rw [Descriptors.close_names_ne (h.not_held hfd hi)]
    exact (h.named slot i hi).1
  · exact Descriptors.closes_le_close s.os fd

/-- A number of the table names something. -/
theorem not_given (h : s.Inv) (hnone : s.os.names fd = none) : fd ∉ s.ring.heldFds := by
  intro hmem
  obtain ⟨slot, hocc, rfl⟩ := mem_heldFds.mp hmem
  obtain ⟨i, hi⟩ := (h.slots slot).mp hocc
  rw [(h.named slot i hi).1] at hnone
  cases hnone

theorem make (h : s.Inv) (hnone : s.os.names fd = none) : Inv { s with os := s.os.make fd } := by
  apply h.system (h.os.make fd)
  · intro slot i hi
    rw [Descriptors.make_names_ne (h.not_held (h.not_given hnone) hi)]
    exact (h.named slot i hi).1
  · exact fun i => Nat.le_refl _

/-- The ring changes, and not what its table holds. -/
theorem sameTable (h : s.Inv) {r : Ring} (hhint : r.HintHolds)
    (hocc : ∀ slot, r.Occupied slot ↔ s.ring.Occupied slot)
    (hheld : ∀ slot, r.Occupied slot → r.held slot = s.ring.held slot) : Inv { s with ring := r } where
  hint := hhint
  os := h.os
  slots slot := (hocc slot).trans (h.slots slot)
  named slot i hi := by
    have hin := (hocc slot).mpr ((h.slots slot).mpr ⟨i, hi⟩)
    dsimp only
    rw [hheld slot hin]
    exact h.named slot i hi
  apart := h.apart
  gone := h.gone

theorem files2 (h : s.Inv) (arg : Option RsrcRegister) (table : Bool) :
    Inv { s with ring := (s.ring.registerFiles2 arg table).1 } := by
  have hhint : (s.ring.registerFiles2 arg table).1.HintHolds := h.hint.step (l := .files2 arg table) trivial
  rcases registerFiles2_cases s.ring arg table with hsame | ⟨hnone, n, hempty⟩
  · rw [hsame]
    exact h
  · have hnew (slot : ℕ) : ¬ (s.ring.registerFiles2 arg table).1.Occupied slot := by
      rintro ⟨hlt, hle⟩
      rw [Ring.fixedN_eq hempty] at hlt
      rw [Ring.held_eq hempty, List.getD_eq_getElem _ _ hlt, List.getElem_replicate] at hle
      exact absurd hle (by decide)
    apply h.sameTable hhint
    · intro slot
      exact iff_of_false (hnew slot) (not_occupied hnone)
    · intro slot hocc
      exact absurd hocc (hnew slot)

theorem allocRange (h : s.Inv) (arg : Option FileIndexRange) :
    Inv { s with ring := (s.ring.registerFileAllocRange arg).1 } := by
  have hhint : (s.ring.registerFileAllocRange arg).1.HintHolds := h.hint.step (l := .allocRange arg) trivial
  have hfixed := registerFileAllocRange_fixed s.ring arg
  have hheld (slot : ℕ) : (s.ring.registerFileAllocRange arg).1.held slot = s.ring.held slot := by
    rw [Ring.held, hfixed, Ring.held]
  apply h.sameTable hhint
  · intro slot
    unfold Ring.Occupied
    rw [hheld, Ring.fixedN, hfixed, Ring.fixedN]
  · exact fun slot _ => hheld slot

/-- With the table go all its descriptors, each closed once. -/
theorem closeTable (h : s.Inv) {r : Ring} (hhint : r.HintHolds) (hfixed : r.fixed = none) :
    (s.closeTable r).Inv ∧ ∀ slot i, s.inSlot slot = some i → (s.closeTable r).os.closes i = 1 := by
  have hcloses (slot i : ℕ) (hi : s.inSlot slot = some i) :
      (s.os.closeAll s.ring.heldFds).closes i = 1 := by
    have hmem : s.ring.held slot ∈ s.ring.heldFds :=
      mem_heldFds.mpr ⟨slot, (h.slots slot).mpr ⟨i, hi⟩, rfl⟩
    exact h.os.closes_closeAll hmem (h.named slot i hi).1
  refine ⟨⟨hhint, h.os.closeAll _, fun slot => ?_, fun slot i hi => ?_, fun a b i ha => ?_, fun i hi => ?_⟩,
    hcloses⟩
  · refine iff_of_false (not_occupied hfixed) ?_
    rintro ⟨i, hi⟩
    cases hi
  · cases hi
  · cases ha
  · right
    rcases h.gone i hi with ⟨slot, hslot⟩ | hclosed
    · exact hcloses slot i hslot
    · have hle := Descriptors.closes_le_closeAll s.os s.ring.heldFds i
      have honce := (h.os.closeAll s.ring.heldFds).once i
      dsimp only [OwnedTable.closeTable]
      omega

/-- A close_direct empties the slot and closes what was in it. -/
theorem closeSlot (h : s.Inv) (hocc : s.ring.Occupied slot) :
    Inv { s with
      ring := (s.ring.slipFixedClear slot).1
      os := s.os.close (s.ring.held slot)
      inSlot := Function.update s.inSlot slot none } ∧
    ∀ i, s.inSlot slot = some i → (s.os.close (s.ring.held slot)).closes i = 1 := by
  have hclear := clear_spec hocc
  obtain ⟨k, hk⟩ := (h.slots slot).mp hocc
  have hone := h.os.closes_close (h.named slot k hk).1
  have hother {j i : ℕ} (hi : Function.update s.inSlot slot none j = some i) :
      j ≠ slot ∧ s.inSlot j = some i := by
    rw [Function.update_apply] at hi
    split at hi
    · cases hi
    · next hne => exact ⟨hne, hi⟩
  refine ⟨⟨h.hint.clear slot, h.os.close _, fun j => ?_, fun j i hi => ?_, fun a b i ha hb => ?_,
    fun i hi => ?_⟩, fun i hi => ?_⟩
  · rw [(hclear j).1, h.slots j]
    constructor
    · rintro ⟨⟨i, hi⟩, hne⟩
      exact ⟨i, (Function.update_of_ne hne _ _).trans hi⟩
    · rintro ⟨i, hi⟩
      exact ⟨⟨i, (hother hi).2⟩, (hother hi).1⟩
  · obtain ⟨hne, hj⟩ := hother hi
    -- two slots with one number would hold one descriptor
    have hfd : s.ring.held j ≠ s.ring.held slot := by
      intro heq
      have hnamed := (h.named j i hj).1
      rw [heq, (h.named slot k hk).1] at hnamed
      cases hnamed
      exact hne (h.apart j slot k hj hk)
    dsimp only
    rw [(hclear j).2 hne, Descriptors.close_names_ne hfd]
    exact h.named j i hj
  · exact h.apart a b i (hother ha).2 (hother hb).2
  · rcases h.gone i hi with ⟨j, hj⟩ | hclosed
    · by_cases hne : j = slot
      · right
        rw [hne, hk] at hj
        cases hj
        exact hone
      · exact .inl ⟨j, (Function.update_of_ne hne _ _).trans hj⟩
    · right
      have hle := Descriptors.closes_le_close s.os (s.ring.held slot) i
      have honce := (h.os.close (s.ring.held slot)).once i
      dsimp only
      omega
  · rw [hk] at hi
    cases hi
    exact hone

/-- An op's new descriptor goes to the caller, into an empty slot, or is closed again. -/
theorem makes (h : s.Inv) (q : Sqe) (fd : NonNeg) (hnone : s.os.names fd.1 = none) : (s.makes q fd).Inv := by
  have hmade := h.make hnone
  unfold OwnedTable.makes
  split
  · exact hmade
  obtain ⟨hhint, ⟨hkept, hring⟩ | ⟨hkept, slot, hslot, hfree, hinstall⟩⟩ := h.hint.installDirect_cases q fd.2
  · rw [if_pos hkept, hring]
    have hclosed := hmade.closeOther (h.not_given hnone)
    exact hclosed
  · simp only [hkept, Bool.false_eq_true, if_false, hslot]
    have hin {j i : ℕ} (hi : Function.update s.inSlot slot (some s.os.made) j = some i) :
        j = slot ∧ i = s.os.made ∨ j ≠ slot ∧ s.inSlot j = some i := by
      rw [Function.update_apply] at hi
      split at hi
      · next heq =>
        cases hi
        exact .inl ⟨heq, rfl⟩
      · next hne => exact .inr ⟨hne, hi⟩
    have hborn {j i : ℕ} (hi : s.inSlot j = some i) : i < s.os.made :=
      (h.os.unclosed _ i (h.named j i hi).1).1
    refine ⟨hhint, h.os.make _, fun j => ?_, fun j i hi => ?_, fun a b i ha hb => ?_, fun i hi => ?_⟩
    · rw [(hinstall j).1, h.slots j]
      constructor
      · rintro (⟨i, hi⟩ | rfl)
        · by_cases hj : j = slot
          · rw [hj]
            exact ⟨s.os.made, Function.update_self _ _ _⟩
          · exact ⟨i, (Function.update_of_ne hj _ _).trans hi⟩
        · exact ⟨s.os.made, Function.update_self _ _ _⟩
      · rintro ⟨i, hi⟩
        rcases hin hi with ⟨hj, -⟩ | ⟨-, hi⟩
        · exact .inr hj
        · exact .inl ⟨i, hi⟩
    · dsimp only
      rw [(hinstall j).2]
      rcases hin hi with ⟨hj, rfl⟩ | ⟨hj, hi⟩
      · rw [if_pos hj, Descriptors.make_names]
        exact ⟨rfl, List.mem_cons_self⟩
      · rw [if_neg hj, Descriptors.make_names_ne (h.not_held (h.not_given hnone) hi)]
        exact ⟨(h.named j i hi).1, List.mem_cons_of_mem _ (h.named j i hi).2⟩
    · rcases hin ha with ⟨ha', hia⟩ | ⟨-, ha⟩
      · rcases hin hb with ⟨hb', -⟩ | ⟨-, hb⟩
        · rw [ha', hb']
        · have hlt := hborn hb
          omega
      · rcases hin hb with ⟨-, hib⟩ | ⟨-, hb⟩
        · have hlt := hborn ha
          omega
        · exact h.apart a b i ha hb
    · rcases List.mem_cons.mp hi with rfl | hi
      · exact .inl ⟨slot, Function.update_self _ _ _⟩
      · rcases h.gone i hi with ⟨j, hj⟩ | hclosed
        · left
          refine ⟨j, (Function.update_of_ne ?_ _ _).trans hj⟩
          rintro rfl
          exact hfree ((h.slots j).mpr ⟨i, hj⟩)
        · exact .inr hclosed

/-- A CLOSE that leaves no slot behind it with a closed descriptor. -/
theorem close (h : s.Inv) (hl : ClosesBySlot s (.close q)) : (s.closes q).Inv := by
  unfold OwnedTable.closes Ring.closeOp
  dsimp only
  by_cases hbad : (q.flags.fixedFile && s.ring.slipFixedLookup q.fd < 0) = true
  · rw [if_pos hbad]
    exact h
  rw [if_neg hbad]
  by_cases hdirect : q.fileIndex ≠ 0
  · rw [if_pos hdirect]
    by_cases hempty : s.ring.slipFixedLookup (q.fileIndex - 1).toInt32 < 0
    · rw [if_pos hempty]
      exact h
    · rw [if_neg hempty]
      simp only [if_pos hdirect]
      obtain ⟨hle, hocc, hheld⟩ := lookup_spec hempty
      rw [toNat_toInt32 (Int32.not_lt.mpr hle)] at hocc hheld
      rw [hheld]
      exact (h.closeSlot hocc).1
  · rw [if_neg hdirect]
    simp only [if_neg hdirect]
    rw [Bool.and_eq_true, decide_eq_true_eq, not_and] at hbad
    have hplain : q.flags.fixedFile = false := by
      by_contra hfixed
      rw [Bool.not_eq_false] at hfixed
      exact hbad hfixed (hl.2 hfixed (not_not.mp hdirect))
    simp only [hplain, Bool.false_eq_true, if_false]
    exact h.closeOther (hl.1 hplain (not_not.mp hdirect))

theorem step (h : s.Inv) (hl : ClosesBySlot s l) (hs : s.step l = some s') : s'.Inv := by
  unfold OwnedTable.step at hs
  split at hs
  swap
  · cases hs
  cases l with
  | files2 arg table =>
    cases hs
    exact h.files2 arg table
  | allocRange arg =>
    cases hs
    exact h.allocRange arg
  | unregister =>
    cases hs
    exact (h.closeTable (h.hint.step (l := .unregister) trivial) (unregisterFiles_fixed _)).1
  | close q =>
    cases hs
    exact h.close hl
  | makes q fd =>
    dsimp only at hs
    split at hs
    · next hnone =>
      cases hs
      exact h.makes q fd hnone
    · cases hs
  | elsewhere fd =>
    dsimp only at hs
    split at hs
    · cases hs
    · next hfd =>
      cases hs
      exact h.elsewhere hfd
  | ringClose =>
    cases hs
    have hnew := (h.closeTable (Ring.HintHolds.fresh (Nat.zero_le _) (Nat.le_refl 0) rfl) rfl
      (r := { s.ring with fixed := none, allocOff := 0, allocLen := 0, allocHint := 0 })).1
    exact ⟨hnew.hint, hnew.os, hnew.slots, hnew.named, hnew.apart, hnew.gone⟩

/-- What ends a slot closes its descriptor. -/
theorem ends (h : s.Inv) (hs : s.step l = some s') (hl : l.Ends s slot) (hi : s.inSlot slot = some i) :
    s'.os.closes i = 1 := by
  unfold OwnedTable.step at hs
  split at hs
  swap
  · cases hs
  cases l with
  | files2 | allocRange | makes | elsewhere => exact hl.elim
  | unregister =>
    cases hs
    have hclosed := (h.closeTable (h.hint.step (l := .unregister) trivial) (unregisterFiles_fixed _)).2
    exact hclosed slot i hi
  | ringClose =>
    cases hs
    have hclosed := (h.closeTable (Ring.HintHolds.fresh (Nat.zero_le _) (Nat.le_refl 0) rfl) rfl
      (r := { s.ring with fixed := none, allocOff := 0, allocLen := 0, allocHint := 0 })).2
    exact hclosed slot i hi
  | close q =>
    cases hs
    obtain ⟨hdirect, rfl, hfixed⟩ := hl
    have hbad : ¬ (q.flags.fixedFile && s.ring.slipFixedLookup q.fd < 0) = true := by
      rw [Bool.and_eq_true, decide_eq_true_eq, not_and]
      exact fun hflag => Int32.not_lt.mpr (hfixed hflag)
    have hocc := (h.slots _).mpr ⟨i, hi⟩
    have hfound := lookup_occupied h.hint.small hocc
    obtain ⟨hle, -, hheld⟩ := lookup_spec hfound
    rw [toNat_toInt32 (Int32.not_lt.mpr hle)] at hheld
    simp only [OwnedTable.closes, Ring.closeOp, if_neg hbad, if_pos hdirect, if_neg hfound]
    rw [hheld]
    exact (h.closeSlot hocc).2 i hi

end OwnedTable.Inv

/-- A ring without a table, and nothing made yet. -/
def setupOwned (n : ℕ) (cqEntries : UInt32) : OwnedTable where
  ring := (setupCore n cqEntries).ring

theorem setupOwned_inv (n : ℕ) (e : UInt32) : (setupOwned n e).Inv where
  hint := Ring.HintHolds.fresh (Nat.zero_le _) (Nat.le_refl 0) rfl
  os := Descriptors.sound_empty
  slots slot := by
    refine iff_of_false (not_occupied rfl) ?_
    rintro ⟨i, hi⟩
    cases hi
  named slot i hi := by cases hi
  apart a b i ha := by cases ha
  gone i hi := absurd hi List.not_mem_nil

/-- In every run in which no CLOSE with IOSQE_FIXED_FILE and no slot in `file_index` finds its slot occupied. -/
theorem table_owns_descriptors {n : ℕ} {e : UInt32} {tr : List Empty} {s : OwnedTable}
    (hr : Run ownedMachine ClosesBySlot (setupOwned n e) tr s) : s.Owns := by
  have hinv : s.Inv := by
    apply hr.invariant (fun _ s => s.Inv) (setupOwned_inv n e)
    intro tr s l s' _ h hl hs
    exact h.step hl hs
  refine ⟨fun slot hocc => ?_, fun slot i hi => (hinv.slots slot).mpr ⟨i, hi⟩, fun i _ => hinv.os.once i,
    fun i hi hnone => ?_, fun l s' slot i hs hl hi => hinv.ends hs hl hi⟩
  · obtain ⟨i, hi⟩ := (hinv.slots slot).mp hocc
    have hnamed := hinv.named slot i hi
    exact ⟨i, hnamed.2, hi, hnamed.1, (hinv.os.unclosed _ i hnamed.1).2⟩
  · rcases hinv.gone i hi with ⟨slot, hslot⟩ | hclosed
    · exact absurd hslot (hnone slot)
    · exact hclosed

/-- Two sockets are installed, the first is closed by its slot, and its number given again. -/
theorem table_owns_descriptors_two : ∃ tr s, Run ownedMachine ClosesBySlot (setupOwned 1 1) tr s ∧
    s.ring.fixed = some [-1, 8] ∧ s.os.closes 0 = 1 ∧ s.os.names 7 = some 2 ∧ s.Owns := by
  obtain ⟨tr, s, hr, htable, hclosed, hnamed⟩ := Run.of_exec ownedMachine ClosesBySlot (setupOwned 1 1)
    (fun _ s => s.ring.fixed = some [-1, 8] ∧ s.os.closes 0 = 1 ∧ s.os.names 7 = some 2)
    [.files2 (some ⟨2, 1, 0, 0⟩) true,
      .makes { opcode := .socket, fileIndex := ioringFileIndexAlloc } ⟨7, by decide⟩,
      .makes { opcode := .accept, fileIndex := 2 } ⟨8, by decide⟩,
      .close { opcode := .close, fileIndex := 1 }, .makes { opcode := .openat } ⟨7, by decide⟩] (by decide)
  exact ⟨tr, s, hr, htable, hclosed, hnamed, table_owns_descriptors hr⟩

/-- A CLOSE with IOSQE_FIXED_FILE of slot 0 closes what the slot goes on to hold. -/
theorem fixed_close_keeps_slot : ∃ tr s, Run ownedMachine PlainSpares (setupOwned 1 1) tr s ∧ ¬ s.Owns := by
  obtain ⟨tr, s, hr, hlen, hheld, hslot, hclosed⟩ := Run.of_exec ownedMachine PlainSpares (setupOwned 1 1)
    (fun _ s => 0 < s.ring.fixedN ∧ 0 ≤ s.ring.held 0 ∧ s.inSlot 0 = some 0 ∧ s.os.closes 0 = 1)
    [.files2 (some ⟨2, 1, 0, 0⟩) true,
      .makes { opcode := .socket, fileIndex := 1 } ⟨7, by decide⟩,
      .close { opcode := .close, flags := { fixedFile := true }, fd := 0 }] (by decide)
  refine ⟨tr, s, hr, fun howns => ?_⟩
  obtain ⟨i, -, hi, -, hopen⟩ := howns.held 0 ⟨hlen, hheld⟩
  rw [hslot] at hi
  cases hi
  omega

end SlipstreamIO.Engine
