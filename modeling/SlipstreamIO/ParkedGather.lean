import SlipstreamIO.TableRuns

/-! Gathering: a pass walks the side lists it was told about into `ready[]`. -/
namespace SlipstreamIO.Engine

open ThreadedList Runs IndexedBag

variable {κ ω : Type}

/-- Where an op is parked. -/
def EngOp.behind (o : EngOp) (fd : Int32) (sd : Side) : Prop := o.sqe.fd = fd ∧ o.side = sd

instance (o : EngOp) (fd : Int32) (sd : Side) : Decidable (o.behind fd sd) :=
  inferInstanceAs (Decidable (_ ∧ _))

/-- Gathering a side adds the ops behind it, and there is room for all of them. -/
theorem InStep.gather_spec {s : Parking κ ω} (h : InStep s) {fd : Int32} (hfd : 0 ≤ fd.toInt) (sd : Side)
    {ready : List Slot} (hnd : ready.Nodup)
    (hready : ∀ x ∈ ready, x ∈ s.ring.waiting ∧ ¬ (s.ring.opPool x).behind fd sd) :
    ∃ l, gather s.ring (s.st.head fd.toInt.toNat sd) ready = ready ++ l ∧ (ready ++ l).Nodup ∧
      ∀ x, x ∈ l ↔ x ∈ s.ring.waiting ∧ (s.ring.opPool x).behind fd sd := by
  obtain ⟨l, hl, hmem⟩ := h.lists fd.toInt.toNat sd
  have hin (x : Slot) : x ∈ l ↔ x ∈ s.ring.waiting ∧ (s.ring.opPool x).behind fd sd := by
    rw [hmem]
    unfold EngOp.behind
    rw [← Int32.toInt_inj]
    constructor
    · rintro ⟨hx, hf, hs⟩
      exact ⟨hx, by omega, hs⟩
    · rintro ⟨hx, hf, hs⟩
      exact ⟨hx, by omega, hs⟩
  have hboth : (ready ++ l).Nodup := by
    rw [List.nodup_append]
    refine ⟨hnd, threads_nodup hl, ?_⟩
    intro x hx y hy hxy
    subst hxy
    exact (hready x hx).2 ((hin x).mp hy).2
  have hroom : (ready ++ l).length ≤ s.ring.opPoolN := by
    apply h.lists_short _ hboth
    intro x hx
    rcases List.mem_append.mp hx with hx | hx
    · exact (hready x hx).1
    · exact ((hin x).mp hx).1
  refine ⟨l, ?_, hboth, hin⟩
  unfold gather
  rw [List.length_append] at hroom
  rw [walk_eq hl _ (by omega)]

/-- One side of an event. -/
theorem InStep.gather_if_spec {s : Parking κ ω} (h : InStep s) {fd : Int32} (hfd : 0 ≤ fd.toInt) (sd : Side)
    (p : Prop)
    [Decidable p] {ready : List Slot} (hnd : ready.Nodup)
    (hready : ∀ x ∈ ready, x ∈ s.ring.waiting ∧ ¬ (s.ring.opPool x).behind fd sd) :
    (if p then gather s.ring (s.st.head fd.toInt.toNat sd) ready
        else ready).Nodup ∧
      ∀ x, x ∈ (if p then gather s.ring (s.st.head fd.toInt.toNat sd) ready
          else ready) ↔
        x ∈ ready ∨ (x ∈ s.ring.waiting ∧ (s.ring.opPool x).behind fd sd ∧ p) := by
  split
  · next hp =>
    obtain ⟨l, hval, hboth, hin⟩ := h.gather_spec hfd sd hnd hready
    rw [hval]
    refine ⟨hboth, fun x => ?_⟩
    rw [List.mem_append, hin]
    simp [hp]
  · next hp => exact ⟨hnd, by simp [hp]⟩

/-- No op is parked on a descriptor the table cannot hold. -/
theorem InStep.slot_none {s : Parking κ ω} (h : InStep s) {zero : κ} {fd : Int32}
    (hslot : s.st.slot zero fd true = none) {x : Slot} (hx : x ∈ s.ring.waiting) :
    (s.ring.opPool x).sqe.fd ≠ fd := by
  intro hfd
  have hnonneg := h.fd x hx
  rw [hfd] at hnonneg
  unfold FdTable.slot at hslot
  rw [if_neg (by rw [Int32.not_lt, Int32.le_iff_toInt_le]; simpa using hnonneg)] at hslot
  split at hslot
  · cases hslot
  · rw [if_pos rfl] at hslot
    cases hslot

/-- The entry the slot function gives has the lists of the table. -/
theorem FdTable.slot_side {zero : κ} {st st' : FdTable κ} {fd : Int32} {grown : Bool}
    (hslot : st.slot zero fd grown = some st') (sd : Side) :
    (st'.fds fd.toInt.toNat).side sd = st.head fd.toInt.toNat sd := by
  have hspec := FdTable.slot_spec hslot
  rw [← hspec.head, FdTable.head, if_pos hspec.lt]

end SlipstreamIO.Engine
