import SlipstreamIO.TableRuns

/-! The registrations behind the table. What an arm, a disarm and a close do to them is said once, for
the entry of their own descriptor; what a backend has to keep for its parked ops follows for whole
runs from one condition on each of its functions. -/
namespace SlipstreamIO.Engine

open ThreadedList Runs IndexedBag

variable {κ ω A E : Type}

/-- The entry of a descriptor; past the end of the table it is a zeroed one. -/
def FdTable.entry (zero : κ) (st : FdTable κ) (f : ℕ) : FdEntry κ :=
  if f < st.n then st.fds f else { reg := zero }

namespace FdTable
variable {zero : κ} {st st' : FdTable κ} {fd : Int32} {f g : ℕ} {e : FdEntry κ}

theorem entry_side (zero : κ) (sd : Side) : (st.entry zero f).side sd = st.head f sd := by
  unfold entry head
  split
  · rfl
  · cases sd <;> rfl

/-- Growing the table changes no entry. -/
theorem entry_reaches (h : Reaches zero st st' fd) (hn : st.n ≤ st'.n) (g : ℕ) :
    st'.entry zero g = st.entry zero g := by
  unfold entry
  by_cases hg : g < st.n
  · rw [if_pos hg, if_pos (by omega), h.old g hg]
  · rw [if_neg hg]
    split
    · next hg' => exact h.fresh g (by omega) hg'
    · rfl

theorem slot_grows {grown : Bool} (h : st.slot zero fd grown = some st') : st.n ≤ st'.n := by
  unfold slot at h
  split at h
  · cases h
  split at h
  · cases h
    exact le_rfl
  split at h
  · cases h
    show st.n ≤ growTo fd.toInt.toNat 32 (if st.n ≠ 0 then st.n else 64)
    have hge := growTo_ge fd.toInt.toNat 32 (if st.n ≠ 0 then st.n else 64)
    split at hge
    · rwa [if_pos ‹_›]
    · omega
  · cases h

theorem entry_slot {grown : Bool} (h : st.slot zero fd grown = some st') (g : ℕ) :
    st'.entry zero g = st.entry zero g :=
  entry_reaches (slot_spec h) (slot_grows h) g

theorem entry_set (hf : f < st.n) :
    (st.set f e).entry zero g = if g = f then e else st.entry zero g := by
  unfold entry set
  by_cases hg : g = f
  · subst hg
    simp [hf]
  · simp [hg]

theorem entry_of_lt (zero : κ) (hf : f < st.n) : st.entry zero f = st.fds f := if_pos hf

end FdTable

theorem FdEntry.reg_setSide (e : FdEntry κ) (sd : Side) (h : Option Slot) :
    (e.setSide sd h).reg = e.reg := by
  cases sd <;> rfl

namespace ReadyBackend

/-- The registration the backend keeps for a descriptor. -/
def regOf (b : ReadyBackend κ ω A E) (s : Parking κ ω) (f : ℕ) : κ := (s.st.entry b.zero f).reg

variable {b : ReadyBackend κ ω A E} {s s' : Parking κ ω} {op : Slot}

/-- An arm registers with the entry it finds, or stops before it found one. -/
theorem arm_registers {grown ok : Bool} {a : A} (harm : b.arm s op grown a = (s', ok)) :
    (s' = s ∧ ok = false) ∨
    (b.register (s.st.entry b.zero (s.ring.opPool op).fdIndex) (s.ring.opPool op) a s.env =
        (ok, b.regOf s' (s.ring.opPool op).fdIndex, s'.env) ∧
      ∀ g, g ≠ (s.ring.opPool op).fdIndex → b.regOf s' g = b.regOf s g) := by
  unfold arm at harm
  simp only at harm
  cases hslot : s.st.slot b.zero (s.ring.opPool op).sqe.fd grown with
  | none =>
    rw [hslot] at harm
    cases harm
    exact Or.inl ⟨rfl, rfl⟩
  | some st =>
    rw [hslot] at harm
    simp only at harm
    have hlt : (s.ring.opPool op).fdIndex < st.n := (FdTable.slot_spec hslot).lt
    rw [← FdTable.entry_of_lt b.zero hlt, FdTable.entry_slot hslot] at harm
    right
    generalize hreg : b.register (s.st.entry b.zero (s.ring.opPool op).fdIndex)
      (s.ring.opPool op) a s.env = r at *
    obtain ⟨res, reg, env⟩ := r
    constructor
    · cases res <;> cases harm <;> simp [regOf, FdTable.entry_set hlt, FdEntry.reg_setSide]
    · intro g hg
      cases res <;> cases harm <;> unfold regOf <;>
        rw [FdTable.entry_set hlt, if_neg hg, FdTable.entry_slot hslot]

theorem park_registers {grown ok : Bool} {a : A} (hpark : b.park s op grown a = (s', ok)) :
    (s'.st = s.st ∧ s'.env = s.env ∧ ok = false) ∨
    (b.register (s.st.entry b.zero (s.ring.opPool op).fdIndex) (s.ring.opPool op) a s.env =
        (ok, b.regOf s' (s.ring.opPool op).fdIndex, s'.env) ∧
      ∀ g, g ≠ (s.ring.opPool op).fdIndex → b.regOf s' g = b.regOf s g) := by
  unfold park at hpark
  split at hpark
  · cases hpark
    exact Or.inl ⟨rfl, rfl, rfl⟩
  cases harm : b.arm s op grown a with
  | mk s₁ armed =>
    rw [harm] at hpark
    rcases arm_registers harm with ⟨rfl, rfl⟩ | hreg
    · cases hpark
      exact Or.inl ⟨rfl, rfl, rfl⟩
    · cases armed <;> cases hpark <;> exact Or.inr hreg

/-- What a park leaves of every op: its descriptor and its events. -/
theorem park_op {grown ok : Bool} {a : A} (hpark : b.park s op grown a = (s', ok)) (x : Slot) :
    (s'.ring.opPool x).sqe = (s.ring.opPool x).sqe ∧
      (s'.ring.opPool x).waitEvents = (s.ring.opPool x).waitEvents := by
  obtain ⟨-, -, -, hpool⟩ := park_spec hpark
  rw [hpool x]
  exact ⟨rfl, rfl⟩

theorem leaveWaiting_op (r : Ring) (i : ℕ) (x : Slot) :
    ((leaveWaiting r i).opPool x).sqe = (r.opPool x).sqe ∧
      ((leaveWaiting r i).opPool x).waitEvents = (r.opPool x).waitEvents := by
  unfold leaveWaiting
  cases r.waiting.getLast? with
  | none => exact ⟨rfl, rfl⟩
  | some last =>
    simp only [Ring.inVault_toVault, Vault.setOp_opPool]
    split
    · next he =>
      rw [he]
      exact ⟨rfl, rfl⟩
    · exact ⟨rfl, rfl⟩

/-- What an unpark leaves of every op: its descriptor and its events. -/
theorem unpark_op (b : ReadyBackend κ ω A E) (s : Parking κ ω) (op x : Slot) :
    ((b.unpark s op).ring.opPool x).sqe = (s.ring.opPool x).sqe ∧
      ((b.unpark s op).ring.opPool x).waitEvents = (s.ring.opPool x).waitEvents := by
  rcases unpark_spec b s op with ⟨-, hval⟩ | ⟨last, -, -, -, -, -, hpool⟩
  · rw [hval]
    exact ⟨rfl, rfl⟩
  · rw [hpool x]
    exact ⟨rfl, rfl⟩

/-- An unpark takes back what `quit` says, and only for the descriptor of its op. -/
theorem unpark_registers (b : ReadyBackend κ ω A E) (s : Parking κ ω) (op : Slot) :
    (b.unpark s op).env = s.env ∧
    (∀ g, g ≠ (s.ring.opPool op).fdIndex → b.regOf (b.unpark s op) g = b.regOf s g) ∧
    (b.regOf (b.unpark s op) (s.ring.opPool op).fdIndex = b.regOf s (s.ring.opPool op).fdIndex ∨
      ∃ e : FdEntry κ, e.reg = b.regOf s (s.ring.opPool op).fdIndex ∧
        (∀ sd, e.side sd = (b.unpark s op).st.head (s.ring.opPool op).fdIndex sd) ∧
        b.regOf (b.unpark s op) (s.ring.opPool op).fdIndex = b.quit e (s.ring.opPool op).side) := by
  unfold unpark
  dsimp only
  split
  · exact ⟨rfl, fun _ _ => rfl, Or.inl rfl⟩
  set s₁ : Parking κ ω := { s with ring := leaveWaiting s.ring (s.ring.opPool op).waitSlot } with hs₁
  obtain ⟨hsqe, hwait⟩ := leaveWaiting_op s.ring (s.ring.opPool op).waitSlot op
  have hindex : (s₁.ring.opPool op).fdIndex = (s.ring.opPool op).fdIndex := by
    unfold EngOp.fdIndex
    rw [← hsqe]
  have hside : (s₁.ring.opPool op).side = (s.ring.opPool op).side := by
    unfold EngOp.side
    rw [← hwait]
  unfold disarm
  dsimp only
  rw [hindex, hside]
  cases hslot : s₁.st.slot b.zero (s₁.ring.opPool op).sqe.fd true with
  | none => exact ⟨rfl, fun _ _ => rfl, Or.inl rfl⟩
  | some st =>
    have hlt : (s.ring.opPool op).fdIndex < st.n := by
      rw [← hindex]
      exact (FdTable.slot_spec hslot).lt
    have hentry : ∀ g, st.entry b.zero g = s.st.entry b.zero g := FdTable.entry_slot hslot
    set left := (s₁.ring.leaveSide
      ((st.fds (s.ring.opPool op).fdIndex).side (s.ring.opPool op).side) op).2
    refine ⟨rfl, ?_, Or.inr ⟨(st.fds (s.ring.opPool op).fdIndex).setSide (s.ring.opPool op).side left,
      ?_, ?_, ?_⟩⟩
    · intro g hg
      unfold regOf
      rw [FdTable.entry_set hlt, if_neg hg, hentry]
    · rw [FdEntry.reg_setSide, regOf, ← hentry, FdTable.entry_of_lt b.zero hlt]
    · intro sd
      rw [FdTable.head_set hlt, if_pos rfl]
      exact (FdEntry.side_with_reg _ _ sd).symm
    · unfold regOf
      rw [FdTable.entry_set hlt, if_pos rfl]

theorem forget_registers (b : ReadyBackend κ ω A E) (s : Parking κ ω) (fd : Int32) (grown : Bool) :
    (b.forget s fd grown).env = s.env ∧ (b.forget s fd grown).ring = s.ring ∧
    (∀ g, g ≠ fd.toInt.toNat → b.regOf (b.forget s fd grown) g = b.regOf s g) ∧
    (b.regOf (b.forget s fd grown) fd.toInt.toNat = b.regOf s fd.toInt.toNat ∨
      b.regOf (b.forget s fd grown) fd.toInt.toNat = b.forgotten (b.regOf s fd.toInt.toNat)) := by
  unfold forget
  split
  · exact ⟨rfl, rfl, fun _ _ => rfl, Or.inl rfl⟩
  next st hslot =>
  have hlt := (FdTable.slot_spec hslot).lt
  refine ⟨rfl, rfl, fun g hg => ?_, Or.inr ?_⟩
  · unfold regOf
    rw [FdTable.entry_set hlt, if_neg hg, FdTable.entry_slot hslot]
  · unfold regOf
    rw [FdTable.entry_set hlt, if_pos rfl, ← FdTable.entry_slot hslot, FdTable.entry_of_lt b.zero hlt]

end ReadyBackend

end SlipstreamIO.Engine
