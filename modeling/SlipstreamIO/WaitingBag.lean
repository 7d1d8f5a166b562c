import SlipstreamIO.ReadyBackends

/-! `waiting[]`: what each operation on the parked set does to it and to the pool, said once, and the
places the parked ops know. -/
namespace SlipstreamIO.Engine

open ThreadedList Runs IndexedBag

variable {κ ω A E : Type}

/-- Taking an op out of a side list writes `next` fields only. -/
theorem Vault.leaveSide_opPool (v : Vault) (h : Option Slot) (op x : Slot) :
    (v.leaveSide h op).1.opPool x =
      { v.opPool x with next := (v.leaveSide h op).1.next x } := by
  unfold Vault.leaveSide
  split
  · exact Vault.setNext_opPool _ _ _ _
  · rw [Vault.setNext_opPool, Vault.setNext_opPool]
  · rfl

theorem Vault.leaveSide_opPoolN (v : Vault) (h : Option Slot) (op : Slot) :
    (v.leaveSide h op).1.opPoolN = v.opPoolN := by
  unfold Vault.leaveSide
  split <;> rfl

namespace ReadyBackend
variable {b : ReadyBackend κ ω A E} {s s' : Parking κ ω} {op : Slot}

/-- Nothing but `next` fields changes in the pool, and `waiting[]` stays. -/
structure OnlyLinks (s s' : Parking κ ω) : Prop where
  waiting : s'.ring.waiting = s.ring.waiting
  opPoolN : s'.ring.opPoolN = s.ring.opPoolN
  opPool : ∀ x, s'.ring.opPool x = { s.ring.opPool x with next := s'.ring.next x }

theorem OnlyLinks.refl (s : Parking κ ω) : OnlyLinks s s := ⟨rfl, rfl, fun _ => rfl⟩

theorem arm_links {grown ok : Bool} {a : A} (harm : b.arm s op grown a = (s', ok)) :
    OnlyLinks s s' := by
  unfold arm at harm
  simp only at harm
  cases hslot : s.st.slot b.zero (s.ring.opPool op).sqe.fd grown with
  | none =>
    rw [hslot] at harm
    cases harm
    exact OnlyLinks.refl s
  | some st =>
    rw [hslot] at harm
    simp only at harm
    generalize b.register (st.fds (s.ring.opPool op).fdIndex) (s.ring.opPool op) a s.env = r at harm
    obtain ⟨res, reg, env⟩ := r
    cases res <;> cases harm <;> exact ⟨rfl, rfl, fun x => Vault.setNext_opPool _ _ _ _⟩

theorem disarm_links (b : ReadyBackend κ ω A E) (s : Parking κ ω) (op : Slot) :
    OnlyLinks s (b.disarm s op) := by
  unfold disarm
  dsimp only
  split
  · exact OnlyLinks.refl s
  · exact ⟨rfl, Vault.leaveSide_opPoolN _ _ _, Vault.leaveSide_opPool _ _ _⟩

/-- A park that succeeds puts the op at the end of `waiting[]`, and the op knows. -/
theorem park_spec {grown ok : Bool} {a : A} (hpark : b.park s op grown a = (s', ok)) :
    s'.ring.opPoolN = s.ring.opPoolN ∧
      s'.ring.waiting = s.ring.waiting ++ (if ok then [op] else []) ∧
      (ok = true → s.ring.waiting.length < s.ring.opPoolN) ∧
      ∀ x, s'.ring.opPool x = { s.ring.opPool x with
        next := s'.ring.next x
        waitSlot := if ok = true ∧ x = op then s.ring.waiting.length
          else (s.ring.opPool x).waitSlot } := by
  unfold park at hpark
  split at hpark
  · cases hpark
    exact ⟨rfl, by simp, by simp, fun x => rfl⟩
  next hroom =>
  cases harm : b.arm s op grown a with
  | mk s₁ armed =>
    rw [harm] at hpark
    obtain ⟨hw, hn, hlinks⟩ := arm_links harm
    cases armed with
    | false =>
      cases hpark
      refine ⟨hn, by simpa using hw, by simp, fun x => ?_⟩
      rw [hlinks x]
      simp
    | true =>
      cases hpark
      refine ⟨hn, ?_, fun _ => by omega, fun x => ?_⟩
      · simp [hw]
      · simp only [Ring.inVault_toVault, Vault.next, Vault.setOp_opPool, true_and]
        by_cases hx : x = op
        · subst hx
          rw [if_pos rfl, if_pos rfl, hlinks, hw]
        · rw [if_neg hx, if_neg hx]
          exact hlinks x

/-- An unpark of an op that is not parked does nothing; any other moves the last op to its place. -/
theorem unpark_spec (b : ReadyBackend κ ω A E) (s : Parking κ ω) (op : Slot) :
    (s.ring.waiting[(s.ring.opPool op).waitSlot]? ≠ some op ∧ b.unpark s op = s) ∨
    ∃ last, s.ring.waiting[(s.ring.opPool op).waitSlot]? = some op ∧
      s.ring.waiting.getLast? = some last ∧
      b.unpark s op = b.disarm { s with
        ring := leaveWaiting s.ring (s.ring.opPool op).waitSlot } op ∧
      (b.unpark s op).ring.opPoolN = s.ring.opPoolN ∧
      (b.unpark s op).ring.waiting = swapRemove s.ring.waiting (s.ring.opPool op).waitSlot ∧
      ∀ x, (b.unpark s op).ring.opPool x = { s.ring.opPool x with
        next := (b.unpark s op).ring.next x
        waitSlot := if x = last then (s.ring.opPool op).waitSlot
          else (s.ring.opPool x).waitSlot } := by
  by_cases hi : s.ring.waiting[(s.ring.opPool op).waitSlot]? = some op
  swap
  · -- the identity check: an op that is not parked cannot answer it
    left
    refine ⟨hi, ?_⟩
    unfold unpark
    simp only [ne_eq, if_pos hi]
  right
  obtain ⟨last, hlast⟩ : ∃ last, s.ring.waiting.getLast? = some last :=
    ⟨_, List.getLast?_eq_some_getLast (List.ne_nil_of_mem (List.mem_of_getElem? hi))⟩
  have hval : b.unpark s op = b.disarm { s with
      ring := leaveWaiting s.ring (s.ring.opPool op).waitSlot } op := by
    unfold unpark
    rw [if_neg (by simpa using hi)]
  have hleft : leaveWaiting s.ring (s.ring.opPool op).waitSlot =
      { s.ring.inVault (·.setOp last { s.ring.opPool last with
          waitSlot := (s.ring.opPool op).waitSlot }) with
        waiting := swapRemove s.ring.waiting (s.ring.opPool op).waitSlot } := by
    unfold leaveWaiting
    rw [hlast]
  obtain ⟨hw, hn, hlinks⟩ := disarm_links b { s with
    ring := leaveWaiting s.ring (s.ring.opPool op).waitSlot } op
  rw [← hval] at hw hn hlinks
  refine ⟨last, hi, hlast, hval, ?_, ?_, fun x => ?_⟩
  · rw [hn]
    dsimp only
    rw [hleft]
    rfl
  · rw [hw]
    dsimp only
    rw [hleft]
  · rw [hlinks x]
    dsimp only
    rw [hleft]
    simp only [Ring.inVault_toVault, Vault.setOp_opPool]
    by_cases hx : x = last
    · subst hx
      rw [if_pos rfl, if_pos rfl]
    · rw [if_neg hx, if_neg hx]

end ReadyBackend

/-- The parked ops know their places, and there are no more of them than the pool has. -/
structure Bagged (s : Parking κ ω) : Prop where
  indexed : Indexed s.ring.waiting (fun x => (s.ring.opPool x).waitSlot)
  bound : s.ring.waiting.length ≤ s.ring.opPoolN

namespace Bagged
variable {b : ReadyBackend κ ω A E} {s s' : Parking κ ω} {op : Slot}

/-- What is not a place of a parked op is nothing to it. -/
theorem congr (h : Bagged s) (hw : s'.ring.waiting = s.ring.waiting)
    (hn : s'.ring.opPoolN = s.ring.opPoolN)
    (hop : ∀ x ∈ s.ring.waiting, (s'.ring.opPool x).waitSlot = (s.ring.opPool x).waitSlot) :
    Bagged s' := by
  constructor
  · rw [hw]
    intro i x hi
    exact (hop x (List.mem_of_getElem? hi)).trans (h.indexed i x hi)
  · rw [hw, hn]
    exact h.bound

theorem setOp (h : Bagged s) (hop : op ∉ s.ring.waiting) (o : EngOp) :
    Bagged { s with ring := s.ring.inVault (·.setOp op o) } := by
  refine h.congr rfl rfl (fun x hx => ?_)
  have hne : x ≠ op := by
    rintro rfl
    exact hop hx
  rw [Ring.inVault_toVault, Vault.setOp_opPool, if_neg hne]

theorem park {grown ok : Bool} {a : A} (h : Bagged s) (hop : op ∉ s.ring.waiting)
    (hpark : b.park s op grown a = (s', ok)) :
    Bagged s' ∧ ∀ x, x ∈ s'.ring.waiting ↔ x ∈ s.ring.waiting ∨ (ok = true ∧ x = op) := by
  obtain ⟨hn, hw, hroom, hpool⟩ := ReadyBackend.park_spec hpark
  cases ok with
  | false =>
    have hw : s'.ring.waiting = s.ring.waiting := by simpa using hw
    refine ⟨h.congr hw hn (fun x _ => ?_), by simp [hw]⟩
    rw [hpool x]
    simp
  | true =>
    have hw : s'.ring.waiting = s.ring.waiting ++ [op] := by simpa using hw
    refine ⟨⟨?_, ?_⟩, by simp [hw]⟩
    · rw [hw]
      apply h.indexed.push
      · rw [hpool op]
        simp
      · intro y hy
        have hne : y ≠ op := by
          rintro rfl
          exact hop hy
        rw [hpool y]
        simp [hne]
    · have := hroom rfl
      rw [hw, hn, List.length_append, List.length_singleton]
      omega

theorem unpark (h : Bagged s) (op : Slot) : Bagged (b.unpark s op) ∧
    ∀ x, x ∈ (b.unpark s op).ring.waiting ↔ x ∈ s.ring.waiting ∧ x ≠ op := by
  rcases ReadyBackend.unpark_spec b s op with ⟨hi, hval⟩ | ⟨last, hi, hlast, -, hn, hw, hpool⟩
  · rw [hval]
    refine ⟨h, fun x => ⟨fun hx => ⟨hx, ?_⟩, And.left⟩⟩
    rintro rfl
    exact hi (h.indexed.mem_iff.mp hx)
  · refine ⟨⟨?_, ?_⟩, fun x => ?_⟩
    · rw [hw]
      apply h.indexed.swapRemove hlast
      · rw [hpool last]
        simp
      · intro y hy
        rw [hpool y]
        simp [hy]
    · have hlen := length_swapRemove hi
      have hbound := h.bound
      rw [hw, hn]
      omega
    · rw [hw]
      exact mem_swapRemove h.indexed hi

theorem retry (h : Bagged s) (op : Slot) (t : Retry A) : Bagged (b.retry s op t).1 := by
  obtain ⟨h₁, hmem⟩ := h.unpark (b := b) op
  unfold ReadyBackend.retry
  have hout : op ∉ (b.unpark s op).ring.waiting := fun hm => ((hmem op).mp hm).2 rfl
  generalize b.unpark s op = s₁ at *
  cases t.verdict with
  | ran res => exact h₁
  | file => exact h₁
  | park events =>
    have h₂ := h₁.setOp hout { s₁.ring.opPool op with waitEvents := events }
    simp only
    split
    · next hp => exact (h₂.park hout hp).1
    · next hp => exact (h₂.park hout hp).1

/-- What every retry of a ready op keeps, the loop over them keeps. -/
theorem finishReady_of_retry {P : Parking κ ω → Prop} {ready : List Slot}
    (hretry : ∀ {s}, P s → ∀ op ∈ ready, ∀ t, P (b.retry s op t).1) {s : Parking κ ω} (h : P s)
    (retries : List (Retry A)) (max : ℕ) (out : List (Slot × Int32)) :
    P (b.slipPosixFinishReady s ready retries max out).1 := by
  induction ready generalizing s retries out with
  | nil =>
    unfold ReadyBackend.slipPosixFinishReady
    exact h
  | cons op ready ih =>
    cases retries with
    | nil =>
      unfold ReadyBackend.slipPosixFinishReady
      exact h
    | cons t retries =>
      have hturn := hretry h op List.mem_cons_self t
      have ih := @ih (fun h op hop => hretry h op (List.mem_cons_of_mem _ hop))
      unfold ReadyBackend.slipPosixFinishReady
      split
      · split
        · next he =>
          rw [he] at hturn
          exact ih hturn _ _
        · next he =>
          rw [he] at hturn
          exact ih hturn _ _
      · exact h

theorem finishReady (h : Bagged s) (ready : List Slot) (retries : List (Retry A)) (max : ℕ)
    (out : List (Slot × Int32)) : Bagged (b.slipPosixFinishReady s ready retries max out).1 :=
  finishReady_of_retry (fun h op _ => h.retry op) h retries max out

end Bagged

/-- Clearing a slot of the fixed table is nothing to the parked set. -/
theorem slipFixedClear_frame (r : Ring) (slot : ℕ) : (r.slipFixedClear slot).1.opPool = r.opPool ∧
    (r.slipFixedClear slot).1.opPoolN = r.opPoolN ∧
      (r.slipFixedClear slot).1.waiting = r.waiting := by
  unfold Ring.slipFixedClear
  split
  · exact ⟨rfl, rfl, rfl⟩
  · split
    · exact ⟨rfl, rfl, rfl⟩
    · split <;> exact ⟨rfl, rfl, rfl⟩

/-- A CLOSE is nothing to the pool and to `waiting[]`. -/
theorem ReadyBackend.close_frame (b : ReadyBackend κ ω A E) (s : Parking κ ω) (sqe : Sqe)
    (grown : Bool) : (b.close s sqe grown).ring.waiting = s.ring.waiting ∧
      (b.close s sqe grown).ring.opPoolN = s.ring.opPoolN ∧
      (b.close s sqe grown).ring.opPool = s.ring.opPool := by
  have hfd (s : Parking κ ω) (fd : Int32) : (b.closeFd s fd grown).ring = s.ring := by
    have hforget : (b.forget s fd grown).ring = s.ring := by
      unfold ReadyBackend.forget
      split <;> rfl
    unfold ReadyBackend.closeFd
    dsimp only
    split <;> exact hforget
  unfold ReadyBackend.close
  split
  · dsimp only
    split
    · exact ⟨rfl, rfl, rfl⟩
    · obtain ⟨hpool, hn, hw⟩ := slipFixedClear_frame s.ring (sqe.fileIndex - 1).toNat
      rw [hfd]
      exact ⟨hw, hn, hpool⟩
  · rw [hfd]
    exact ⟨rfl, rfl, rfl⟩

theorem Bagged.close {b : ReadyBackend κ ω A E} {s : Parking κ ω} (h : Bagged s) (sqe : Sqe)
    (grown : Bool) : Bagged (b.close s sqe grown) := by
  obtain ⟨hw, hn, hpool⟩ := b.close_frame s sqe grown
  refine h.congr hw hn (fun x _ => ?_)
  rw [hpool]

end SlipstreamIO.Engine
