import SlipstreamIO.TableRegs

/-! One rule for what a backend keeps for its parked ops: conditions on its register, quit and close
functions, each about one entry, carry over to every run. -/
namespace SlipstreamIO.Engine

open ThreadedList Runs IndexedBag

variable {κ ω A E : Type}

/-- What a backend keeps: `own` between a registration and the events of an op behind it, `busy` of a
descriptor with ops parked on it, `every` of all descriptors. -/
structure Registration (κ ω : Type) where
  own : κ → UInt16 → Prop
  busy : ℕ → κ → ω → Prop
  every : ℕ → κ → ω → Prop

/-- The functions of a backend keep it, when its arms meet `Q`. -/
structure ReadyBackend.Keeps (b : ReadyBackend κ ω A E) (R : Registration κ ω)
    (Q : FdEntry κ → EngOp → A → Prop) : Prop where
  register : ∀ {e o a w ok r w'}, Q e o a → b.register e o a w = (ok, r, w') →
    (∀ sd, e.side sd ≠ none → ∃ we, sideOf we = sd ∧ R.own e.reg we) →
    (e.idle = false → R.busy o.fdIndex e.reg w) → R.every o.fdIndex e.reg w →
    (ok = true → R.own r o.waitEvents) ∧ (ok = true ∨ e.idle = false → R.busy o.fdIndex r w') ∧
      R.every o.fdIndex r w' ∧ ∀ we, e.side (sideOf we) ≠ none → R.own e.reg we → R.own r we
  others : ∀ {e o a w ok r w'}, b.register e o a w = (ok, r, w') → ∀ g reg, g ≠ o.fdIndex →
    (R.busy g reg w → R.busy g reg w') ∧ (R.every g reg w → R.every g reg w')
  quit : ∀ e sd f w, (∀ we, e.side (sideOf we) ≠ none → R.own e.reg we → R.own (b.quit e sd) we) ∧
    (R.busy f e.reg w → R.busy f (b.quit e sd) w) ∧ (R.every f e.reg w → R.every f (b.quit e sd) w)
  forgotten : ∀ f r w, R.every f r w → R.every f (b.forgotten r) w
  closed : ∀ f g r w, (g ≠ f → R.busy g r w → R.busy g r (b.closed w f)) ∧
    (R.every g r w → R.every g r (b.closed w f))

/-- A state that keeps it. -/
structure Kept (b : ReadyBackend κ ω A E) (R : Registration κ ω) (s : Parking κ ω) : Prop where
  inStep : InStep s
  own : ∀ x ∈ s.ring.waiting,
    R.own (b.regOf s (s.ring.opPool x).fdIndex) (s.ring.opPool x).waitEvents
  busy : ∀ x ∈ s.ring.waiting,
    R.busy (s.ring.opPool x).fdIndex (b.regOf s (s.ring.opPool x).fdIndex) s.env
  every : ∀ f, R.every f (b.regOf s f) s.env

namespace ReadyBackend
variable (b : ReadyBackend κ ω A E) (Q : FdEntry κ → EngOp → A → Prop)

/-- The arm of a park meets `Q`. -/
def ParkMeets (s : Parking κ ω) (op : Slot) (a : A) : Prop :=
  Q (s.st.entry b.zero (s.ring.opPool op).fdIndex) (s.ring.opPool op) a

/-- The park of a retry meets it. -/
def RetryMeets (s : Parking κ ω) (op : Slot) (t : Retry A) : Prop :=
  match t.verdict with
  | .park events => b.ParkMeets Q
      { b.unpark s op with ring := (b.unpark s op).ring.setWaitEvents op events } op t.answers
  | _ => True

def RetriesMeet : Parking κ ω → List Slot → List (Retry A) → ℕ → List (Slot × Int32) → Prop
  | s, op :: ready, t :: retries, max, out =>
    out.length < max → b.RetryMeets Q s op t ∧
      RetriesMeet (b.retry s op t).1 ready retries max (out ++ (b.retry s op t).2.toList)
  | _, _, _, _, _ => True

/-- The arms of a step meet `Q`, and what the system reports to it meets `C`. -/
def Meets (C : Parking κ ω → E → Prop) (s : Parking κ ω) : ParkLabel A E → Prop
  | .park op events _ a => b.ParkMeets Q { s with ring := s.ring.setWaitEvents op events } op a
  | .pass events retries max =>
    C s events ∧ b.RetriesMeet Q (b.collect s events).1 (b.collect s events).2 retries max []
  | .hear events => C s events
  | _ => True

section Decidable
variable [∀ e o a, Decidable (Q e o a)]

instance (s : Parking κ ω) (op : Slot) (a : A) : Decidable (b.ParkMeets Q s op a) :=
  inferInstanceAs (Decidable (Q _ _ a))

instance (s : Parking κ ω) (op : Slot) : ∀ t : Retry A, Decidable (b.RetryMeets Q s op t)
  | ⟨.park _, _, a⟩ => inferInstanceAs (Decidable (b.ParkMeets Q _ op a))
  | ⟨.ran _, _, _⟩ | ⟨.file, _, _⟩ => isTrue trivial

def retriesDecidable : ∀ (s : Parking κ ω) (ready : List Slot) (retries : List (Retry A)) (max : ℕ)
    (out : List (Slot × Int32)), Decidable (b.RetriesMeet Q s ready retries max out)
  | s, op :: ready, t :: retries, max, out =>
    have := retriesDecidable (b.retry s op t).1 ready retries max (out ++ (b.retry s op t).2.toList)
    inferInstanceAs (Decidable (out.length < max → b.RetryMeets Q s op t ∧ b.RetriesMeet Q _ _ _ _ _))
  | _, [], _, _, _ | _, _ :: _, [], _, _ => isTrue trivial

instance (s : Parking κ ω) (ready : List Slot) (retries : List (Retry A)) (max : ℕ)
    (out : List (Slot × Int32)) : Decidable (b.RetriesMeet Q s ready retries max out) :=
  retriesDecidable b Q s ready retries max out

instance (C : Parking κ ω → E → Prop) [∀ s e, Decidable (C s e)] (s : Parking κ ω) :
    ∀ l : ParkLabel A E, Decidable (b.Meets Q C s l)
  | .park op _ _ a => inferInstanceAs (Decidable (b.ParkMeets Q _ op a))
  | .pass events _ _ => inferInstanceAs (Decidable (C s events ∧ b.RetriesMeet Q _ _ _ _ _))
  | .hear events => inferInstanceAs (Decidable (C s events))
  | .other _ _ | .fixed _ | .unpark _ | .close _ _ | .gone _ => isTrue trivial

end Decidable

end ReadyBackend

/-- Where no arm is asked for anything, only the reports are left. -/
theorem ReadyBackend.meets_of_forall {b : ReadyBackend κ ω A E} {Q : FdEntry κ → EngOp → A → Prop}
    {C : Parking κ ω → E → Prop} (hQ : ∀ e o a, Q e o a) {s : Parking κ ω} {l : ParkLabel A E}
    (hC : match l with | .pass e _ _ | .hear e => C s e | _ => True) : b.Meets Q C s l := by
  have hretries : ∀ (ready : List Slot) (s : Parking κ ω) (retries : List (Retry A)) (max : ℕ)
      (out : List (Slot × Int32)), b.RetriesMeet Q s ready retries max out := by
    intro ready
    induction ready with
    | nil =>
      intro s retries max out
      cases retries <;> exact trivial
    | cons op ready ih =>
      intro s retries max out
      cases retries with
      | nil => exact trivial
      | cons t retries =>
        intro _
        refine ⟨?_, ih _ _ _ _⟩
        unfold ReadyBackend.RetryMeets
        cases t.verdict with
        | park events => exact hQ _ _ _
        | ran res => trivial
        | file => trivial
  cases l with
  | park op events grown a => exact hQ _ _ _
  | pass events retries max => exact ⟨hC, hretries _ _ _ _ _⟩
  | hear events => exact hC
  | other op o => trivial
  | fixed table => trivial
  | unpark op => trivial
  | close sqe grown => trivial
  | gone fd => trivial

/-- Both sides of a descriptor's index: its number, when that is not negative. -/
theorem fdIndex_ne {o : EngOp} {fd : Int32} (ho : 0 ≤ o.sqe.fd.toInt) (hfd : 0 ≤ fd.toInt)
    (hne : o.sqe.fd ≠ fd) : o.fdIndex ≠ fd.toInt.toNat := by
  intro he
  apply hne
  apply Int32.toInt_inj.mp
  unfold EngOp.fdIndex at he
  omega

/-- An op that is parked stands behind its side. -/
theorem InStep.head_ne_none {s : Parking κ ω} (h : InStep s) {x : Slot} (hx : x ∈ s.ring.waiting) :
    s.st.head (s.ring.opPool x).fdIndex (s.ring.opPool x).side ≠ none := by
  obtain ⟨l, hl, hmem⟩ := h.lists (s.ring.opPool x).fdIndex (s.ring.opPool x).side
  have hindex : (s.ring.opPool x).sqe.fd.toInt = ((s.ring.opPool x).fdIndex : ℤ) := by
    have hfd := h.fd x hx
    unfold EngOp.fdIndex
    omega
  have hin : x ∈ l := (hmem x).mpr ⟨hx, hindex, rfl⟩
  cases l with
  | nil => cases hin
  | cons y l =>
    rw [hl.1]
    simp

theorem FdEntry.not_idle {e : FdEntry κ} {sd : Side} (h : e.side sd ≠ none) : e.idle = false := by
  unfold FdEntry.idle
  cases sd <;> simp_all [FdEntry.side]

theorem FdEntry.side_of_not_idle {e : FdEntry κ} (h : e.idle = false) : ∃ sd, e.side sd ≠ none := by
  by_contra hnone
  push Not at hnone
  have hin := hnone .input
  have hout := hnone .output
  unfold FdEntry.idle at h
  simp only [FdEntry.side] at hin hout
  simp [hin, hout] at h

namespace Kept
variable {b : ReadyBackend κ ω A E} {R : Registration κ ω} {Q : FdEntry κ → EngOp → A → Prop}
  {s s' : Parking κ ω} {op : Slot}

/-- A state whose parked ops, registrations and surroundings are as before. -/
theorem congr (h : Kept b R s) (hin : InStep s') (hw : ∀ x ∈ s'.ring.waiting, x ∈ s.ring.waiting ∧
      (s'.ring.opPool x).sqe = (s.ring.opPool x).sqe ∧
      (s'.ring.opPool x).waitEvents = (s.ring.opPool x).waitEvents)
    (hreg : ∀ f, b.regOf s' f = b.regOf s f) (henv : s'.env = s.env) : Kept b R s' := by
  have hindex : ∀ x ∈ s'.ring.waiting, (s'.ring.opPool x).fdIndex = (s.ring.opPool x).fdIndex := by
    intro x hx
    unfold EngOp.fdIndex
    rw [(hw x hx).2.1]
  refine ⟨hin, fun x hx => ?_, fun x hx => ?_, fun f => ?_⟩
  · rw [hindex x hx, hreg, (hw x hx).2.2]
    exact h.own x (hw x hx).1
  · rw [hindex x hx, hreg, henv]
    exact h.busy x (hw x hx).1
  · rw [hreg, henv]
    exact h.every f

/-- A pass that only collects needs a word about the registrations it changed. -/
theorem of_collects (h : Kept b R s) (hc : CollectsOnly s s')
    (hown : ∀ x ∈ s.ring.waiting,
      R.own (b.regOf s' (s.ring.opPool x).fdIndex) (s.ring.opPool x).waitEvents)
    (hbusy : ∀ x ∈ s.ring.waiting,
      R.busy (s.ring.opPool x).fdIndex (b.regOf s' (s.ring.opPool x).fdIndex) s'.env)
    (hevery : ∀ f, R.every f (b.regOf s' f) s'.env) : Kept b R s' := by
  have hindex : ∀ x, (s'.ring.opPool x).fdIndex = (s.ring.opPool x).fdIndex := by
    intro x
    unfold EngOp.fdIndex
    rw [(hc.opPool x).1.fd]
  refine ⟨h.inStep.collects hc, fun x hx => ?_, fun x hx => ?_, hevery⟩
  · rw [hc.waiting] at hx
    rw [hindex, (hc.opPool x).1.waitEvents]
    exact hown x hx
  · rw [hc.waiting] at hx
    rw [hindex]
    exact hbusy x hx

theorem setOp (h : Kept b R s) (hop : op ∉ s.ring.waiting) (o : EngOp) :
    Kept b R { s with ring := s.ring.inVault (·.setOp op o) } := by
  refine h.congr (h.inStep.setOp hop o) (fun x hx => ?_) (fun _ => rfl) rfl
  have hne : x ≠ op := by
    rintro rfl
    exact hop hx
  rw [Ring.inVault_toVault, Vault.setOp_opPool, if_neg hne]
  exact ⟨hx, rfl, rfl⟩

theorem park {grown ok : Bool} {a : A} (h : Kept b R s) (hb : b.Keeps R Q)
    (hop : op ∉ s.ring.waiting) (hQ : b.ParkMeets Q s op a)
    (hpark : b.park s op grown a = (s', ok)) : Kept b R s' := by
  have hin := h.inStep.park hop hpark
  have hmem := (h.inStep.toBagged.park hop hpark).2
  have hsame := ReadyBackend.park_op hpark
  rcases ReadyBackend.park_registers hpark with ⟨hst, henv, rfl⟩ | ⟨hreg, hother⟩
  · refine h.congr hin (fun x hx => ?_) (fun f => ?_) henv
    · rw [hmem] at hx
      exact ⟨by simpa using hx, hsame x⟩
    · unfold ReadyBackend.regOf
      rw [hst]
  -- the entry of the op's own descriptor is the one that changed
  set f := (s.ring.opPool op).fdIndex with hf
  have hindex : ∀ x, (s'.ring.opPool x).fdIndex = (s.ring.opPool x).fdIndex := by
    intro x
    unfold EngOp.fdIndex
    rw [(hsame x).1]
  have hbehind : ∀ x ∈ s.ring.waiting, (s.ring.opPool x).fdIndex = f →
      (s.st.entry b.zero f).side (s.ring.opPool x).side ≠ none := by
    intro x hx hxf
    rw [FdTable.entry_side, ← hxf]
    exact h.inStep.head_ne_none hx
  have hfront : ∀ sd, (s.st.entry b.zero f).side sd ≠ none →
      ∃ x ∈ s.ring.waiting, (s.ring.opPool x).fdIndex = f ∧ (s.ring.opPool x).side = sd := by
    intro sd hsd
    rw [FdTable.entry_side] at hsd
    obtain ⟨l, hl, hmem⟩ := h.inStep.lists f sd
    cases l with
    | nil => exact absurd hl hsd
    | cons x l =>
      obtain ⟨hx, hxf, hxs⟩ := (hmem x).mp List.mem_cons_self
      refine ⟨x, hx, ?_, hxs⟩
      unfold EngOp.fdIndex
      omega
  have hsides : ∀ sd, (s.st.entry b.zero f).side sd ≠ none →
      ∃ we, sideOf we = sd ∧ R.own (s.st.entry b.zero f).reg we := by
    intro sd hsd
    obtain ⟨x, hx, hxf, hxs⟩ := hfront sd hsd
    refine ⟨_, hxs, ?_⟩
    have hxown := h.own x hx
    rwa [hxf] at hxown
  have hbusy : (s.st.entry b.zero f).idle = false → R.busy f (b.regOf s f) s.env := by
    intro hidle
    obtain ⟨sd, hsd⟩ := FdEntry.side_of_not_idle hidle
    obtain ⟨x, hx, hxf, -⟩ := hfront sd hsd
    rw [← hxf]
    exact h.busy x hx
  obtain ⟨hown, hbusy', hevery, holds⟩ := hb.register hQ hreg hsides hbusy (h.every f)
  refine ⟨hin, fun x hx => ?_, fun x hx => ?_, fun g => ?_⟩
  · rw [hindex, (hsame x).2]
    by_cases hxf : (s.ring.opPool x).fdIndex = f
    · rw [hxf]
      rcases (hmem x).mp hx with hx | ⟨rfl, rfl⟩
      · refine holds _ (hbehind x hx hxf) ?_
        have := h.own x hx
        rwa [hxf] at this
      · exact hown rfl
    · rw [hother _ hxf]
      rcases (hmem x).mp hx with hx | ⟨-, rfl⟩
      · exact h.own x hx
      · exact absurd hf.symm hxf
  · rw [hindex]
    by_cases hxf : (s.ring.opPool x).fdIndex = f
    · rw [hxf]
      apply hbusy'
      rcases (hmem x).mp hx with hx | ⟨rfl, rfl⟩
      · exact Or.inr (FdEntry.not_idle (hbehind x hx hxf))
      · exact Or.inl rfl
    · rw [hother _ hxf]
      rcases (hmem x).mp hx with hx | ⟨-, rfl⟩
      · exact (hb.others hreg _ _ hxf).1 (h.busy x hx)
      · exact absurd hf.symm hxf
  · by_cases hg : g = f
    · rw [hg]
      exact hevery
    · rw [hother g hg]
      exact (hb.others hreg g _ hg).2 (h.every g)

theorem unpark (h : Kept b R s) (hb : b.Keeps R Q) (op : Slot) : Kept b R (b.unpark s op) := by
  have hin := h.inStep.unpark (b := b) op
  have hmem := (h.inStep.toBagged.unpark (b := b) op).2
  obtain ⟨henv, hother, hown⟩ := ReadyBackend.unpark_registers b s op
  have hsame := ReadyBackend.unpark_op b s op
  have hindex : ∀ x, ((b.unpark s op).ring.opPool x).fdIndex = (s.ring.opPool x).fdIndex := by
    intro x
    unfold EngOp.fdIndex
    rw [(hsame x).1]
  have hside : ∀ x, ((b.unpark s op).ring.opPool x).side = (s.ring.opPool x).side := by
    intro x
    unfold EngOp.side
    rw [(hsame x).2]
  -- what holds of the entry of the op's descriptor, for the three parts at once
  set f := (s.ring.opPool op).fdIndex
  have hkeep : (∀ x ∈ (b.unpark s op).ring.waiting, (s.ring.opPool x).fdIndex = f →
        R.own (b.regOf s f) (s.ring.opPool x).waitEvents →
        R.own (b.regOf (b.unpark s op) f) (s.ring.opPool x).waitEvents) ∧
      (R.busy f (b.regOf s f) s.env → R.busy f (b.regOf (b.unpark s op) f) s.env) ∧
      (R.every f (b.regOf s f) s.env → R.every f (b.regOf (b.unpark s op) f) s.env) := by
    rcases hown with hreg | ⟨e, he, hsides, hreg⟩
    · rw [hreg]
      exact ⟨fun _ _ _ h => h, id, id⟩
    · obtain ⟨hq, hqb, hqe⟩ := hb.quit e (s.ring.opPool op).side f s.env
      rw [hreg, ← he]
      refine ⟨fun x hx hxf => ?_, hqb, hqe⟩
      apply hq
      rw [hsides, ← hxf, ← hindex]
      show (b.unpark s op).st.head _ (s.ring.opPool x).side ≠ none
      rw [← hside]
      exact hin.head_ne_none hx
  refine ⟨hin, fun x hx => ?_, fun x hx => ?_, fun g => ?_⟩
  · rw [hindex, (hsame x).2]
    have hxown := h.own x ((hmem x).mp hx).1
    by_cases hxf : (s.ring.opPool x).fdIndex = f
    · rw [hxf] at hxown ⊢
      exact hkeep.1 x hx hxf hxown
    · rwa [hother _ hxf]
  · rw [hindex, henv]
    have hxbusy := h.busy x ((hmem x).mp hx).1
    by_cases hxf : (s.ring.opPool x).fdIndex = f
    · rw [hxf] at hxbusy ⊢
      exact hkeep.2.1 hxbusy
    · rwa [hother _ hxf]
  · rw [henv]
    by_cases hg : g = f
    · rw [hg]
      exact hkeep.2.2 (h.every f)
    · rw [hother g hg]
      exact h.every g

theorem retry (h : Kept b R s) (hb : b.Keeps R Q) (op : Slot) (t : Retry A)
    (ht : b.RetryMeets Q s op t) : Kept b R (b.retry s op t).1 := by
  have h₁ := h.unpark hb op
  have hout : op ∉ (b.unpark s op).ring.waiting :=
    fun hm => (((h.inStep.toBagged.unpark (b := b) op).2 op).mp hm).2 rfl
  unfold ReadyBackend.retry
  unfold ReadyBackend.RetryMeets at ht
  generalize b.unpark s op = s₁ at *
  cases hv : t.verdict with
  | ran res => exact h₁
  | file => exact h₁
  | park events =>
    rw [hv] at ht
    have h₂ := h₁.setOp hout { s₁.ring.opPool op with waitEvents := events }
    simp only
    split
    · next hp => exact h₂.park hb hout ht hp
    · next hp => exact h₂.park hb hout ht hp

theorem finishReady (h : Kept b R s) (hb : b.Keeps R Q) (ready : List Slot)
    (retries : List (Retry A)) (max : ℕ) (out : List (Slot × Int32))
    (hr : b.RetriesMeet Q s ready retries max out) :
    Kept b R (b.slipPosixFinishReady s ready retries max out).1 := by
  induction ready generalizing s retries out with
  | nil =>
    unfold ReadyBackend.slipPosixFinishReady
    exact h
  | cons op ready ih =>
    cases retries with
    | nil =>
      unfold ReadyBackend.slipPosixFinishReady
      exact h
    | cons t retries =>
      unfold ReadyBackend.slipPosixFinishReady
      split
      · next hroom =>
        obtain ⟨ht, hrest⟩ := hr hroom
        have hturn := h.retry hb op t ht
        split
        · next he =>
          rw [he] at hturn hrest
          exact ih hturn _ _ hrest
        · next he =>
          rw [he] at hturn hrest
          exact ih hturn _ _ (by simpa using hrest)
      · exact h

theorem forget (h : Kept b R s) (hb : b.Keeps R Q) {fd : Int32} (grown : Bool)
    (hidle : ∀ x ∈ s.ring.waiting, (s.ring.opPool x).sqe.fd ≠ fd) :
    Kept b R (b.forget s fd grown) := by
  have hin := h.inStep.forget (b := b) grown hidle
  obtain ⟨henv, hring, hother, hown⟩ := ReadyBackend.forget_registers b s fd grown
  by_cases hneg : fd < 0
  · have hval : b.forget s fd grown = s := by
      unfold ReadyBackend.forget FdTable.slot
      rw [if_pos hneg]
    rwa [hval]
  have hfd : 0 ≤ fd.toInt := by
    rw [Int32.not_lt, Int32.le_iff_toInt_le] at hneg
    simpa using hneg
  have hne : ∀ x ∈ s.ring.waiting, (s.ring.opPool x).fdIndex ≠ fd.toInt.toNat := by
    intro x hx
    exact fdIndex_ne (h.inStep.fd x hx) hfd (hidle x hx)
  refine ⟨hin, fun x hx => ?_, fun x hx => ?_, fun g => ?_⟩
  · rw [hring] at hx ⊢
    rw [hother _ (hne x hx)]
    exact h.own x hx
  · rw [hring] at hx ⊢
    rw [hother _ (hne x hx), henv]
    exact h.busy x hx
  · rw [henv]
    by_cases hg : g = fd.toInt.toNat
    · rw [hg]
      rcases hown with hreg | hreg
      · rw [hreg]
        exact h.every _
      · rw [hreg]
        exact hb.forgotten _ _ _ (h.every _)
    · rw [hother g hg]
      exact h.every g

/-- A descriptor with nothing parked on it leaves the system. -/
theorem gone (h : Kept b R s) (hb : b.Keeps R Q) {fd : Int32}
    (hidle : ∀ x ∈ s.ring.waiting, (s.ring.opPool x).sqe.fd ≠ fd) :
    Kept b R (if fd < 0 then s else { s with env := b.closed s.env fd.toInt.toNat }) := by
  split
  · exact h
  next hneg =>
  have hfd : 0 ≤ fd.toInt := by
    rw [Int32.not_lt, Int32.le_iff_toInt_le] at hneg
    simpa using hneg
  refine ⟨h.inStep.congr rfl rfl (fun x _ => ⟨SameParked.refl _, rfl⟩) (fun _ _ => rfl),
    h.own, fun x hx => ?_, fun g => (hb.closed _ g _ _).2 (h.every g)⟩
  exact (hb.closed _ _ _ _).1 (fdIndex_ne (h.inStep.fd x hx) hfd (hidle x hx)) (h.busy x hx)

theorem closeFd (h : Kept b R s) (hb : b.Keeps R Q) {fd : Int32} (grown : Bool)
    (hidle : ∀ x ∈ s.ring.waiting, (s.ring.opPool x).sqe.fd ≠ fd) :
    Kept b R (b.closeFd s fd grown) := by
  have hring := (ReadyBackend.forget_registers b s fd grown).2.1
  apply (h.forget hb grown hidle).gone hb
  rwa [hring]

theorem close (h : Kept b R s) (hb : b.Keeps R Q) {sqe : Sqe} (grown : Bool)
    (hidle : ∀ fd ∈ s.closes sqe, ∀ x ∈ s.ring.waiting, (s.ring.opPool x).sqe.fd ≠ fd) :
    Kept b R (b.close s sqe grown) := by
  unfold ReadyBackend.close
  unfold Parking.closes at hidle
  split
  · next hdirect =>
    rw [if_pos hdirect] at hidle
    dsimp only at hidle ⊢
    split
    · exact h
    next hreal =>
    rw [if_neg hreal] at hidle
    obtain ⟨hpool, hn, hw⟩ := slipFixedClear_frame s.ring (sqe.fileIndex - 1).toNat
    have h₁ : Kept b R { s with ring := (s.ring.slipFixedClear (sqe.fileIndex - 1).toNat).1 } := by
      refine h.congr (h.inStep.congr hw hn (fun x _ => ?_) (fun _ _ => rfl)) (fun x hx => ?_)
        (fun _ => rfl) rfl
      · dsimp only
        rw [hpool]
        exact ⟨SameParked.refl _, rfl⟩
      · dsimp only at hx ⊢
        rw [hpool]
        exact ⟨hw ▸ hx, rfl, rfl⟩
    refine h₁.closeFd hb grown (fun x hx => ?_)
    dsimp only at hx ⊢
    rw [hpool]
    exact hidle _ rfl x (hw ▸ hx)
  · next hplain =>
    rw [if_neg hplain] at hidle
    exact h.closeFd hb grown (hidle sqe.fd rfl)

/-- What has to be said of a backend's own part of a step: what it hears and collects. -/
structure Collects (b : ReadyBackend κ ω A E) (R : Registration κ ω) (C : Parking κ ω → E → Prop) :
    Prop where
  hear : ∀ {s e}, Kept b R s → C s e → Kept b R (b.hear s e)
  collect : ∀ {s e}, Kept b R s → C s e → Kept b R (b.collect s e).1

variable {C : Parking κ ω → E → Prop}

theorem step (h : Kept b R s) (hb : b.Keeps R Q) (hc : Collects b R C) {l : ParkLabel A E}
    (hl : ParksOnce s l) (hi : ClosesIdle s l) (hm : b.Meets Q C s l) : Kept b R (b.step s l) := by
  cases l with
  | other op o => exact h.setOp hl o
  | fixed table =>
    refine h.congr ?_ (fun x hx => ⟨hx, rfl, rfl⟩) (fun _ => rfl) rfl
    exact h.inStep.congr rfl rfl (fun x _ => ⟨SameParked.refl _, rfl⟩) (fun _ _ => rfl)
  | park op events grown a =>
    have h₁ := h.setOp hl { s.ring.opPool op with waitEvents := events }
    exact h₁.park hb hl hm (Prod.mk.eta).symm
  | unpark op => exact h.unpark hb op
  | pass events retries max => exact (hc.collect h hm.1).finishReady hb _ _ _ _ hm.2
  | close sqe grown => exact h.close hb grown hi
  | gone fd => exact h.gone hb hi
  | hear events => exact hc.hear h hm

theorem setup {n : ℕ} {e : UInt32} {env : ω} (h₀ : ∀ f, R.every f b.zero env) :
    Kept b R (b.setupParking n e env) := by
  refine ⟨setupParking_inStep n e env, ?_, ?_, fun f => ?_⟩
  · intro x hx
    simp [ReadyBackend.setupParking] at hx
  · intro x hx
    simp [ReadyBackend.setupParking] at hx
  · have hreg : b.regOf (b.setupParking n e env) f = b.zero := by
      unfold ReadyBackend.regOf FdTable.entry ReadyBackend.setupParking
      split <;> rfl
    rw [hreg]
    exact h₀ f

theorem run (hb : b.Keeps R Q) (hc : Collects b R C) {n : ℕ} {e : UInt32} {env : ω}
    (h₀ : ∀ f, R.every f b.zero env) {tr : List Empty}
    (hr : Run b.parking (fun s l => ParksOnce s l ∧ ClosesIdle s l ∧ b.Meets Q C s l)
      (b.setupParking n e env) tr s) : Kept b R s := by
  refine hr.invariant (fun _ s => Kept b R s) (setup h₀) ?_
  intro tr s l s' _ h hl hs
  cases hs
  exact h.step hb hc hl.1 hl.2.1 hl.2.2

end Kept

end SlipstreamIO.Engine
