import SlipstreamIO.CursorLoads

/-! When enter goes to sleep with a full CQ: `min_complete` is compared with what stood in the CQ when its
cursors were loaded, and what the CQ has no room for is not counted. -/
namespace SlipstreamIO.Engine

open Runs

namespace Vault

theorem drainBacklogLoop_cqEntries (fuel : ℕ) (v : Vault) (reads : List ℕ) :
    (drainBacklogLoop fuel v reads).1.cqEntries = v.cqEntries := by
  induction fuel generalizing v reads with
  | zero => rfl
  | succ fuel ih =>
    cases hb : v.backlogHead with
    | none => rw [drainBacklogLoop_empty hb]
    | some op =>
      rw [drainBacklogLoop_succ hb]
      split
      · rw [ih]
        rfl
      · rfl

@[simp] theorem drainBacklogLocked_cqEntries (v : Vault) (reads : List ℕ) :
    (v.drainBacklogLocked reads).1.cqEntries = v.cqEntries :=
  drainBacklogLoop_cqEntries _ v reads

@[simp] theorem slipEnginePost_cqEntries (v : Vault) (op : Slot) (res : Int32) (reads : List ℕ) :
    (v.slipEnginePost op res reads).cqEntries = v.cqEntries := by
  simp only [slipEnginePost]
  (repeat' split) <;> simp [backlogLocked_cqEntries]

theorem opAllocLocked_cqEntries {v w : Vault} {op : Slot} (h : v.opAllocLocked = some (op, w)) :
    w.cqEntries = v.cqEntries := by
  simp only [opAllocLocked] at h
  split at h <;> cases h
  rfl

@[simp] theorem slipEngineEmit_cqEntries (v : Vault) (u : UInt64) (res : Int32) (fl : UInt32)
    (reads : List ℕ) : (v.slipEngineEmit u res fl reads).cqEntries = v.cqEntries := by
  simp only [slipEngineEmit]
  split
  · simp
  · split
    · next op w h => simp [backlogLocked_cqEntries, opAllocLocked_cqEntries h]
    · simp

end Vault

/-- The call enter works for, once it has left the caller. -/
def Pc.call : Pc → Option Call
  | .out _ => none
  | .take call _ _ _ _ => some call
  | .queue f | .exec f _ _ _ | .post f _ _ | .settle f | .check f | .wait f _ _ | .complete f _ =>
    some f.call

/-- Enter is past its test of IORING_ENTER_GETEVENTS. -/
def Pc.waits : Pc → Bool
  | .out _ | .take _ _ _ _ _ => false
  | .queue f | .exec f _ _ _ | .post f _ _ => f.looped
  | .settle _ | .check _ | .wait _ _ _ | .complete _ _ => true

/-- Enter sleeps in the backend's wait. -/
def Pc.asleep : Pc → Bool
  | .wait _ _ _ => true
  | _ => false

/-- `q` is a later place of the call `p` stands in, and past the test only if that call waits. -/
def Pc.KeepsCall (p q : Pc) : Prop :=
  q.call = none ∨ (q.call = p.call ∧ (q.waits = true → p.waits = true ∨
    ∀ call, p.call = some call → call.getevents = true))

/-- A call that waits asks for no more CQEs than the CQ holds. -/
def AsksWhatFits (cqEntries : UInt32) : CoreLabel → Prop
  | .enter call => call.getevents = true → call.minComplete ≤ cqEntries
  | _ => True

instance (cqEntries : UInt32) (l : CoreLabel) : Decidable (AsksWhatFits cqEntries l) :=
  match l with
  | .enter call =>
    inferInstanceAs (Decidable (call.getevents = true → call.minComplete ≤ cqEntries))
  | .takeSqe | .append | .queueStep .. | .post _ | .settle _ | .check _ | .complete _ | .write _
  | .execDone _ | .execTake | .execPending | .cancelHeld .. | .cancelQueued .. | .handBack ..
  | .waitReturn | .waitFail | .offFinish .. | .offPost .. | .emit .. | .read _ =>
    inferInstanceAs (Decidable True)

/-- The call under way, if it is past the test, waits for a count the CQ can hold. -/
structure Core.WaitFits (s : Core) (cqEntries : UInt32) : Prop where
  entries : s.ring.cqEntries = cqEntries
  fits : ∀ call, s.pc.call = some call → call.getevents = true → call.minComplete ≤ cqEntries
  asked : ∀ call, s.pc.call = some call → s.pc.waits = true → call.getevents = true

section Step
variable {s s' : Core} {l : CoreLabel}

@[simp] theorem appendBatch_cqEntries (r : Ring) (h : Slot) (t : Option Slot) :
    (r.appendBatch h t).cqEntries = r.cqEntries := by
  simp only [Ring.appendBatch]
  split <;> rfl

@[simp] theorem unlinkQueued_cqEntries (r : Ring) (p : ThreadedList.Link Slot) (t : Slot) :
    (r.unlinkQueued p t).cqEntries = r.cqEntries := by
  simp only [Ring.unlinkQueued]
  (repeat' split) <;> rfl

@[simp] theorem cancelTarget_cqEntries (r : Ring) (t : Slot) (reads : List ℕ) :
    (r.cancelTarget t reads).cqEntries = r.cqEntries := by
  simp only [Ring.cancelTarget, Ring.inVault_toVault, Vault.slipEnginePost_cqEntries]
  (repeat' split) <;> rfl

@[simp] theorem complete_cqEntries (r : Ring) (op : Slot) (res : Int32) (reads : List ℕ) :
    (r.complete op res reads).cqEntries = r.cqEntries := by
  simp only [Ring.complete, Ring.inVault_toVault, Vault.slipEnginePost_cqEntries]
  (repeat' split) <;> rfl

@[simp] theorem settleWorkerTicket_cqEntries (r : Ring) (reads : List ℕ) :
    (r.settleWorkerTicket reads).cqEntries = r.cqEntries := by
  simp only [Ring.settleWorkerTicket, Ring.inVault_toVault, Vault.drainBacklogLocked_cqEntries]
  (repeat' split) <;> rfl

@[simp] theorem msgRing_cqEntries (r : Ring) (q : Sqe) (target : MsgTarget) (reads : List ℕ) :
    (msgRing r q target reads).1.cqEntries = r.cqEntries := by
  simp only [msgRing]
  (repeat' split) <;> simp

/-- No step changes the size of the CQ. -/
theorem step_cqEntries (hk : Keeps s l) (hs : s.step l = some s') :
    s'.ring.cqEntries = s.ring.cqEntries := by
  cases l with
  | write r =>
    cases hs
    exact hk.cqEntries
  | takeSqe =>
    simp only [Core.step, Core.takeSqe] at hs
    split at hs
    · split at hs
      · cases hs
        rfl
      · split at hs
        · cases hs
          rfl
        · next op v hop =>
          cases hs
          rw [← Vault.opAllocLocked_cqEntries hop, Ring.inVault_toVault]
          split <;> rfl
    · cases hs
  | queueStep target reads =>
    simp only [Core.step, Core.queueStep] at hs
    (repeat' split at hs) <;> cases hs <;> simp [Ring.popQueue] <;> rfl
  | offFinish op res ticket =>
    cases hs
    cases ticket <;> rfl
  | _ =>
    simp only [Core.step, Core.append, Core.post, Core.settle, Core.check, Core.complete,
      Core.execDone, Core.execTake, Core.execPending, Core.cancelHeld, Core.cancelQueued,
      Core.handBack, Core.waitReturn, Core.waitFail, Core.offPost] at hs
    (repeat' split at hs) <;> cases hs <;> simp [Core.setHand]

theorem afterQueue_keepsCall {p : Pc} (f : Frame) (hcall : p.call = some f.call)
    (hwaits : f.looped = true → p.waits = true) : p.KeepsCall (Core.afterQueue f) := by
  unfold Core.afterQueue
  split
  · next h =>
    simp only [Bool.or_eq_true, Bool.and_eq_true] at h
    refine Or.inr ⟨hcall.symm, fun _ => h.imp hwaits fun hask call hc => ?_⟩
    rw [hcall] at hc
    cases hc
    exact hask.1
  · exact Or.inl rfl

/-- Enter works for the call it was given, and passes the test only when that call waits. -/
theorem step_call (hs : s.step l = some s') :
    (∃ call, l = .enter call ∧ s'.pc.call = some call ∧ s'.pc.waits = false) ∨
      s.pc.KeepsCall s'.pc := by
  cases l with
  | enter call =>
    left
    simp only [Core.step] at hs
    split at hs <;> cases hs
    exact ⟨call, rfl, rfl, rfl⟩
  | append =>
    right
    simp only [Core.step, Core.append] at hs
    split at hs
    · next call submitted batchHead batchTail hpc =>
      rw [hpc]
      split at hs <;> cases hs
      · exact afterQueue_keepsCall _ rfl (fun h => by cases h)
      · exact Or.inr ⟨rfl, fun h => by cases h⟩
    · cases hs
  | queueStep target reads =>
    right
    simp only [Core.step, Core.queueStep] at hs
    split at hs
    · next f hpc =>
      have hq : s.pc.KeepsCall (Core.afterQueue f) :=
        afterQueue_keepsCall f (by rw [hpc]; rfl) (by rw [hpc]; exact id)
      (repeat' split at hs) <;> cases hs
      · exact hq
      · exact hq
      all_goals exact Or.inr ⟨by simp [hpc, Pc.call], fun h => Or.inl (by simpa [hpc, Pc.waits] using h)⟩
    · cases hs
  | offFinish op res ticket =>
    right
    cases hs
    cases ticket <;> exact Or.inr ⟨rfl, Or.inl⟩
  | _ =>
    right
    simp only [Core.step, Core.takeSqe, Core.post, Core.settle, Core.check, Core.complete,
      Core.execDone, Core.execTake, Core.execPending, Core.cancelHeld, Core.cancelQueued,
      Core.handBack, Core.waitReturn, Core.waitFail, Core.offPost] at hs
    (repeat' split at hs) <;> cases hs <;> simp_all [Core.setHand, Pc.call, Pc.waits, Pc.KeepsCall]

theorem setupCore_waitFits (n : ℕ) (e : UInt32) : (setupCore n e).WaitFits e where
  entries := rfl
  fits := by
    intro call hc
    cases hc
  asked := by
    intro call hc
    cases hc

theorem Core.WaitFits.step {e : UInt32} (h : s.WaitFits e) (hk : Keeps s l) (hl : AsksWhatFits e l)
    (hs : s.step l = some s') : s'.WaitFits e := by
  have hentries := (step_cqEntries hk hs).trans h.entries
  -- a call begins and was asked to fit, enter is out, or the call goes on
  rcases step_call hs with ⟨call, rfl, hcall, hwaits⟩ | hnone | ⟨hcall, hwaits⟩
  · refine ⟨hentries, fun c hc => ?_, fun c hc hw => ?_⟩
    · rw [hcall] at hc
      cases hc
      exact hl
    · rw [hwaits] at hw
      cases hw
  · refine ⟨hentries, fun c hc => ?_, fun c hc => ?_⟩ <;> rw [hnone] at hc <;> cases hc
  · refine ⟨hentries, fun c hc => h.fits c (hcall ▸ hc), fun c hc hw => ?_⟩
    rw [hcall] at hc
    exact (hwaits hw).elim (h.asked c hc) (fun hask => hask c hc)

/-- In the core's own steps enter goes to sleep at its check. -/
theorem falls_asleep (hs : s.step l = some s') (ha : s.pc.asleep = false) (ha' : s'.pc.asleep = true) :
    ∃ left, l = .check left := by
  have hafter (f : Frame) : (Core.afterQueue f).asleep = false := by
    unfold Core.afterQueue
    split <;> rfl
  cases l with
  | check left => exact ⟨left, rfl⟩
  | offFinish op res ticket =>
    cases hs
    cases ticket <;> exact absurd ha' (by rw [Core.offFinish]; simp [Core.setHand, ha])
  | _ =>
    simp only [Core.step, Core.takeSqe, Core.append, Core.queueStep, Core.post, Core.settle,
      Core.complete, Core.execDone, Core.execTake, Core.execPending, Core.cancelHeld,
      Core.cancelQueued, Core.handBack, Core.waitReturn, Core.waitFail, Core.offPost] at hs
    (repeat' split at hs) <;> cases hs <;> simp_all [Core.setHand, Pc.asleep]

end Step

def LookLabel.AsksWhatFits (cqEntries : UInt32) : LookLabel → Prop
  | .other l => Engine.AsksWhatFits cqEntries l
  | _ => True

instance (cqEntries : UInt32) (l : LookLabel) : Decidable (l.AsksWhatFits cqEntries) :=
  match l with
  | .other l => inferInstanceAs (Decidable (Engine.AsksWhatFits cqEntries l))
  | .loadTail | .loadHead | .compare _ | .sleep => isTrue trivial

/-- The steps of the runs that are promised room: the backend keeps its contract, a call that waits asks for
no more than the CQ holds, and no other thread posts between a look at the CQ and the sleep behind it. -/
def LeavesRoom (e : UInt32) (s : Looking) (l : LookLabel) : Prop :=
  LookKeeps s l ∧ LooksUndisturbed s l ∧ l.AsksWhatFits e

section Look
variable {e : UInt32} {s s' : Looking} {l : LookLabel}

/-- At the check the call goes on to its return or its sleep. -/
theorem Core.WaitFits.goto {c : Core} {f : Frame} {pc : Pc} (h : c.WaitFits e) (hpc : c.pc = .check f)
    (hcall : pc.call = none ∨ pc.call = some f.call) : WaitFits { c with pc := pc } e := by
  have hfits := h.fits f.call (by rw [hpc]; rfl)
  have hasked := h.asked f.call (by rw [hpc]; rfl) (by rw [hpc]; rfl)
  rcases hcall with hcall | hcall
  · refine ⟨h.entries, fun call hc => ?_, fun call hc => ?_⟩
    all_goals cases hcall.symm.trans hc
  · refine ⟨h.entries, fun call hc => ?_, fun call hc _ => ?_⟩
    all_goals cases hcall.symm.trans hc
    · exact hfits
    · exact hasked

theorem Core.WaitFits.look (h : s.core.WaitFits e) (hl : LeavesRoom e s l) (hs : s.step l = some s') :
    s'.core.WaitFits e := by
  obtain ⟨hk, -, hask⟩ := hl
  cases l with
  | loadTail =>
    simp only [Looking.step, Looking.loadTail] at hs
    split at hs <;> cases hs <;> exact h
  | loadHead =>
    simp only [Looking.step, Looking.loadHead] at hs
    split at hs <;> cases hs <;> exact h
  | compare left =>
    simp only [Looking.step, Looking.compare] at hs
    split at hs
    · next f a hpc hloads =>
      (repeat' split at hs) <;> cases hs
      · exact h.goto hpc (.inl rfl)
      · exact h.goto hpc (.inl rfl)
      · exact h
      · exact h
    · cases hs
  | sleep =>
    simp only [Looking.step, Looking.sleep] at hs
    split at hs <;> cases hs
    next f forever hpc hloads => exact h.goto hpc (.inr rfl)
  | other l =>
    obtain ⟨-, -, hcore⟩ := other_step hs
    exact h.step hk hask hcore

/-- Enter goes to sleep behind a comparison, with the CQ as it is then. -/
theorem sleep_step (hs : s.step l = some s') (ha : s.core.pc.asleep = false) (ha' : s'.core.pc.asleep = true) :
    s'.core.ring = s.core.ring ∧ ∃ f forever, s.core.pc = .check f ∧ s.loads = .short forever := by
  cases l with
  | loadTail =>
    simp only [Looking.step, Looking.loadTail] at hs
    split at hs <;> cases hs <;> cases ha.symm.trans ha'
  | loadHead =>
    simp only [Looking.step, Looking.loadHead] at hs
    split at hs <;> cases hs <;> cases ha.symm.trans ha'
  | compare left =>
    simp only [Looking.step, Looking.compare] at hs
    split at hs
    · (repeat' split at hs) <;> cases hs
      · cases ha'
      · cases ha'
      · cases ha.symm.trans ha'
      · cases ha.symm.trans ha'
    · cases hs
  | sleep =>
    simp only [Looking.step, Looking.sleep] at hs
    split at hs <;> cases hs
    next f forever hpc hloads => exact ⟨rfl, f, forever, hpc, hloads⟩
  | other l =>
    obtain ⟨hl, -, hcore⟩ := other_step hs
    obtain ⟨left, hleft⟩ := falls_asleep hcore ha ha'
    exact absurd hleft (hl left)

end Look

/-- In a run whose waiting calls ask for no more than the CQ holds, and whose looks at the CQ are not
disturbed, enter goes to sleep only while the CQ has a free entry. -/
theorem waits_leave_room {n : ℕ} {e : UInt32} {tr : List Event} {s s' : Looking} {l : LookLabel}
    (hr : Run lookMachine (LeavesRoom e) { core := setupCore n e } tr s)
    (hs : s.step l = some s') (ha : s.core.pc.asleep = false) (ha' : s'.core.pc.asleep = true) :
    s'.core.ring.cqRoom = true := by
  have hinv : s.core.WaitFits e ∧ s.Sees := by
    apply hr.invariant (fun _ s => s.core.WaitFits e ∧ s.Sees)
    · exact ⟨setupCore_waitFits n e, .inl rfl⟩
    · intro tr s l s' _ h hc hs
      exact ⟨h.1.look hc hs, h.2.step hc.1 hc.2.1 hs⟩
  obtain ⟨hfits, hsees⟩ := hinv
  obtain ⟨hring, f, forever, hpc, hloads⟩ := sleep_step hs ha ha'
  have hright := hsees.right hpc
  rw [hloads] at hright
  -- nobody posted since the loads, so the count that was too small is the one that stands there
  have hlt : s.core.ring.cqAvail < f.call.minComplete := hright
  have hle : f.call.minComplete ≤ e :=
    hfits.fits f.call (by rw [hpc]; rfl) (hfits.asked f.call (by rw [hpc]; rfl) (by rw [hpc]; rfl))
  have hroom : s.core.ring.cqAvail < s.core.ring.cqEntries := by
    rw [hfits.entries]
    exact UInt32.lt_of_lt_of_le hlt hle
  rw [hring]
  exact decide_eq_true hroom

/-- Enter takes two NOPs and runs them one after the other, as `first` and `second` have it, up to its
check. -/
def twoNops (minComplete : UInt32) (first second : List CoreLabel) : List LookLabel :=
  let call : Call := { entries := [some {}, some {}], minComplete, getevents := true }
  let turn : CoreLabel := .queueStep .own []
  let labels : List CoreLabel :=
    [.enter call, .takeSqe, .takeSqe, .append, turn] ++ first ++ [turn] ++ second ++ [turn, .settle []]
  labels.map .other

/-- A CQ of two that holds one CQE, and enter asks for two: it sleeps with one entry free. -/
theorem waits_leave_room_two : ∃ tr s l s',
    Run lookMachine (LeavesRoom 2) { core := setupCore 2 2 } tr s ∧ s.step l = some s' ∧
      s.core.pc.asleep = false ∧ s'.core.pc.asleep = true ∧ s'.core.ring.cqRoom = true := by
  obtain ⟨tr, s, hr, ha, hw⟩ := Run.of_exec lookMachine
    (fun s l => lookKeepsCheck s l = true ∧ LooksUndisturbed s l ∧ l.AsksWhatFits 2)
    { core := setupCore 2 2 }
    (fun _ s => s.core.pc.asleep = false ∧ (s.step .sleep).any (·.core.pc.asleep) = true)
    (twoNops 2 [.execTake, .execPending] [.execDone 0, .post []] ++ [.loadTail, .loadHead, .compare 0])
    (by decide +kernel)
  obtain ⟨s', hs, ha'⟩ := Option.any_eq_true _ _ |>.mp hw
  have hr : Run lookMachine (LeavesRoom 2) { core := setupCore 2 2 } tr s := by
    apply hr.mono
    rintro s l ⟨hk, hrest⟩
    exact ⟨lookKeeps_of_check hk, hrest⟩
  exact ⟨tr, s, _, s', hr, hs, ha, ha', waits_leave_room hr hs ha ha'⟩

/-- A CQ of two, and an enter of two NOPs that asks for three CQEs: it sleeps with the CQ full. -/
theorem full_cq_sleeps : ∃ tr s l s', Run lookMachine LookKeeps { core := setupCore 2 2 } tr s ∧
    s.step l = some s' ∧ s.core.pc.asleep = false ∧ s'.core.pc.asleep = true ∧
      s'.core.ring.cqRoom = false := by
  obtain ⟨tr, s, hr, ha, hw⟩ := Run.of_exec lookMachine (fun s l => lookKeepsCheck s l = true)
    { core := setupCore 2 2 }
    (fun _ s => s.core.pc.asleep = false ∧
      (s.step .sleep).any (fun s' => s'.core.pc.asleep && !s'.core.ring.cqRoom) = true)
    (twoNops 3 [.execDone 0, .post []] [.execDone 0, .post []] ++ [.loadTail, .loadHead, .compare 0])
    (by decide +kernel)
  obtain ⟨s', hs, hs'⟩ := Option.any_eq_true _ _ |>.mp hw
  simp only [Bool.and_eq_true, Bool.not_eq_true'] at hs'
  exact ⟨tr, s, _, s', hr.mono fun _ _ h => lookKeeps_of_check h, hs, ha, hs'.1, hs'.2⟩

/-- A CQ of two, one op run and the other with a worker: its CQE is posted behind the loads, and enter,
which asks for two, sleeps with the CQ full. -/
example : ((lookMachine.exec (fun s l => lookKeepsCheck s l = true) [] { core := setupCore 2 2 }
    (twoNops 2 [.execTake, .execPending] [.execDone 0, .post []] ++
      [.loadTail, .loadHead, .other (.offFinish 0 0 false), .other (.offPost 0 []), .compare 0, .sleep])).any
    fun p => p.2.core.pc.asleep && !p.2.core.ring.cqRoom) = true := by
  decide +kernel

end SlipstreamIO.Engine
