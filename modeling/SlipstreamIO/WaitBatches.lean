import SlipstreamIO.CompletionStream
import SlipstreamIO.CoreFrames
import SlipstreamIO.StaleBacklog

/-! What stands in the CQ and in the backlog: while the caller reads nothing no step takes any of it away,
and each op of a wait's batch brings the CQE it gives. -/
namespace SlipstreamIO.Engine

open ThreadedList Runs

/-- The caller's reads that fall into a step. -/
def CoreLabel.reads : CoreLabel → List ℕ
  | .queueStep _ reads | .post reads | .settle reads | .complete reads | .cancelHeld _ reads
  | .cancelQueued _ reads | .offPost _ reads | .emit _ _ _ reads => reads
  | .read k => [k]
  | _ => []

namespace Vault

/-- From `v` to `w` CQEs were posted, and none was read. -/
structure Grows (v w : Vault) : Prop where
  cqEntries : w.cqEntries = v.cqEntries
  head : w.cq.head = v.cq.head
  posted : ∃ n, w.cq.log.length = v.cq.log.length + n ∧ w.cqAvail.toNat = v.cqAvail.toNat + n

section Grows
variable {v w u : Vault} {op : Slot} {res : Int32} {reads : List ℕ}

/-- Nothing happened to the CQ. -/
theorem Grows.of_cq (he : w.cqEntries = v.cqEntries) (hlog : w.cq.log = v.cq.log)
    (hhead : w.cq.head = v.cq.head) (htail : w.cq.tail = v.cq.tail) : v.Grows w := by
  refine ⟨he, hhead, 0, by rw [hlog]; rfl, ?_⟩
  rw [cqAvail, cqAvail, hhead, htail]
  rfl

theorem Grows.refl (v : Vault) : v.Grows v := .of_cq rfl rfl rfl rfl

theorem Grows.trans (h : v.Grows w) (h' : w.Grows u) : v.Grows u := by
  obtain ⟨he, hhead, n, hlog, havail⟩ := h
  obtain ⟨he', hhead', m, hlog', havail'⟩ := h'
  exact ⟨he'.trans he, hhead'.trans hhead, n + m, by omega, by omega⟩

theorem Grows.avail_le (h : v.Grows w) : v.cqAvail.toNat ≤ w.cqAvail.toNat := by
  obtain ⟨-, -, n, -, havail⟩ := h
  omega

/-- A CQE is put into the room there is. -/
theorem Grows.stored (hroom : v.cqRoom = true) (he : w.cqEntries = v.cqEntries)
    (hlog : w.cq.log.length = v.cq.log.length + 1) (hhead : w.cq.head = v.cq.head)
    (htail : w.cq.tail = v.cq.tail + 1) : v.Grows w := by
  refine ⟨he, hhead, 1, hlog, ?_⟩
  have hlt := UInt32.lt_iff_toNat_lt.mp (show v.cqAvail < v.cqEntries from of_decide_eq_true hroom)
  have hmax := v.cqEntries.toNat_lt
  have hstep : w.cqAvail = v.cqAvail + 1 := by
    rw [cqAvail, cqAvail, hhead, htail]
    simp only [UInt32.sub_eq_add_neg, UInt32.add_assoc, UInt32.add_comm (-v.cq.head) 1]
  rw [hstep, UInt32.toNat_add]
  exact Nat.mod_eq_of_lt (Nat.lt_of_le_of_lt (Nat.succ_le_of_lt hlt) hmax)

theorem drainBacklogLoop_grows (fuel : ℕ) (v : Vault) (hreads : NoReads reads) :
    v.Grows (drainBacklogLoop fuel v reads).1 := by
  induction fuel generalizing v reads with
  | zero => exact .refl v
  | succ fuel ih =>
    cases hb : v.backlogHead with
    | none =>
      rw [drainBacklogLoop_empty hb]
      exact .refl v
    | some op =>
      rw [drainBacklogLoop_succ hb, hreads.headD, callerReads_zero]
      split
      · next hroom =>
        have hpost : v.Grows (v.drainOne op) := .stored hroom rfl (by simp [drainOne_log]) rfl rfl
        exact hpost.trans (ih _ hreads.tail)
      · exact .refl v

theorem Grows.backlogLocked (h : v.Grows w) (op : Slot) (res : Int32) : v.Grows (w.backlogLocked op res) := by
  have hcq := backlogLocked_cq w op res
  exact h.trans (.of_cq (backlogLocked_cqEntries w op res) (by rw [hcq]) (by rw [hcq]) (by rw [hcq]))

theorem slipEnginePost_grows (v : Vault) (op : Slot) (res : Int32) (hreads : NoReads reads) :
    v.Grows (v.slipEnginePost op res reads) := by
  have hdrain : v.Grows (v.drainBacklogLocked reads).1 := drainBacklogLoop_grows _ v hreads
  have hrest : NoReads (v.drainBacklogLocked reads).2 := hreads.drain _ _
  unfold slipEnginePost
  dsimp only
  rw [hrest.headD, callerReads_zero]
  generalize (v.drainBacklogLocked reads).1 = w at hdrain ⊢
  split
  · exact hdrain.trans (.of_cq rfl rfl rfl rfl)
  · split
    · next hroom => exact hdrain.trans (.stored hroom rfl (by simp) rfl rfl)
    · exact hdrain.backlogLocked op res

theorem slipEngineEmit_grows (v : Vault) (u : UInt64) (res : Int32) (fl : UInt32)
    (hreads : NoReads reads) : v.Grows (v.slipEngineEmit u res fl reads) := by
  have hdrain : v.Grows (v.drainBacklogLocked reads).1 := drainBacklogLoop_grows _ v hreads
  have hrest : NoReads (v.drainBacklogLocked reads).2 := hreads.drain _ _
  unfold slipEngineEmit
  dsimp only
  rw [hrest.headD, callerReads_zero]
  generalize (v.drainBacklogLocked reads).1 = w at hdrain ⊢
  split
  · next hroom => exact hdrain.trans (.stored hroom rfl (by simp) rfl rfl)
  · unfold opAllocLocked
    cases w.opFree with
    | none => exact hdrain.trans (.of_cq rfl rfl rfl rfl)
    | some carrier =>
      apply Grows.backlogLocked _ carrier res
      exact hdrain.trans (.of_cq rfl rfl rfl rfl)

theorem Grows.msgRing {r : Ring} (h : v.Grows r.toVault) (q : Sqe) (target : MsgTarget)
    (hreads : NoReads reads) : v.Grows (msgRing r q target reads).1.toVault := by
  unfold Engine.msgRing
  split
  · exact h
  · cases target with
    | own => exact h.trans (slipEngineEmit_grows _ _ _ _ hreads)
    | other | noRing => exact h

end Grows

end Vault

section Step
variable {s s' : Core} {a : Chains} {free backlog queue batch : List Slot} {l : CoreLabel}

theorem appendBatch_grows (r : Ring) (h : Slot) (t : Option Slot) :
    r.toVault.Grows (r.appendBatch h t).toVault := by
  unfold Ring.appendBatch
  cases r.queueTail with
  | none => exact .refl _
  | some last => exact .of_cq rfl rfl rfl rfl

theorem unlinkQueued_grows (r : Ring) (p : Link Slot) (t : Slot) :
    r.toVault.Grows (r.unlinkQueued p t).toVault := by
  unfold Ring.unlinkQueued
  cases p <;> (dsimp only; split <;> exact .of_cq rfl rfl rfl rfl)

theorem cancelTarget_grows (r : Ring) (t : Slot) {reads : List ℕ} (hreads : Vault.NoReads reads) :
    r.toVault.Grows (r.cancelTarget t reads).toVault := by
  rw [cancelTarget_eq]
  exact r.toVault.slipEnginePost_grows t (-ecanceled) hreads

theorem queueStep_grows {target : MsgTarget} {reads : List ℕ} (hreads : Vault.NoReads reads)
    (hs : s.queueStep target reads = some s') : s.ring.toVault.Grows s'.ring.toVault := by
  simp only [Core.queueStep] at hs
  split at hs
  swap
  · cases hs
  split at hs
  · cases hs
    exact .refl _
  · next op hhead =>
    (repeat' split at hs) <;> cases hs
    all_goals try exact .of_cq rfl rfl rfl rfl
    all_goals
      apply Vault.Grows.msgRing _ _ target hreads
      exact .of_cq rfl rfl rfl rfl

/-- No step takes a CQE out of the CQ when the caller reads nothing. -/
theorem step_grows (hk : Keeps s l) (hreads : Vault.NoReads l.reads) (hs : s.step l = some s') :
    s.ring.toVault.Grows s'.ring.toVault := by
  cases l with
  | write r =>
    cases hs
    exact .of_cq hk.cqEntries (by rw [hk.cq]) (by rw [hk.cq]) (by rw [hk.cq])
  | read k =>
    cases hs
    have hzero : k = 0 := hreads k List.mem_cons_self
    subst hzero
    simp only [Ring.inVault_toVault, Vault.callerReads_zero]
    exact .refl _
  | takeSqe =>
    simp only [Core.step, Core.takeSqe] at hs
    split at hs
    swap
    · cases hs
    next call entry rest submitted batchHead batchTail hpc =>
    cases entry with
    | none =>
      cases hs
      exact .refl _
    | some sqe =>
      unfold Vault.opAllocLocked at hs
      cases hfree : s.ring.opFree with
      | none =>
        rw [hfree] at hs
        cases hs
        exact .refl _
      | some op =>
        rw [hfree] at hs
        cases hs
        cases batchTail
        all_goals exact .of_cq rfl rfl rfl rfl
  | append =>
    simp only [Core.step, Core.append] at hs
    split at hs
    · split at hs <;> cases hs
      · exact .refl _
      · exact appendBatch_grows _ _ _
    · cases hs
  | queueStep target reads => exact queueStep_grows hreads hs
  | post reads =>
    simp only [Core.step, Core.post] at hs
    split at hs <;> cases hs
    exact Vault.slipEnginePost_grows _ _ _ hreads
  | settle reads =>
    simp only [Core.step, Core.settle] at hs
    split at hs <;> cases hs
    rw [settleWorkerTicket_toVault]
    exact Vault.drainBacklogLoop_grows _ _ hreads
  | complete reads =>
    simp only [Core.step, Core.complete] at hs
    split at hs <;> cases hs
    · rw [complete_toVault]
      exact Vault.slipEnginePost_grows _ _ _ hreads
    · exact .refl _
  | cancelHeld t reads =>
    simp only [Core.step, Core.cancelHeld] at hs
    split at hs <;> cases hs
    exact cancelTarget_grows _ _ hreads
  | cancelQueued p reads =>
    simp only [Core.step, Core.cancelQueued] at hs
    split at hs <;> cases hs
    exact (unlinkQueued_grows _ _ _).trans (cancelTarget_grows _ _ hreads)
  | offFinish op res ticket =>
    cases hs
    cases ticket
    all_goals exact .of_cq rfl rfl rfl rfl
  | offPost op reads =>
    simp only [Core.step, Core.offPost] at hs
    split at hs <;> cases hs
    exact Vault.slipEnginePost_grows _ _ _ hreads
  | emit u res fl reads =>
    cases hs
    exact Vault.slipEngineEmit_grows _ _ _ _ hreads
  | enter call | check left | execDone res | execTake | execPending | handBack op res | waitReturn
  | waitFail =>
    simp only [Core.step, Core.check, Core.execDone, Core.execTake, Core.execPending, Core.handBack,
      Core.waitReturn, Core.waitFail] at hs
    repeat' split at hs
    all_goals cases hs
    all_goals exact .of_cq rfl rfl rfl rfl

/-- The CQEs in the CQ, and those that wait in the backlog for room. -/
def Vault.brought (v : Vault) : ℕ := v.cqAvail.toNat + v.parked.length

/-- How many ops of a batch give a CQE; one that succeeds with IOSQE_CQE_SKIP_SUCCESS gives none. -/
def Vault.gives (v : Vault) (done : List (Slot × Int32)) : ℕ :=
  done.countP fun p => !(0 ≤ p.2 && (v.opPool p.1).sqe.flags.cqeSkipSuccess)

/-- What stands in the CQ and behind it once the batch in hand is completed. -/
def Core.budget (s : Core) : ℕ := s.ring.brought + s.ring.gives s.pc.done

theorem Placed.parked_length (h : Placed s a free backlog queue batch) :
    s.ring.parked.length = backlog.length := by
  rw [Vault.parked, walk_eq h.vault.backlog.threads _ h.length_le.2.1, List.length_map]

/-- A step adds the CQEs it reports, and takes none away. -/
theorem Rep.brought_step (h : Rep s a free backlog queue batch) (hw : a.WellFormed) (hk : Keeps s l)
    (hreads : Vault.NoReads l.reads) (hs : s.step l = some s') :
    s.ring.brought + (givenBy (s.events l)).length ≤ s'.ring.brought := by
  obtain ⟨-, -, n, hlog, havail⟩ := step_grows hk hreads hs
  obtain ⟨a', free', backlog', queue', batch', given, -, h', hperm, hgiven⟩ :=
    core_step_simulated h hw hk hs
  have hlength := hperm.length_eq
  simp only [List.length_append, List.length_map] at hlength
  have hreported : (givenBy (s.events l)).length ≤ given.length := by
    rw [← hgiven]
    exact List.length_filter_le _ _
  rw [Vault.brought, Vault.brought, h.placed.parked_length, h'.placed.parked_length]
  omega

/-- While a batch is completed, the ops still to be completed keep their SQEs. -/
theorem Rep.done_sqe (h : Rep s a free backlog queue batch) {f : Frame} {done : List (Slot × Int32)}
    (hpc : s.pc = .complete f done) (hk : Keeps s l) (hs : s.step l = some s') :
    ∀ p ∈ s'.pc.done, (s'.ring.opPool p.1).sqe = (s.ring.opPool p.1).sqe := by
  have hat (p : Slot × Int32) (hp : p ∈ done) : s.At (queue ++ batch) p.1 (.returned p.2) := by
    show (p.1, p.2) ∈ s.pc.done
    rw [hpc]
    exact hp
  have hmine (p : Slot × Int32) (hp : p ∈ s.pc.done) : p ∈ done := by
    rw [hpc] at hp
    exact hp
  have hposts {op : Slot} {st : Stage} (hop : s.At (queue ++ batch) op st) (res : Int32) (reads : List ℕ)
      (p : Slot × Int32) (hp : p ∈ done) (hne : p.1 ≠ op) :
      (s.ring.toVault.slipEnginePost op res reads).opPool p.1 = s.ring.opPool p.1 := by
    obtain ⟨_, _, hc⟩ := Vault.slipEnginePost_completes h.placed.vault (h.placed.nodup_with hop)
      h.placed.length_le.2.1 res reads
    exact h.placed.untouched hc (hat p hp) (by simpa using hne)
  cases l with
  | write r =>
    cases hs
    exact fun p _ => hk.sqe p.1
  | read k =>
    cases hs
    exact fun p _ => rfl
  | offFinish op res ticket =>
    cases hs
    cases ticket
    all_goals exact fun p _ => rfl
  | offPost op reads =>
    simp only [Core.step, Core.offPost] at hs
    split at hs <;> cases hs
    next res hoff =>
    intro p hp
    have hop : s.At (queue ++ batch) op (.off res) := hoff
    refine congrArg EngOp.sqe (hposts hop res reads p (hmine p hp) ?_)
    rintro rfl
    cases h.placed.exclusive hop (hat p (hmine p hp))
  | emit u res fl reads =>
    cases hs
    intro p hp
    obtain ⟨_, _, _, hc, -⟩ := Vault.slipEngineEmit_completes h.placed.vault h.placed.nodup
      h.placed.length_le.2.1 u res fl reads
    exact congrArg EngOp.sqe (h.placed.untouched hc (hat p (hmine p hp)) List.not_mem_nil)
  | complete reads =>
    simp only [Core.step, Core.complete, hpc] at hs
    cases done with
    | nil =>
      cases hs
      exact fun p hp => absurd hp List.not_mem_nil
    | cons q done =>
      cases hs
      intro p hp
      have hp : p ∈ done := hp
      rw [complete_toVault]
      refine congrArg EngOp.sqe (hposts (hat q List.mem_cons_self) q.2 reads p (List.mem_cons_of_mem q hp) ?_)
      -- the op of the first place stands at no other
      intro heq
      have hplaces := h.placed.places q.1
      have hcount : 0 < (done.map Prod.fst).count q.1 :=
        List.count_pos_iff.mpr (heq ▸ List.mem_map_of_mem hp)
      simp only [hpc, Pc.inEnter, Pc.done, List.count_append, List.map_cons, List.count_cons_self] at hplaces
      split at hplaces <;> omega
  | _ =>
    simp [Core.step, Core.takeSqe, Core.append, Core.queueStep, Core.post, Core.settle, Core.check,
      Core.execDone, Core.execTake, Core.execPending, Core.cancelHeld, Core.cancelQueued, Core.handBack,
      Core.waitReturn, Core.waitFail, hpc] at hs

theorem Vault.gives_congr {v w : Vault} {done : List (Slot × Int32)}
    (h : ∀ p ∈ done, (w.opPool p.1).sqe = (v.opPool p.1).sqe) : w.gives done = v.gives done :=
  List.countP_congr fun p hp => by rw [h p hp]

theorem completing_stays {f : Frame} {done : List (Slot × Int32)} (hpc : s.pc = .complete f done)
    (hl : ∀ reads, l ≠ .complete reads) (hs : s.step l = some s') : s'.pc = s.pc := by
  cases l with
  | complete reads => exact absurd rfl (hl reads)
  | write r | read k | emit u res fl reads =>
    cases hs
    rfl
  | offFinish op res ticket =>
    cases hs
    cases ticket
    all_goals rfl
  | offPost op reads =>
    simp only [Core.step, Core.offPost] at hs
    split at hs <;> cases hs
    rfl
  | _ =>
    simp [Core.step, Core.takeSqe, Core.append, Core.queueStep, Core.post, Core.settle, Core.check,
      Core.execDone, Core.execTake, Core.execPending, Core.cancelHeld, Core.cancelQueued, Core.handBack,
      Core.waitReturn, Core.waitFail, hpc] at hs

/-- The completion of one op of the batch brings its CQE; the rest of the batch still does. -/
theorem Rep.budget_complete (h : Rep s a free backlog queue batch) (hw : a.WellFormed) {f : Frame}
    {done : List (Slot × Int32)} (hpc : s.pc = .complete f done) (hk : Keeps s l)
    (hreads : Vault.NoReads l.reads) (hs : s.step l = some s') : s.budget ≤ s'.budget := by
  have hbrought := h.brought_step hw hk hreads hs
  have hsqe := h.done_sqe hpc hk hs
  have hgives := Vault.gives_congr hsqe
  by_cases hl : l = .complete l.reads
  · rw [hl] at hs hbrought
    simp only [Core.step, Core.complete, hpc] at hs
    cases done with
    | nil =>
      cases hs
      simp only [Core.budget, hpc]
      exact Nat.le_refl _
    | cons q done =>
      have hx : s.At (queue ++ batch) q.1 (.returned q.2) := by
        show (q.1, q.2) ∈ s.pc.done
        rw [hpc]
        exact List.mem_cons_self
      obtain ⟨i, hi, -, hcopy⟩ := h.placed.tracks.owner q.1 _ hx
      obtain ⟨g, hg, -, hgiven⟩ := gives_spec hi hcopy q.2
      have hev : s.events (.complete l.reads) = s.gives q.1 q.2 := by simp only [Core.events, hpc]
      -- the op's own completion, as the batch counts it
      have hone : s.ring.gives (q :: done) = (givenBy (s.gives q.1 q.2)).length + s.ring.gives done := by
        rw [hg, ← hgiven, Vault.gives, List.countP_cons, Vault.completionOf]
        by_cases hskip : (0 ≤ q.2 && (s.ring.opPool q.1).sqe.flags.cqeSkipSuccess) = true
        · simp [hskip, Vault.gives]
        · simp [hskip, hi, Vault.gives, Nat.add_comm]
      have hdone : s'.pc.done = done := by
        cases hs
        rfl
      rw [hdone] at hgives
      rw [hev] at hbrought
      have hbatch : s.pc.done = q :: done := by
        rw [hpc]
        rfl
      rw [Core.budget, Core.budget, hdone, hgives, hbatch, hone]
      omega
  · have hstays := completing_stays hpc (fun reads hreads => hl (by rw [hreads]; rfl)) hs
    rw [hstays] at hgives
    rw [Core.budget, Core.budget, hstays, hgives]
    omega

/-- The backlog is drained as far as the CQ has room. -/
theorem Rep.settle_drains (h : Rep s a free backlog queue batch) {reads : List ℕ}
    (hs : s.settle reads = some s') : s'.ring.parked = [] ∨ s'.ring.cqRoom = false := by
  simp only [Core.settle] at hs
  split at hs <;> cases hs
  simp only [settleWorkerTicket_toVault]
  refine (Vault.drain_fresh h.placed.vault h.placed.nodup h.placed.length_le.2.1 reads).imp_left ?_
  intro hempty
  rw [Vault.parked, hempty]
  cases (s.ring.drainBacklogLocked reads).1.opPoolN <;> rfl

end Step

end SlipstreamIO.Engine
