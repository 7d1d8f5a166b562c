import SlipstreamIO.CoreFrames

/-! What holds of every op that is in use, neither free nor finished into the backlog: kept by the
engine's own steps when it holds of a new op and reads neither the link nor the SQE. -/
namespace SlipstreamIO.Engine

open ThreadedList Runs

/-- Every op that is neither free nor in the backlog has the property. -/
def Vault.Live (v : Vault) (P : Slot → EngOp → Prop) : Prop :=
  ∃ free backlog, v.Rep free backlog ∧ ∀ x, x ∉ free → x ∉ backlog → P x (v.opPool x)

/-- A property of an op that a new op has, and that reads neither its link nor its SQE. -/
structure OfOp (P : Slot → EngOp → Prop) : Prop where
  new : ∀ x sqe next seq, P x { sqe := sqe, next := next, seq := seq }
  relink : ∀ x o sqe next, P x o → P x { o with sqe := sqe, next := next }

theorem Vault.Rep.unique {v : Vault} {free backlog free' backlog' : List Slot} (h : v.Rep free backlog)
    (h' : v.Rep free' backlog') : free' = free ∧ backlog' = backlog :=
  ⟨threads_unique h'.free h.free, threads_unique h'.backlog.threads h.backlog.threads⟩

section Live
variable {v v' : Vault} {P : Slot → EngOp → Prop} {free backlog free' backlog' ops : List Slot}
  {given : List (Option ℕ × Cqe)}

theorem Vault.Live.mem (h : v.Live P) (hr : v.Rep free backlog) {x : Slot} (hf : x ∉ free)
    (hb : x ∉ backlog) : P x (v.opPool x) := by
  obtain ⟨f, b, hr', hP⟩ := h
  obtain ⟨rfl, rfl⟩ := hr.unique hr'
  exact hP x hf hb

theorem Vault.Live.imp {Q : Slot → EngOp → Prop} (h : v.Live P) (hPQ : ∀ x o, P x o → Q x o) :
    v.Live Q := by
  obtain ⟨f, b, hr, hP⟩ := h
  exact ⟨f, b, hr, fun x hf hb => hPQ x _ (hP x hf hb)⟩

theorem Vault.Live.completes (h : v.Live P)
    (hc : v.Completes v' free backlog ops given free' backlog') (hr : v.Rep free backlog) :
    v'.Live fun x o => P x o ∧ x ∉ ops := by
  refine ⟨free', backlog', hc.rep, fun x hf hb => ?_⟩
  have hout : ¬ (x ∈ free ∨ x ∈ backlog ∨ x ∈ ops) := by
    rw [← hc.mem x]
    tauto
  rw [hc.others x (by tauto) (by tauto) (by tauto)]
  exact ⟨h.mem hr (by tauto) (by tauto), by tauto⟩

/-- An op that is in use is rewritten. -/
theorem Vault.Live.setOp (h : v.Live P) (hr : v.Rep free backlog) {x : Slot} {o : EngOp}
    (hf : x ∉ free) (hb : x ∉ backlog) (ho : P x o) : (v.setOp x o).Live P := by
  refine ⟨free, backlog, hr.setOp hf hb o, fun y hyf hyb => ?_⟩
  rw [Vault.setOp_opPool]
  split
  · next hyx => exact hyx ▸ ho
  · exact h.mem hr hyf hyb

end Live

section Steps
variable {s s' : Core} {a : Chains} {free backlog queue batch : List Slot} {l : CoreLabel}
  {P : Slot → EngOp → Prop}

theorem Placed.live_post {op : Slot} {st : Stage} (h : Placed s a free backlog queue batch)
    (hop : s.At (queue ++ batch) op st) (hl : s.ring.toVault.Live P) (res : Int32) (reads : List ℕ) :
    (s.ring.toVault.slipEnginePost op res reads).Live fun x o => P x o ∧ x ≠ op := by
  obtain ⟨free', backlog', hc⟩ := Vault.slipEnginePost_completes h.vault (h.nodup_with hop)
    h.length_le.2.1 res reads
  apply (hl.completes hc h.vault).imp
  intro x o hx
  exact ⟨hx.1, by simpa using hx.2⟩

theorem Placed.live_emit (h : Placed s a free backlog queue batch) (hl : s.ring.toVault.Live P)
    (u : UInt64) (res : Int32) (fl : UInt32) (reads : List ℕ) :
    (s.ring.toVault.slipEngineEmit u res fl reads).Live P := by
  obtain ⟨_, _, _, hc, -⟩ := Vault.slipEngineEmit_completes h.vault h.nodup h.length_le.2.1 u res fl
    reads
  exact (hl.completes hc h.vault).imp fun _ _ => And.left

theorem Rep.live_queueStep (h : Rep s a free backlog queue batch) (hP : OfOp P)
    (hl : s.ring.toVault.Live P) {target : MsgTarget} {reads : List ℕ}
    (hs : s.queueStep target reads = some s') : s'.ring.toVault.Live P := by
  simp only [Core.queueStep] at hs
  split at hs
  swap
  · cases hs
  split at hs
  · cases hs
    exact hl
  next op hop =>
  have hmem : op ∈ queue := List.mem_of_mem_head? (h.placed.queueList.head_eq ▸ hop)
  have hqueued : s.At (queue ++ batch) op .queued := List.mem_append_left _ hmem
  obtain ⟨hf, hb, -⟩ := h.placed.outside hqueued
  have hold := hl.mem h.placed.vault hf hb
  have hset (sqe : Sqe) (next : Option Slot) :
      (s.ring.toVault.setOp op { s.ring.opPool op with sqe := sqe, next := next }).Live P :=
    hl.setOp h.placed.vault hf hb (hP.relink op _ sqe next hold)
  split at hs
  · cases hs
    exact hl
  split at hs
  · split at hs <;> cases hs
    · have hc := Vault.Completes.release (h.placed.vault.setOp hf hb
        { s.ring.opPool op with next := none }) hf hb
      exact ((hset _ none).completes hc (h.placed.vault.setOp hf hb _)).imp fun _ _ => And.left
    · exact hset _ none
  split at hs
  · cases hs
    exact hset _ none
  generalize (_ && _ && _ : Bool) = resolves at hs
  have hpop : (s.ring.popQueue op).opPool op = { s.ring.opPool op with next := none } := by
    simp [Ring.popQueue, Vault.setNext]
  generalize ho : (if resolves = true then _ else _ : EngOp) = o at hs
  have hvault : ((s.ring.popQueue op).inVault (·.setOp op o)).toVault = s.ring.toVault.setOp op o :=
    Vault.setOp_setOp _ _ _ _
  have hlive : (s.ring.toVault.setOp op o).Live P := by
    rw [← ho, hpop]
    split <;> exact hset _ none
  split at hs <;> cases hs
  · have hrep := h.placed.vault.setOp hf hb o
    obtain ⟨_, _, _, hc, -⟩ := msgRing_completes (hvault ▸ hrep) h.placed.nodup
      (hvault ▸ h.placed.length_le.2.1) o.sqe target reads
    rw [hvault] at hc
    exact (hlive.completes hc hrep).imp fun _ _ => And.left
  · rw [hvault]
    exact hlive

theorem Rep.live_takeSqe (h : Rep s a free backlog queue batch) (hP : OfOp P)
    (hl : s.ring.toVault.Live P) (hs : s.takeSqe = some s') : s'.ring.toVault.Live P := by
  simp only [Core.takeSqe] at hs
  split at hs
  swap
  · cases hs
  next call entry rest submitted batchHead batchTail hpc =>
  split at hs
  · cases hs
    exact hl
  next sqe =>
  split at hs
  · cases hs
    exact hl
  next op v halloc =>
  cases hs
  cases free with
  | nil =>
    rw [(Vault.opAllocLocked_none h.placed.vault).mpr rfl] at halloc
    cases halloc
  | cons x free =>
    obtain ⟨w, hw, hrep, hfresh, hothers, -⟩ := Vault.opAllocLocked_cons h.placed.vault h.placed.nodup
    cases halloc.symm.trans hw
    obtain ⟨hxf, hxb⟩ : op ∉ free ∧ op ∉ backlog := by
      simpa using (List.nodup_cons.mp h.placed.nodup).1
    have hlive : (v.setOp op { v.opPool op with sqe := sqe, seq := some s.accepted }).Live P := by
      refine ⟨free, backlog, hrep.setOp hxf hxb _, fun y hyf hyb => ?_⟩
      rw [Vault.setOp_opPool]
      split
      · next hy =>
        rw [hfresh, hy]
        exact hP.new _ _ _ _
      · next hy =>
        rw [hothers y hy]
        exact hl.mem h.placed.vault (by simp [hy, hyf]) hyb
    cases batchTail with
    | none => exact hlive
    | some t =>
      have ht : t ∈ batch := by
        apply List.mem_of_getLast?
        rw [← h.placed.batchList.tail, hpc]
        rfl
      obtain ⟨htf, htb, -⟩ := h.placed.outside
        (show s.At (queue ++ batch) t .queued from List.mem_append_right _ ht)
      have htf' : t ∉ free := fun hmem => htf (List.mem_cons_of_mem _ hmem)
      have hrep' := hrep.setOp hxf hxb
        { v.opPool op with sqe := sqe, seq := some s.accepted }
      exact hlive.setOp hrep' htf' htb (hP.relink t _ _ _ (hlive.mem hrep' htf' htb))

theorem Rep.live_append (h : Rep s a free backlog queue batch) (hP : OfOp P)
    (hl : s.ring.toVault.Live P) (hs : s.append = some s') : s'.ring.toVault.Live P := by
  simp only [Core.append] at hs
  split at hs
  swap
  · cases hs
  split at hs <;> cases hs
  · exact hl
  unfold Ring.appendBatch
  cases ht : s.ring.queueTail with
  | none => exact hl
  | some t =>
    have hmem : t ∈ queue := List.mem_of_getLast? (h.placed.queueList.tail.symm.trans ht)
    obtain ⟨htf, htb, -⟩ := h.placed.outside
      (show s.At (queue ++ batch) t .queued from List.mem_append_left _ hmem)
    exact hl.setOp h.placed.vault htf htb (hP.relink t _ _ _ (hl.mem h.placed.vault htf htb))

/-- A cancel that takes an op out of the queue does, too. -/
theorem Rep.live_cancelQueued (h : Rep s a free backlog queue batch) (hP : OfOp P)
    (hl : s.ring.toVault.Live P) {p : Link Slot} {reads : List ℕ}
    (hk : Keeps s (.cancelQueued p reads)) (hs : s.cancelQueued p reads = some s') :
    s'.ring.toVault.Live P := by
  obtain ⟨t, pre, suf, _, _, _, -, -, -, hrep, hc, -⟩ := h.cancelQueued_spec hk hs
  have hunlinked : (s.ring.unlinkQueued p t).toVault.Live P := by
    refine ⟨free, backlog, hrep, fun x hf hb => ?_⟩
    rw [unlinkQueued_opPool]
    exact hP.relink x _ _ _ (hl.mem h.placed.vault hf hb)
  exact (hunlinked.completes hc hrep).imp fun _ _ => And.left

/-- The engine's own steps keep what holds of every op in use. -/
theorem Rep.live_engine (h : Rep s a free backlog queue batch) (hP : OfOp P)
    (hl : s.ring.toVault.Live P) (he : l.isEngine = true) (hs : s.step l = some s') :
    s'.ring.toVault.Live P := by
  cases l with
  | queueStep target reads => exact h.live_queueStep hP hl hs
  | takeSqe => exact h.live_takeSqe hP hl hs
  | append => exact h.live_append hP hl hs
  | read k =>
    cases hs
    exact (hl.completes (Vault.Completes.callerReads h.placed.vault k) h.placed.vault).imp
      fun _ _ => And.left
  | settle reads =>
    simp only [Core.step, Core.settle] at hs
    split at hs <;> cases hs
    rw [settleWorkerTicket_toVault]
    obtain ⟨_, _, hc, -⟩ := Vault.Completes.drain h.placed.vault h.placed.nodup h.placed.length_le.2.1
      reads
    exact (hl.completes hc h.placed.vault).imp fun _ _ => And.left
  | post reads =>
    simp only [Core.step, Core.post] at hs
    split at hs <;> cases hs
    next f op res hpc =>
    have hop : s.At (queue ++ batch) op (.posting res) := by
      show s.pc.posting = _
      rw [hpc]
      rfl
    exact (h.placed.live_post hop hl res reads).imp fun _ _ => And.left
  | complete reads =>
    simp only [Core.step, Core.complete] at hs
    split at hs <;> cases hs
    · next f op res done hpc =>
      have hop : s.At (queue ++ batch) op (.returned res) := by simp [Core.At, hpc, Pc.done]
      rw [complete_toVault]
      exact (h.placed.live_post hop hl res reads).imp fun _ _ => And.left
    · exact hl
  | enter call | check left =>
    simp only [Core.step, Core.check] at hs
    repeat' split at hs
    all_goals cases hs
    all_goals exact hl
  | write r | execDone res | execTake | execPending | cancelHeld t reads | cancelQueued p reads
  | handBack op res | waitReturn | waitFail | offFinish op res ticket | offPost op reads
  | emit u res fl reads => cases he

end Steps

end SlipstreamIO.Engine
