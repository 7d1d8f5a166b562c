import SlipstreamIO.Conservation
import SlipstreamIO.PosixMachine

/-! What a step of the engine leaves alone: the backend's own fields, and every op the backend holds
or executes that the step is not about. -/
namespace SlipstreamIO.Engine

open ThreadedList Runs

/-- The op a label takes out of the backend's hands. -/
def CoreLabel.releases : CoreLabel → Option Slot
  | .cancelHeld t _ => some t
  | .offPost op _ => some op
  | _ => none

/-- The backend has the op: holds it, has still to post it, or executes it. -/
def Core.has (s : Core) (x : Slot) : Prop := s.hands x ≠ .none ∨ s.pc.executing = some x

/-- The fixed table with its alloc range and hint. -/
def Ring.fileTable (r : Ring) : Option (List Int32) × ℕ × ℕ × ℕ := (r.fixed, r.allocOff, r.allocLen, r.allocHint)

/-- The fields of the ring that the engine leaves to the backend. -/
structure Ring.SameBackend (r r' : Ring) : Prop where
  waiting : r'.waiting = r.waiting
  wqHead : r'.wqHead = r.wqHead
  wqTail : r'.wqTail = r.wqTail
  fileTable : r'.fileTable = r.fileTable

theorem Vault.Rep.setOp {v : Vault} {free backlog : List Slot} {x : Slot} (h : v.Rep free backlog)
    (hf : x ∉ free) (hb : x ∉ backlog) (o : EngOp) : (v.setOp x o).Rep free backlog := by
  have hne {l : List Slot} (hx : x ∉ l) : ∀ y ∈ l, (v.setOp x o).next y = v.next y := by
    intro y hy
    have hyx : y ≠ x := by
      rintro rfl
      exact hx hy
    simp [Vault.next, hyx]
  exact ⟨h.free.congr (hne hf), h.backlog.congr (hne hb)⟩

section Frames
variable {s s' : Core} {a : Chains} {free backlog queue batch : List Slot} {l : CoreLabel} {x : Slot}

/-- What the backend has is nowhere else. -/
theorem Placed.apart (h : Placed s a free backlog queue batch) (hx : s.has x) :
    x ∉ free ∧ x ∉ backlog ∧ x ∉ queue ∧ x ∉ batch ∧ (∀ res, s.pc.posting ≠ some (x, res)) ∧
      ∀ res, (x, res) ∉ s.pc.done := by
  have hp := h.places x
  have hin : s.hands x ≠ .none → s.holds x = 1 := fun hne => by simp [Core.holds, hne]
  have hexec : s.pc.executing = some x → 0 < s.pc.inEnter.count x := by
    intro he
    rw [List.count_pos_iff]
    simp [Pc.inEnter, he]
  have hlists : free.count x = 0 ∧ backlog.count x = 0 ∧ queue.count x = 0 ∧ batch.count x = 0 := by
    obtain hx | hx := hx
    · have := hin hx
      split at hp <;> omega
    · have := hexec hx
      split at hp <;> omega
  have hpost (res : Int32) : s.pc.posting ≠ some (x, res) := by
    intro hpost
    obtain hx | hx := hx
    · have := hin hx
      have : 0 < s.pc.inEnter.count x := List.count_pos_iff.mpr (by simp [Pc.inEnter, hpost])
      split at hp <;> omega
    · cases hpc : s.pc <;> simp [hpc, Pc.executing, Pc.posting] at hx hpost
  have hdone (res : Int32) : (x, res) ∉ s.pc.done := by
    intro hdone
    obtain hx | hx := hx
    · have := hin hx
      have : 0 < s.pc.inEnter.count x := by
        rw [List.count_pos_iff]
        simp only [Pc.inEnter, List.mem_append, List.mem_map]
        exact .inr ⟨(x, res), hdone, rfl⟩
      split at hp <;> omega
    · cases hpc : s.pc <;> simp [hpc, Pc.executing, Pc.done] at hx hdone
  obtain ⟨h₁, h₂, h₃, h₄⟩ := hlists
  exact ⟨List.count_eq_zero.mp h₁, List.count_eq_zero.mp h₂, List.count_eq_zero.mp h₃,
    List.count_eq_zero.mp h₄, hpost, hdone⟩

/-- A post leaves what the backend has alone, if it is not about it. -/
theorem Placed.post_others {op : Slot} {st : Stage} (h : Placed s a free backlog queue batch)
    (hop : s.At (queue ++ batch) op st) (hx : s.has x) (hne : x ≠ op) (res : Int32)
    (reads : List ℕ) :
    (s.ring.toVault.slipEnginePost op res reads).opPool x = s.ring.opPool x := by
  obtain ⟨free', backlog', hc⟩ := Vault.slipEnginePost_completes h.vault (h.nodup_with hop)
    h.length_le.2.1 res reads
  obtain ⟨hf, hb, -⟩ := h.apart hx
  exact hc.others x hf hb (by simpa using hne)

theorem Placed.emit_others (h : Placed s a free backlog queue batch) (hx : s.has x) (u : UInt64)
    (res : Int32) (fl : UInt32) (reads : List ℕ) :
    (s.ring.toVault.slipEngineEmit u res fl reads).opPool x = s.ring.opPool x := by
  obtain ⟨_, _, _, hc, -⟩ := Vault.slipEngineEmit_completes h.vault h.nodup h.length_le.2.1 u res fl
    reads
  obtain ⟨hf, hb, -⟩ := h.apart hx
  exact hc.others x hf hb List.not_mem_nil

theorem settleWorkerTicket_toVault (r : Ring) (reads : List ℕ) :
    (r.settleWorkerTicket reads).toVault = (r.toVault.drainBacklogLocked reads).1 := by
  unfold Ring.settleWorkerTicket
  split
  · split <;> rfl
  · rfl

theorem complete_toVault (r : Ring) (op : Slot) (res : Int32) (reads : List ℕ) :
    (r.complete op res reads).toVault = r.toVault.slipEnginePost op res reads := by
  unfold Ring.complete
  split
  · rfl
  · split <;> rfl

/-- `process_queue` takes the head and leaves what the backend has alone. -/
theorem Rep.queueStep_others (h : Rep s a free backlog queue batch) (hx : s.has x)
    {target : MsgTarget} {reads : List ℕ} (hs : s.queueStep target reads = some s') :
    s'.ring.opPool x = s.ring.opPool x := by
  obtain ⟨hf, hb, hq, -⟩ := h.placed.apart hx
  simp only [Core.queueStep] at hs
  split at hs
  swap
  · cases hs
  split at hs
  · cases hs
    rfl
  next op hop =>
  have hmem : op ∈ queue := List.mem_of_mem_head? (h.placed.queueList.head_eq ▸ hop)
  have hne : x ≠ op := by
    rintro rfl
    exact hq hmem
  have hqueued : s.At (queue ++ batch) op .queued := List.mem_append_left _ hmem
  obtain ⟨hopf, hopb, -⟩ := h.placed.outside hqueued
  have hset (o : EngOp) : (s.ring.toVault.setOp op o).opPool x = s.ring.opPool x := if_neg hne
  split at hs
  · cases hs
    rfl
  split at hs
  · split at hs <;> cases hs
    · rw [← hset { s.ring.opPool op with next := s.ring.opFree }]
      simp [Ring.popQueue, Ring.inVault, Vault.opRelease, Vault.setNext, hne]
    · exact hset _
  split at hs
  · cases hs
    exact hset _
  generalize (_ && _ && _ : Bool) = resolves at hs
  generalize (if resolves = true then _ else _ : EngOp) = o at hs
  have hvault : ((s.ring.popQueue op).inVault (·.setOp op o)).toVault = s.ring.toVault.setOp op o :=
    Vault.setOp_setOp _ _ _ _
  have hrep := h.placed.vault.setOp hopf hopb o
  split at hs <;> cases hs
  · obtain ⟨_, _, _, hc, -⟩ := msgRing_completes (hvault ▸ hrep) h.placed.nodup
      (hvault ▸ h.placed.length_le.2.1) o.sqe target reads
    rw [hc.others x hf hb List.not_mem_nil, hvault]
    exact hset o
  · rw [hvault]
    exact hset o

/-- Enter takes an SQE into an op of its own. -/
theorem Rep.takeSqe_others (h : Rep s a free backlog queue batch) (hx : s.has x)
    (hs : s.takeSqe = some s') : s'.ring.opPool x = s.ring.opPool x := by
  obtain ⟨hf, -, -, hb, -⟩ := h.placed.apart hx
  simp only [Core.takeSqe] at hs
  split at hs
  swap
  · cases hs
  next call entry rest submitted batchHead batchTail hpc =>
  have htail (t : Slot) (ht : batchTail = some t) : x ≠ t := by
    rintro rfl
    apply hb
    apply List.mem_of_getLast?
    rw [← h.placed.batchList.tail, hpc]
    exact ht
  split at hs
  · cases hs
    rfl
  split at hs
  · cases hs
    rfl
  next op v halloc =>
  cases hs
  unfold Vault.opAllocLocked at halloc
  split at halloc
  · cases halloc
  next y hfree =>
  cases halloc
  have hne : x ≠ op := by
    rintro rfl
    apply hf
    cases free with
    | nil => cases hfree.symm.trans h.placed.vault.free
    | cons z free =>
      cases hfree.symm.trans h.placed.vault.free.1
      exact List.mem_cons_self
  cases batchTail with
  | none => simp [Ring.inVault, hne]
  | some t => simp [Ring.inVault, Vault.setNext, hne, htail t rfl]

/-- The batch goes behind the queue. -/
theorem Rep.append_others (h : Rep s a free backlog queue batch) (hx : s.has x)
    (hs : s.append = some s') : s'.ring.opPool x = s.ring.opPool x := by
  obtain ⟨-, -, hq, -⟩ := h.placed.apart hx
  simp only [Core.append] at hs
  split at hs
  swap
  · cases hs
  split at hs <;> cases hs
  · rfl
  unfold Ring.appendBatch
  cases ht : s.ring.queueTail with
  | none => rfl
  | some t =>
    have hne : x ≠ t := by
      rintro rfl
      exact hq (List.mem_of_getLast? (h.placed.queueList.tail.symm.trans ht))
    exact if_neg hne

/-- A cancel takes an op out of the queue: the cell in front of it is rewritten, and the op posted. -/
theorem Rep.cancelQueued_spec (h : Rep s a free backlog queue batch) {p : Link Slot}
    {reads : List ℕ} (hk : Keeps s (.cancelQueued p reads)) (hs : s.cancelQueued p reads = some s') :
    ∃ t pre suf given free' backlog', queue = pre ++ t :: suf ∧ p = Link.after pre ∧
      s' = { s with ring := (s.ring.unlinkQueued p t).cancelTarget t reads } ∧
      (s.ring.unlinkQueued p t).toVault.Rep free backlog ∧
      (s.ring.unlinkQueued p t).toVault.Completes s'.ring.toVault free backlog [t] given free'
        backlog' ∧
      (∀ y, y ∉ pre → (s.ring.unlinkQueued p t).opPool y = s.ring.opPool y) ∧
      Threads s'.ring.next s'.ring.queueHead (pre ++ suf) := by
  unfold Core.cancelQueued at hs
  split at hs
  swap
  · cases hs
  next f c l t hpc hread =>
  cases hs
  have hbatch : batch = [] := h.placed.batch_nil (by simp [Pc.batchHead, hpc])
  subst hbatch
  obtain ⟨pre, suf, _, _, _, rfl, rfl, -⟩ := h.placed.split_queue hk.1 hread
  have hqueued (y : Slot) (hy : y ∈ pre ++ t :: suf) :
      s.At (pre ++ t :: suf ++ []) y .queued := List.mem_append_left _ hy
  have hpre : ∀ y, Link.after pre = .nextOf y → y ∈ pre := by
    intro y hy
    unfold Link.after at hy
    split at hy
    · cases hy
    · next hlast =>
      cases hy
      exact List.mem_of_getLast? hlast
  have hpool (y : Slot) (hy : y ∉ pre) :
      (s.ring.unlinkQueued (Link.after pre) t).opPool y = s.ring.opPool y := by
    rw [unlinkQueued_opPool, unlinkQueued_next, if_neg (fun hz => hy (hpre y hz))]
    rfl
  have hrep : (s.ring.unlinkQueued (Link.after pre) t).toVault.Rep free backlog := by
    have hnext (l : List Slot) (hl : ∀ y ∈ l, y ∉ pre) (y : Slot) (hy : y ∈ l) :
        (s.ring.unlinkQueued (Link.after pre) t).next y = s.ring.next y := by
      rw [Vault.next, hpool y (hl y hy)]
      rfl
    constructor
    · rw [unlinkQueued_opFree]
      apply h.placed.vault.free.congr
      apply hnext
      intro y hy hyp
      exact (h.placed.outside (hqueued y (List.mem_append_left _ hyp))).1 hy
    · rw [unlinkQueued_backlogHead, unlinkQueued_backlogTail]
      apply h.placed.vault.backlog.congr
      apply hnext
      intro y hy hyp
      exact (h.placed.outside (hqueued y (List.mem_append_left _ hyp))).2.1 hy
  obtain ⟨free', backlog', hc⟩ := Vault.slipEnginePost_completes hrep
    (h.placed.nodup_with (hqueued t (by simp)))
    (by rw [unlinkQueued_opPoolN]; exact h.placed.length_le.2.1) (-ecanceled) reads
  have hvault : ((s.ring.unlinkQueued (Link.after pre) t).cancelTarget t reads).toVault =
      (s.ring.unlinkQueued (Link.after pre) t).toVault.slipEnginePost t (-ecanceled) reads := by
    rw [cancelTarget_eq]
  have hc' := hc
  rw [← hvault] at hc'
  refine ⟨t, pre, suf, _, free', backlog', rfl, rfl, rfl, hrep, hc', hpool, ?_⟩
  · have hnd := threads_nodup h.placed.queueList.threads
    have hqh : ((s.ring.unlinkQueued (Link.after pre) t).cancelTarget t reads).queueHead =
        (s.ring.unlinkQueued (Link.after pre) t).queueHead := by
      rw [cancelTarget_eq]
    have hunlinked : Threads (s.ring.unlinkQueued (Link.after pre) t).next
        (s.ring.unlinkQueued (Link.after pre) t).queueHead (pre ++ suf) := by
      apply h.placed.queueList.threads.unlink hnd
      · intro hp
        rw [unlinkQueued_queueHead, if_pos hp]
      · intro hp
        rw [unlinkQueued_queueHead, if_neg hp]
      · intro y hy
        rw [unlinkQueued_next, if_pos hy]
      · intro y hy
        rw [unlinkQueued_next, if_neg hy]
    rw [hqh]
    apply hunlinked.congr
    intro y hy
    have hmem : y ∈ pre ++ t :: suf := by
      simp only [List.mem_append, List.mem_cons] at hy ⊢
      tauto
    obtain ⟨hyf, hyb, -⟩ := h.placed.outside (hqueued y hmem)
    have hne : y ∉ [t] := by
      rw [List.mem_singleton]
      rintro rfl
      exact (List.nodup_cons.mp (List.nodup_middle.mp hnd)).1 hy
    rw [Vault.next, hvault, hc.others y hyf hyb hne]
    rfl

theorem Rep.cancelQueued_others (h : Rep s a free backlog queue batch) (hx : s.has x) {p : Link Slot}
    {reads : List ℕ} (hk : Keeps s (.cancelQueued p reads)) (hs : s.cancelQueued p reads = some s') :
    s'.ring.opPool x = s.ring.opPool x := by
  obtain ⟨hf, hb, hq, -⟩ := h.placed.apart hx
  obtain ⟨t, pre, suf, _, _, _, rfl, rfl, rfl, hrep, hc, hpool, -⟩ := h.cancelQueued_spec hk hs
  have hne : x ∉ [t] := by
    rw [List.mem_singleton]
    rintro rfl
    exact hq (by simp)
  rw [hc.others x hf hb hne, hpool x (fun hxp => hq (by simp [hxp]))]

/-- What the backend has, a step that is not its own write leaves alone but for what it releases. -/
theorem Rep.others (h : Rep s a free backlog queue batch) (hk : Keeps s l) (hs : s.step l = some s')
    (hw : ∀ r, l ≠ .write r) (hx : s.has x) (hne : l.releases ≠ some x) :
    s'.ring.opPool x = s.ring.opPool x := by
  obtain ⟨hf, hb, hq, -, hpost, hdone⟩ := h.placed.apart hx
  cases l with
  | write r => exact absurd rfl (hw r)
  | takeSqe => exact h.takeSqe_others hx hs
  | append => exact h.append_others hx hs
  | queueStep target reads => exact h.queueStep_others hx hs
  | cancelQueued p reads => exact h.cancelQueued_others hx hk hs
  | read k =>
    cases hs
    rfl
  | emit u res fl reads =>
    cases hs
    exact h.placed.emit_others hx u res fl reads
  | offFinish op res ticket =>
    cases hs
    unfold Core.offFinish
    split <;> rfl
  | post reads =>
    simp only [Core.step, Core.post] at hs
    split at hs <;> cases hs
    next f op res hpc =>
    have hposting : s.pc.posting = some (op, res) := by rw [hpc]; rfl
    apply h.placed.post_others (show s.At (queue ++ batch) op (.posting res) from hposting) hx
    rintro rfl
    exact hpost res hposting
  | complete reads =>
    simp only [Core.step, Core.complete] at hs
    split at hs <;> cases hs
    · next f op res done hpc =>
      have hmem : (op, res) ∈ s.pc.done := by simp [hpc, Pc.done]
      rw [complete_toVault]
      apply h.placed.post_others (show s.At (queue ++ batch) op (.returned res) from hmem) hx
      rintro rfl
      exact hdone res hmem
    · rfl
  | settle reads =>
    simp only [Core.step, Core.settle] at hs
    split at hs <;> cases hs
    rw [settleWorkerTicket_toVault]
    obtain ⟨_, _, hc, -⟩ := Vault.Completes.drain h.placed.vault h.placed.nodup h.placed.length_le.2.1
      reads
    exact hc.others x hf hb List.not_mem_nil
  | offPost op reads =>
    simp only [Core.step, Core.offPost] at hs
    split at hs <;> cases hs
    next res hoff =>
    apply h.placed.post_others (show s.At (queue ++ batch) op (.off res) from hoff) hx
    rintro rfl
    exact hne rfl
  | cancelHeld t reads =>
    simp only [Core.step, Core.cancelHeld] at hs
    split at hs <;> cases hs
    rw [cancelTarget_eq]
    apply h.placed.post_others (show s.At (queue ++ batch) t .held from hk.1) hx
    rintro rfl
    exact hne rfl
  | enter call | check left | execDone res | execTake | execPending | handBack op res | waitReturn
  | waitFail =>
    simp only [Core.step, Core.check, Core.execDone, Core.execTake, Core.execPending, Core.handBack,
      Core.waitReturn, Core.waitFail] at hs
    repeat' split at hs
    all_goals cases hs
    all_goals rfl

theorem Ring.SameBackend.refl (r : Ring) : r.SameBackend r := ⟨rfl, rfl, rfl, rfl⟩

theorem Ring.SameBackend.trans {r r' r'' : Ring} (h : r.SameBackend r') (h' : r'.SameBackend r'') :
    r.SameBackend r'' :=
  ⟨h'.waiting.trans h.waiting, h'.wqHead.trans h.wqHead, h'.wqTail.trans h.wqTail,
    h'.fileTable.trans h.fileTable⟩

theorem queueStep_sameBackend {target : MsgTarget} {reads : List ℕ}
    (hs : s.queueStep target reads = some s') :
    s.ring.SameBackend s'.ring ∧ s'.hands = s.hands := by
  simp only [Core.queueStep] at hs
  split at hs
  swap
  · cases hs
  split at hs
  · cases hs
    exact ⟨.refl _, rfl⟩
  split at hs
  · cases hs
    exact ⟨.refl _, rfl⟩
  split at hs
  · split at hs <;> cases hs <;> exact ⟨⟨rfl, rfl, rfl, rfl⟩, rfl⟩
  split at hs
  · cases hs
    exact ⟨⟨rfl, rfl, rfl, rfl⟩, rfl⟩
  generalize (_ && _ && _ : Bool) = resolves at hs
  generalize (if resolves = true then _ else _ : EngOp) = o at hs
  split at hs <;> cases hs
  · rw [msgRing_ring]
    exact ⟨⟨rfl, rfl, rfl, rfl⟩, rfl⟩
  · exact ⟨⟨rfl, rfl, rfl, rfl⟩, rfl⟩

theorem cancelTarget_sameBackend (r : Ring) (t : Slot) (reads : List ℕ) :
    r.SameBackend (r.cancelTarget t reads) := by
  rw [cancelTarget_eq]
  exact ⟨rfl, rfl, rfl, rfl⟩

theorem unlinkQueued_sameBackend (r : Ring) (p : Link Slot) (t : Slot) :
    r.SameBackend (r.unlinkQueued p t) := by
  unfold Ring.unlinkQueued
  cases p <;> (dsimp only; split <;> exact ⟨rfl, rfl, rfl, rfl⟩)

/-- A step of the engine itself touches nothing of the backend. -/
theorem engine_sameBackend (hl : l.isEngine = true) (hs : s.step l = some s') :
    s.ring.SameBackend s'.ring ∧ s'.hands = s.hands := by
  cases l with
  | queueStep target reads => exact queueStep_sameBackend hs
  | takeSqe =>
    simp only [Core.step, Core.takeSqe] at hs
    repeat' split at hs
    all_goals cases hs
    all_goals exact ⟨⟨rfl, rfl, rfl, rfl⟩, rfl⟩
  | append =>
    simp only [Core.step, Core.append] at hs
    repeat' split at hs
    all_goals cases hs
    · exact ⟨.refl _, rfl⟩
    · unfold Ring.appendBatch
      split <;> exact ⟨⟨rfl, rfl, rfl, rfl⟩, rfl⟩
  | settle reads =>
    simp only [Core.step, Core.settle] at hs
    split at hs <;> cases hs
    unfold Ring.settleWorkerTicket
    split
    · split <;> exact ⟨⟨rfl, rfl, rfl, rfl⟩, rfl⟩
    · exact ⟨⟨rfl, rfl, rfl, rfl⟩, rfl⟩
  | complete reads =>
    simp only [Core.step, Core.complete] at hs
    split at hs <;> cases hs
    · unfold Ring.complete
      split
      · exact ⟨⟨rfl, rfl, rfl, rfl⟩, rfl⟩
      · split <;> exact ⟨⟨rfl, rfl, rfl, rfl⟩, rfl⟩
    · exact ⟨.refl _, rfl⟩
  | enter call | post reads | check left | read k =>
    simp only [Core.step, Core.post, Core.check] at hs
    repeat' split at hs
    all_goals cases hs
    all_goals exact ⟨⟨rfl, rfl, rfl, rfl⟩, rfl⟩
  | write r | execDone res | execTake | execPending | cancelHeld t reads | cancelQueued p reads
  | handBack op res | waitReturn | waitFail | offFinish op res ticket | offPost op reads
  | emit u res fl reads => cases hl

end Frames

end SlipstreamIO.Engine
