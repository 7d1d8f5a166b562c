import SlipstreamIO.StalledQueue

/-! How far link chains get: each turn of `process_queue` begins the next op, and it ends only with all of
them begun or behind a linked op that is under way; and what the ops give is told in the CQ. -/
namespace SlipstreamIO.Engine

open Runs ThreadedList

/-- SQE `i` was started, or cancelled with its chain. -/
def HasBegun (tr : List Event) (i : ℕ) : Prop := .start i ∈ tr ∨ ∃ q, .cancel i q ∈ tr

def AllBegun (tr : List Event) : Prop := ∀ i sqe, .accept i sqe ∈ tr → HasBegun tr i

/-- What has not begun stands behind SQE `j`. -/
def BegunUpTo (tr : List Event) (j : ℕ) : Prop := ∀ i sqe, .accept i sqe ∈ tr → HasBegun tr i ∨ j < i

/-- The queue waits for the linked op `j`: it was started and has given nothing, or its ticket is still to
be settled. -/
structure WaitsFor (s : Core) (tr : List Event) (j : ℕ) : Prop where
  linked : LinkedIn tr j
  started : .start j ∈ tr
  unsettled : gives tr j = [] ∨ s.ring.blockedDone ≠ none
  behind : BegunUpTo tr j

/-- The rules of link chains, with what makes them more than rules: a turn of `process_queue` begins the
first op that has not begun, or ends the loop; where enter rests no op is left without a reason, a linked op
that is under way or one that ended on the worker and was settled behind the last `process_queue`, and what
was cancelled has given its completion; and the completions are those in the CQ and the backlog. -/
structure FollowsLinks (s : Core) (tr : List Event) : Prop where
  rules : ChainRules tr
  turn : ∀ f target reads, s.pc = .queue f →
    (∃ i sqe, .accept i sqe ∈ tr ∧ ¬ HasBegun tr i ∧
      (∀ k, k < i → ∀ sqe, .accept k sqe ∈ tr → HasBegun tr k) ∧
      (∃ s', s.queueStep target reads = some s') ∧ HasBegun (s.events (.queueStep target reads)) i) ∨
    s.queueStep target reads = some { s with pc := Core.afterQueue f } ∧
      (AllBegun tr ∨ ∃ j, WaitsFor s tr j)
  rests : s.pc.rests = true → AllBegun tr ∨ (∃ j, WaitsFor s tr j) ∨
    ∃ j res, LinkedIn tr j ∧ .result j res ∈ tr ∧ BegunUpTo tr j
  cancelled : s.pc.rests = true → ∀ i q, .cancel i q ∈ tr → gives tr i ≠ []
  told : ∃ backlog, Threads s.ring.next s.ring.backlogHead backlog ∧
    ∀ i, (s.completionsOf backlog i).Perm ((gives tr i).filterMap id)

/-- The queue is empty, or waits for a linked op, or did so until its ticket was settled. -/
def Chains.Drained (a : Chains) (tr : List Event) : Prop :=
  a.queue = [] ∨ a.blocking ≠ none ∨
    ∃ j res, a.front = j + 1 ∧ a.linked j = true ∧ .result j res ∈ tr

/-- Between two runs of `process_queue`, with nothing put behind the queue since. -/
def Pc.between : Pc → Bool
  | .out _ | .settle _ | .check _ | .wait _ _ _ => true
  | .take _ _ _ batchHead _ => batchHead.isNone
  | _ => false

section Histories
variable {a a' : Chains} {tr ev : List Event} {i j : ℕ}

theorem Chains.Drained.mono (h : a.Drained tr) (hq : a'.queue = a.queue) (hb : a'.blocking = a.blocking)
    (hn : a'.n = a.n) (hsqe : a'.sqe = a.sqe) : a'.Drained (tr ++ ev) := by
  have hfront : a'.front = a.front := by rw [Chains.front, Chains.front, hq, hn]
  have hlinked (j : ℕ) : a'.linked j = a.linked j := by rw [Chains.linked, Chains.linked, hsqe]
  unfold Chains.Drained at *
  rw [hq, hb, hfront]
  simp only [hlinked]
  obtain hempty | hpending | ⟨j, res, hj, hl, hres⟩ := h
  · exact .inl hempty
  · exact .inr (.inl hpending)
  · exact .inr (.inr ⟨j, res, hj, hl, List.mem_append_left ev hres⟩)

/-- What was finished was started or cancelled with its chain, for want of cancel ops. -/
theorem History.begun_of_finished (h : History NoCancels tr a) (hf : finishes tr i ≠ []) : HasBegun tr i := by
  obtain ⟨-, -, hnt⟩ := History.no_cancels h
  have hj := History.judged (History.clean_of_no_cancels h)
  obtain ⟨how, hhow⟩ := List.exists_mem_of_ne_nil _ hf
  obtain ⟨e, he, hei⟩ := List.mem_filterMap.mp hhow
  cases e with
  | result k res =>
    simp only [finishOf, Option.ite_none_right_eq_some] at hei
    obtain ⟨rfl, -⟩ := hei
    exact .inl (hj.answered k res he)
  | cancel k q =>
    simp only [finishOf, Option.ite_none_right_eq_some] at hei
    obtain ⟨rfl, -⟩ := hei
    exact .inr ⟨q, he⟩
  | take c k sc st =>
    simp only [finishOf, Option.ite_none_right_eq_some] at hei
    exact absurd ⟨c, sc, st, hei.1 ▸ he⟩ (hnt i)
  | _ => simp [finishOf] at hei

/-- An accepted SQE has begun once it is off the queue. -/
theorem History.begun (h : History NoCancels tr a) (hi : i < a.n) (hq : i ∉ a.queue) : HasBegun tr i := by
  obtain ⟨hw, hacc, -⟩ := History.accounts h
  have hj := History.judged (History.clean_of_no_cancels h)
  have hai := hacc i
  cases hst : a.stage i with
  | unborn => exact absurd ((hw.born i).mp hst) (by omega)
  | queued => exact absurd ((hw.queued i).mpr hst) hq
  | running => exact .inl (hj.live i (.inl hst))
  | held => exact .inl (hj.live i (.inr hst))
  | closed =>
    rw [hst] at hai
    obtain ⟨how, g, hf, -⟩ := hai
    exact History.begun_of_finished h (by simp [hf])
  | _ =>
    rw [hst] at hai
    exact History.begun_of_finished h (by simp [hai.1])

theorem History.not_begun (h : History NoCancels tr a) (hq : i ∈ a.queue) : ¬ HasBegun tr i := by
  obtain ⟨hw, -⟩ := History.accounts h
  have hj := History.judged (History.clean_of_no_cancels h)
  have hle := hw.front_le_of_mem hq
  rintro (hs | ⟨q, hc⟩)
  · exact Nat.not_lt.mpr hle (hj.begun i hs)
  · exact Nat.not_lt.mpr hle (hj.dropped i q hc)

theorem History.all_begun (h : History NoCancels tr a) (hq : a.queue = []) : AllBegun tr := by
  intro i sqe hi
  have hlt := (((History.accounts h).2.2 i sqe).mp hi).1
  exact History.begun h hlt (by simp [hq])

/-- In front of the queue everything has begun. -/
theorem History.begun_up_to (h : History NoCancels tr a) (hfront : a.front = j + 1) : BegunUpTo tr j := by
  obtain ⟨hw, -, haccept⟩ := History.accounts h
  intro i sqe hi
  by_cases hq : i ∈ a.queue
  · have hle := hw.front_le_of_mem hq
    exact .inr (by omega)
  · exact .inl (History.begun h ((haccept i sqe).mp hi).1 hq)

theorem History.linked_in (h : History NoCancels tr a) (hj : j < a.n) (hl : a.linked j = true) :
    LinkedIn tr j := ⟨a.sqe j, ((History.accounts h).2.2 j _).mpr ⟨hj, rfl⟩, hl⟩

/-- A ticket is settled for the op in front of the queue. -/
theorem Chains.Drained.settle {v : ChainFailed} (hj : a.Judged (fun _ => False) tr) (hw : a.WellFormed)
    (ht : a.ticket = some (i, v)) (hb : a.blocking = some i) :
    Chains.Drained { a with
      blocking := none, ticket := none, failed := if v = .holds then a.failed else v } tr := by
  obtain ⟨res, hres, -⟩ := hj.ticket i v ht
  exact .inr (.inr ⟨i, res, (hj.blocking i hb).1, (hw.blocking i hb).1, hres⟩)

end Histories

section Step
variable {s s' : Core} {a a' : Chains} {free backlog queue batch : List Slot} {l : CoreLabel} {tr : List Event}
  {f : Frame}

theorem afterQueue_between (f : Frame) : (Core.afterQueue f).between = true := by
  unfold Core.afterQueue
  split <;> rfl

/-- A turn of `process_queue` takes the head of the queue, or ends the loop. -/
theorem queueStep_turn (hpc : s.pc = .queue f) (target : MsgTarget) (reads : List ℕ) :
    (s.queueStep target reads = some { s with pc := Core.afterQueue f } ∧
      (s.ring.queueHead = none ∨ s.ring.blocking ≠ none)) ∨
    ∃ s' op, s.queueStep target reads = some s' ∧ s'.pc.between = false ∧ s.ring.queueHead = some op ∧
      s.ring.blocking = none := by
  unfold Core.queueStep
  rw [hpc]
  cases hhead : s.ring.queueHead with
  | none => exact .inl ⟨rfl, .inl rfl⟩
  | some op =>
    by_cases hb : s.ring.blocking = none
    · right
      simp only [hb, ne_eq, not_true_eq_false, if_false]
      (repeat' split) <;> exact ⟨_, op, rfl, rfl, rfl, trivial⟩
    · left
      simp only [hb, ne_eq, not_false_eq_true, if_true]
      exact ⟨trivial, .inr trivial⟩

/-- The head that is taken is reported as begun. -/
theorem queueEvents_begun {op : Slot} {i : ℕ} (hpc : s.pc = .queue f) (hhead : s.ring.queueHead = some op)
    (hb : s.ring.blocking = none) (hi : (s.ring.opPool op).seq = some i) (target : MsgTarget)
    (reads : List ℕ) : HasBegun (s.events (.queueStep target reads)) i := by
  simp only [Core.events, Core.queueEvents, hpc, hhead, hb, ne_eq, not_true_eq_false, if_false, about_eq hi]
  split
  · exact .inr ⟨true, by simp⟩
  · split
    · exact .inr ⟨false, by simp⟩
    · split <;> exact .inl (by simp)

/-- The abstract ring stands still under the step, or makes an act the step stands for. -/
def Acts (s : Core) (l : CoreLabel) (a a' : Chains) : Prop :=
  (s.events l = [] ∧ a' = a) ∨ ∃ act, Matches s a l act ∧ act.Step a (s.events l) a'

/-- Steps that stand for no act of the abstract ring. -/
def CoreLabel.still : CoreLabel → Bool
  | .enter _ | .append | .check _ | .waitFail | .write _ | .emit _ _ _ _ | .read _ => true
  | _ => false

/-- A result that comes back, and a finish away from the engine thread. -/
def CoreLabel.aside : CoreLabel → Bool
  | .handBack _ _ | .offFinish _ _ _ | .offPost _ _ => true
  | _ => false

theorem Acts.still (h : Acts s l a a') (hl : l.still = true) : a' = a := by
  obtain ⟨-, rfl⟩ | ⟨act, hm, -⟩ := h
  · rfl
  · cases l <;> cases hl <;> cases act <;> exact hm.elim

/-- A step that may take an op off a queue or the submission ring reports one, or is none of its acts. -/
theorem Acts.silent (h : Acts s l a a') (hev : s.events l = [])
    (hl : l = .takeSqe ∨ ∃ target reads, l = .queueStep target reads) : a' = a := by
  obtain ⟨-, rfl⟩ | ⟨act, hm, hstep⟩ := h
  · rfl
  rw [hev] at hstep
  obtain rfl | ⟨target, reads, rfl⟩ := hl
  · cases act with
    | accept sqe => cases hstep
    | _ => exact hm.elim
  · cases act with
    | cancel | fail res | message res | begin => cases hstep
    | _ => exact hm.elim

/-- They leave the queue and the op it waits for as they are. -/
theorem Acts.aside (h : Acts s l a a') (hl : l.aside = true)
    (hd : a.Drained tr) : a'.Drained (tr ++ s.events l) := by
  obtain ⟨-, rfl⟩ | ⟨act, hm, hstep⟩ := h
  · exact hd.mono rfl rfl rfl rfl
  generalize s.events l = ev at hstep
  cases act with
  | handBack | finish | offPost =>
    cases hstep
    exact hd.mono rfl rfl rfl rfl
  | _ => cases l <;> cases hl <;> exact hm.elim

/-- Those steps end between the loops only where they began there. -/
theorem still_between (hs : s.step l = some s') (hl : l.still = true ∨ l.aside = true)
    (hbetween : s'.pc.between = true) : s.pc.between = true := by
  cases l with
  | enter | check | waitFail | handBack =>
    simp only [Core.step, Core.check, Core.waitFail, Core.handBack] at hs
    split at hs
    · next hpc =>
      rw [hpc]
      rfl
    · cases hs
  | append =>
    simp only [Core.step, Core.append] at hs
    split at hs
    · next call submitted batchHead batchTail hpc =>
      rw [hpc]
      cases batchHead with
      | none => rfl
      | some b =>
        cases hs
        cases hbetween
    · cases hs
  | offFinish op res ticket =>
    cases hs
    cases ticket <;> exact hbetween
  | offPost op reads =>
    simp only [Core.step, Core.offPost] at hs
    split at hs <;> cases hs
    exact hbetween
  | write | emit | read =>
    cases hs
    exact hbetween
  | _ => simp [CoreLabel.still, CoreLabel.aside] at hl

/-- With no head the queue of the abstract ring is empty. -/
theorem Rep.queue_nil (h : Rep s a free backlog queue batch) (hpc : s.pc = .queue f)
    (hhead : s.ring.queueHead = none) : a.queue = [] := by
  have hbatch := h.placed.batch_nil (by rw [hpc]; rfl)
  have hseq := h.placed.queueSeq
  rw [h.placed.queueList.head_none.mp hhead, hbatch] at hseq
  exact List.map_eq_nil_iff.mp hseq.symm

theorem Rep.blocking_some (h : Rep s a free backlog queue batch) (hwait : s.waitingFor = s.ring.blocking) :
    s.ring.blocking ≠ none ↔ a.blocking ≠ none := by
  rw [← hwait]
  exact not_congr h.governs.blocking_none

/-- The SQE that was taken is the batch's first, or stands behind its first. -/
theorem takeSqe_drained (h : Rep s a free backlog queue batch) (hact : Acts s .takeSqe a a')
    (hdrained : s.pc.between = true → a.Drained tr) (hs : s.step .takeSqe = some s')
    (hbetween : s'.pc.between = true) : a'.Drained (tr ++ s.events .takeSqe) := by
  simp only [Core.step, Core.takeSqe] at hs
  split at hs
  swap
  · cases hs
  next call entry rest submitted batchHead batchTail hpc =>
  have hkeeps (hev : s.events .takeSqe = []) (hnil : batchHead.isNone = true) :
      a'.Drained (tr ++ s.events .takeSqe) := by
    rw [hact.silent hev (.inl rfl)]
    exact (hdrained (by rw [hpc]; exact hnil)).mono rfl rfl rfl rfl
  cases entry with
  | none =>
    cases hs
    exact hkeeps (by simp [Core.events, hpc]) hbetween
  | some sqe =>
    unfold Vault.opAllocLocked at hs
    cases hfree : s.ring.opFree with
    | none =>
      rw [hfree] at hs
      cases hs
      exact hkeeps (by simp [Core.events, hpc, hfree]) hbetween
    | some op =>
      rw [hfree] at hs
      cases hs
      have hhead := h.placed.batchList
      rw [hpc] at hhead
      cases batchTail with
      | none => cases hbetween
      | some t =>
        -- a batch with a tail has a head, and then the step does not end between the loops
        have hnone : batchHead = none := by simpa [Pc.between] using hbetween
        have hbatch := hhead.head_none.mp hnone
        have htail := hhead.tail
        rw [hbatch] at htail
        cases htail

/-- The loop over the queue ends with it empty or behind a linked op. -/
theorem queueStep_drained {target : MsgTarget} {reads : List ℕ} (h : Rep s a free backlog queue batch)
    (hact : Acts s (.queueStep target reads) a a') (hs : s.step (.queueStep target reads) = some s')
    (hbetween : s'.pc.between = true) : a'.Drained (tr ++ s.events (.queueStep target reads)) := by
  simp only [Core.step] at hs
  cases hpc : s.pc with
  | queue f =>
    obtain ⟨hturn, hwhy⟩ | ⟨s₁, op, hturn, hnot, -⟩ := queueStep_turn hpc target reads
    · have hev : s.events (.queueStep target reads) = [] := by
        simp only [Core.events, Core.queueEvents, hpc]
        obtain hnone | hb := hwhy
        · rw [hnone]
        · cases s.ring.queueHead <;> simp [hb]
      rw [hact.silent hev (.inr ⟨target, reads, rfl⟩)]
      obtain hnone | hb := hwhy
      · exact .inl (h.queue_nil hpc hnone)
      · exact .inr (.inl ((h.blocking_some (by rw [Core.waitingFor, hpc])).mp hb))
    · rw [hturn] at hs
      cases hs
      cases hnot.symm.trans hbetween
  | _ => simp [Core.queueStep, hpc] at hs

/-- Behind the loop over the queue the ticket that came in meanwhile is settled, for the op in front. -/
theorem settle_drained {reads : List ℕ} (hw : a.WellFormed) (hj : a.Judged (fun _ => False) tr)
    (hact : Acts s (.settle reads) a a') (hdrained : s.pc.between = true → a.Drained tr)
    (hs : s.step (.settle reads) = some s') : a'.Drained (tr ++ s.events (.settle reads)) := by
  have hb : s.pc.between = true := by
    simp only [Core.step, Core.settle] at hs
    split at hs
    · next hpc =>
      rw [hpc]
      rfl
    · cases hs
  obtain ⟨-, rfl⟩ | ⟨act, hm, hstep⟩ := hact
  · exact (hdrained hb).mono rfl rfl rfl rfl
  cases act with
  | settle =>
    have hev : s.events (.settle reads) = [] := rfl
    rw [hev] at hstep ⊢
    rw [List.append_nil]
    cases hstep with
    | settle hc ht hbl => exact .settle hj hw ht hbl
  | _ => exact hm.elim

/-- Between two runs of `process_queue` nothing comes to stand in the queue without a reason. -/
theorem between_step (h : Rep s a free backlog queue batch) (hw : a.WellFormed)
    (hj : a.Judged (fun _ => False) tr) (hdrained : s.pc.between = true → a.Drained tr)
    (hact : Acts s l a a') (hs : s.step l = some s') (hbetween : s'.pc.between = true) :
    a'.Drained (tr ++ s.events l) := by
  cases l with
  | takeSqe => exact takeSqe_drained h hact hdrained hs hbetween
  | queueStep target reads => exact queueStep_drained h hact hs hbetween
  | settle reads => exact settle_drained hw hj hact hdrained hs
  | handBack | offFinish | offPost =>
    exact hact.aside rfl (hdrained (still_between hs (.inr rfl) hbetween))
  | enter | append | check | waitFail | write | emit | read =>
    rw [hact.still rfl]
    exact (hdrained (still_between hs (.inl rfl) hbetween)).mono rfl rfl rfl rfl
  | _ =>
    -- the other steps end within the loops
    simp only [Core.step, Core.post, Core.complete, Core.execDone, Core.execTake, Core.execPending,
      Core.cancelHeld, Core.cancelQueued, Core.waitReturn] at hs
    (repeat' split at hs) <;> cases hs <;> simp_all [Core.setHand, Pc.between]

/-- A linked op that is pending is what the queue waits for. -/
theorem Rep.waits_for {j : ℕ} (h : Rep s a free backlog queue batch) (hist : History NoCancels tr a)
    (hb : a.blocking = some j) : WaitsFor s tr j := by
  obtain ⟨hw, hacc, -⟩ := History.accounts hist
  have hj := History.judged (History.clean_of_no_cancels hist)
  obtain ⟨hl, hborn, -, hunticketed⟩ := hw.blocking j hb
  have hjn : j < a.n := by
    by_contra hn
    exact hborn ((hw.born j).mpr (not_lt.mp hn))
  have haj := hacc j
  have hopen : .start j ∈ tr ∧ (gives tr j = [] ∨ s.ring.blockedDone ≠ none) := by
    cases ht : a.ticket with
    | none =>
      obtain hst | ⟨res, hst⟩ := hunticketed ht
      · rw [hst] at haj
        exact ⟨hj.live j (.inr hst), .inl haj.2⟩
      · rw [hst] at haj
        exact ⟨hj.answered j res (hj.returned j res hst), .inl haj.2⟩
    | some up =>
      obtain ⟨k, v⟩ := up
      obtain ⟨hbk, -⟩ := hw.ticket k v ht
      cases hb.symm.trans hbk
      obtain ⟨res, hres, -⟩ := hj.ticket j v ht
      have hsome := h.governs.waiting
      rw [hb] at hsome
      obtain ⟨b, hbw⟩ := Option.isSome_iff_exists.mp hsome
      obtain ⟨-, hdone, -⟩ := (h.governs.pends b j hbw hb).ticketed j v ht
      exact ⟨hj.answered j res hres, .inr (by rw [hdone]; exact Option.some_ne_none b)⟩
  exact ⟨History.linked_in hist hjn hl, hopen.1, hopen.2, History.begun_up_to hist (hj.blocking j hb).1⟩

theorem Rep.turn (h : Rep s a free backlog queue batch) (hist : History NoCancels tr a)
    (hpc : s.pc = .queue f) (target : MsgTarget) (reads : List ℕ) :
    (∃ i sqe, .accept i sqe ∈ tr ∧ ¬ HasBegun tr i ∧
      (∀ k, k < i → ∀ sqe, .accept k sqe ∈ tr → HasBegun tr k) ∧
      (∃ s', s.queueStep target reads = some s') ∧ HasBegun (s.events (.queueStep target reads)) i) ∨
    s.queueStep target reads = some { s with pc := Core.afterQueue f } ∧
      (AllBegun tr ∨ ∃ j, WaitsFor s tr j) := by
  obtain ⟨hw, -, haccept⟩ := History.accounts hist
  have hwait : s.waitingFor = s.ring.blocking := by rw [Core.waitingFor, hpc]
  obtain ⟨hturn, hnone | hb⟩ | ⟨s', op, hturn, -, hhead, hb⟩ := queueStep_turn hpc target reads
  · exact .inr ⟨hturn, .inl (History.all_begun hist (h.queue_nil hpc hnone))⟩
  · obtain ⟨j, hj⟩ := Option.ne_none_iff_exists'.mp ((h.blocking_some hwait).mp hb)
    exact .inr ⟨hturn, .inr ⟨j, h.waits_for hist hj⟩⟩
  · left
    obtain ⟨-, -, -, -, queue', i, rest, -, hq, hi, -⟩ := h.queue_front hpc hhead hb
    have hmem : i ∈ a.queue := by rw [hq]; exact List.mem_cons_self
    have hin : i < a.n := by
      by_contra hn
      have hborn := (hw.born i).mpr (not_lt.mp hn)
      rw [(hw.queued i).mp hmem] at hborn
      cases hborn
    refine ⟨i, a.sqe i, (haccept i _).mpr ⟨hin, rfl⟩, History.not_begun hist hmem, fun k hk sqe hacc => ?_,
      ⟨s', hturn⟩, queueEvents_begun hpc hhead hb hi target reads⟩
    apply History.begun hist ((haccept k sqe).mp hacc).1
    intro hkq
    have hle := hw.front_le_of_mem hkq
    rw [Chains.front, hq] at hle
    exact Nat.not_lt.mpr hle hk

end Step

/-- What finished off the engine thread has its result reported. -/
theorem History.off_result {C : Chains → Act → Prop} {tr : List Event} {a : Chains} (h : History C tr a) :
    ∀ i res, a.stage i = .off res → .result i res ∈ tr := by
  refine h.invariant (fun tr a => ∀ i res, a.stage i = .off res → .result i res ∈ tr)
    (fun i res hst => by cases hst) ?_
  rintro tr a ev a' - hoff ⟨act, -, hs⟩ i res hst
  have hold (h : a.stage i = .off res) : .result i res ∈ tr ++ ev := List.mem_append_left _ (hoff i res h)
  cases hs with
  | @finish k res' hk =>
    simp only [Chains.setStage_stage] at hst
    split at hst
    · next hik =>
      cases hst
      rw [hik]
      exact List.mem_append_right _ List.mem_cons_self
    · exact hold hst
  | accept sqe =>
    simp only at hst
    split at hst
    · cases hst
    · exact hold hst
  | pend | settle => exact hold hst
  | _ =>
    simp only [Chains.setStage_stage] at hst
    split at hst
    · cases hst
    · exact hold hst

/-- A cancelled SQE has no result besides. -/
theorem History.cancelled_no_result {C : Chains → Act → Prop} {tr : List Event} {a : Chains} {i : ℕ}
    {q : Bool} {res : Int32} (h : History C tr a) (hc : .cancel i q ∈ tr) : .result i res ∉ tr := by
  intro hr
  have honce := History.finished_once h i
  obtain ⟨pre, post, rfl⟩ := List.append_of_mem hc
  have hresult (l : List Event) (hl : .result i res ∈ l) : 0 < (finishes l i).length :=
    List.length_pos_of_mem (mem_finishes_of_result hl)
  simp only [finishes_append, finishes_cons, finishOf, if_true, List.length_append, Option.toList_some,
    List.length_singleton] at honce
  rcases List.mem_append.mp hr with hr | hr
  · have hpos := hresult pre hr
    omega
  · have hpos := hresult post ((List.mem_cons.mp hr).resolve_left fun he => by cases he)
    omega

/-- Where enter rests a cancelled SQE has given its completion. -/
theorem History.cancelled_gives {tr : List Event} {a : Chains} {i : ℕ} {q : Bool}
    (h : History NoCancels tr a) (hcur : a.current = none) (hc : .cancel i q ∈ tr) : gives tr i ≠ [] := by
  obtain ⟨hw, hacc, -⟩ := History.accounts h
  have hj := History.judged (History.clean_of_no_cancels h)
  have hfinished : finishes tr i ≠ [] :=
    List.ne_nil_of_mem (List.mem_filterMap.mpr ⟨_, hc, if_pos rfl⟩)
  have hai := hacc i
  cases hst : a.stage i with
  | closed =>
    rw [hst] at hai
    obtain ⟨how, g, -, hg, -⟩ := hai
    rw [hg]
    exact List.cons_ne_nil _ _
  | posting res => cases hcur.symm.trans (hw.posting i res hst).1
  | off res => exact absurd (History.off_result h i res hst) (History.cancelled_no_result h hc)
  | returned res => exact absurd (hj.returned i res hst) (History.cancelled_no_result h hc)
  | _ =>
    rw [hst] at hai
    exact absurd hai.1 hfinished

/-- Runs without cancels and without refused linked messages, as histories of the abstract ring. -/
theorem chain_run {n : ℕ} {e : UInt32} {tr : List Event} {s : Core}
    (hr : Run coreMachine (fun s l => WithoutCancels s l ∧ NoLinkedMessageFails s l)
      (setupCore n e) tr s) :
    ∃ a free backlog queue batch, History NoCancels tr a ∧ Rep s a free backlog queue batch ∧
      (s.pc.between = true → a.Drained tr) := by
  induction hr with
  | start => exact ⟨{}, List.range n, [], [], [], .start, setupCore_rep n e, fun _ => .inl rfl⟩
  | @next tr s s' l hr hc hs ih =>
    obtain ⟨a, free, backlog, queue, batch, hist, hrep, hdrained⟩ := ih
    have hw := hist.accounts.1
    have hj := History.judged (History.clean_of_no_cancels hist)
    obtain ⟨a', free', backlog', queue', batch', _, hact, hrep', -⟩ :=
      core_step_simulated hrep hw hc.1.1 hs
    refine ⟨a', free', backlog', queue', batch', ?_, hrep', between_step hrep hw hj hdrained hact hs⟩
    rcases hact with ⟨hev, rfl⟩ | ⟨act, hm, hact⟩
    · rw [show coreMachine.events s l = [] from hev, List.append_nil]
      exact hist
    · exact hist.next ⟨act, noCancels_of_matches hrep hw hc.1 hc.2 hm, hact⟩

end SlipstreamIO.Engine
