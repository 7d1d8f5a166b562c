import SlipstreamIO.EnterSimulation

/-! Runs of the engine over a backend that keeps its contract: every run is a history of the
abstract ring, each slot is at one place, and each SQE is completed once. -/
namespace SlipstreamIO.Engine

open ThreadedList Runs

/-- How an event finishes SQE `i`: with a result, or quietly (`some none`). -/
def finishOf (i : ℕ) : Event → Option (Option Int32)
  | .result j res => if j = i then some (some res) else none
  | .cancel j quiet => if j = i then some (if quiet then none else some (-ecanceled)) else none
  | .take _ j _ _ => if j = i then some (some (-ecanceled)) else none
  | _ => none

def giveOf (i : ℕ) : Event → Option (Option Cqe)
  | .give j g => if j = i then some g else none
  | _ => none

/-- The ways SQE `i` was finished, in order. -/
def finishes (tr : List Event) (i : ℕ) : List (Option Int32) := tr.filterMap (finishOf i)

/-- The completions SQE `i` gave, in order. -/
def gives (tr : List Event) (i : ℕ) : List (Option Cqe) := tr.filterMap (giveOf i)

@[simp] theorem finishes_append (tr ev : List Event) (i : ℕ) :
    finishes (tr ++ ev) i = finishes tr i ++ finishes ev i := List.filterMap_append

@[simp] theorem gives_append (tr ev : List Event) (i : ℕ) :
    gives (tr ++ ev) i = gives tr i ++ gives ev i := List.filterMap_append

@[simp] theorem finishes_nil (i : ℕ) : finishes [] i = [] := rfl

@[simp] theorem gives_nil (i : ℕ) : gives [] i = [] := rfl

@[simp] theorem finishes_cons (e : Event) (ev : List Event) (i : ℕ) :
    finishes (e :: ev) i = (finishOf i e).toList ++ finishes ev i := by
  cases h : finishOf i e <;> simp [finishes, h]

@[simp] theorem gives_cons (e : Event) (ev : List Event) (i : ℕ) :
    gives (e :: ev) i = (giveOf i e).toList ++ gives ev i := by
  cases h : giveOf i e <;> simp [gives, h]

/-- What the events so far say of an SQE at the given stage. -/
def Chains.Accounts (a : Chains) (tr : List Event) (i : ℕ) : Stage → Prop
  | .unborn | .queued | .running | .held => finishes tr i = [] ∧ gives tr i = []
  | .posting res | .off res | .returned res =>
    finishes tr i = [some res] ∧ gives tr i = []
  | .closed => ∃ r g, finishes tr i = [r] ∧ gives tr i = [g] ∧
    match r with
    | none => g = none
    | some res => a.Completion i res g

/-- The accepted SQEs are the ones the events report. -/
def Chains.Accepts (a : Chains) (tr : List Event) : Prop :=
  ∀ i sqe, .accept i sqe ∈ tr ↔ i < a.n ∧ a.sqe i = sqe

section Accounts
variable {a a' : Chains} {tr ev : List Event} {i : ℕ} {st : Stage}

theorem Chains.Accounts.keep (h : a.Accounts tr i st) (hf : finishes ev i = [])
    (hg : gives ev i = []) (hsqe : a'.sqe i = a.sqe i) :
    a'.Accounts (tr ++ ev) i st := by
  cases st <;>
    simp only [Chains.Accounts, Chains.Completion, finishes_append, gives_append, hf, hg, hsqe,
      List.append_nil] at h ⊢ <;> exact h

/-- The events are about SQE `i` alone, and say of it what its new stage needs. -/
theorem Chains.Accounts.move (i : ℕ) (st : Stage) (h : ∀ j, a.Accounts tr j (a.stage j))
    (hi : a'.Accounts (tr ++ ev) i st)
    (ho : ∀ j, j ≠ i → finishes ev j = [] ∧ gives ev j = [])
    (hstage : ∀ j, a'.stage j = if j = i then st else a.stage j)
    (hsqe : ∀ j, j ≠ i → a'.sqe j = a.sqe j) (j : ℕ) : a'.Accounts (tr ++ ev) j (a'.stage j) := by
  rw [hstage]
  split
  · next hji => rwa [hji]
  · next hji => exact (h j).keep (ho j hji).1 (ho j hji).2 (hsqe j hji)

end Accounts

theorem Act.Step.accounts {a a' : Chains} {act : Act} {tr ev : List Event} (hw : a.WellFormed)
    (h : ∀ i, a.Accounts tr i (a.stage i)) (hs : act.Step a ev a') (i : ℕ) :
    a'.Accounts (tr ++ ev) i (a'.stage i) := by
  cases hs with
  | accept sqe =>
    have hn := h a.n
    rw [(hw.born a.n).mpr le_rfl] at hn
    refine .move a.n .queued h ?_ (fun j hj => ?_) (fun j => rfl) (fun j hj => if_neg hj) i
    · simp [Chains.Accounts, finishOf, giveOf, hn.1, hn.2]
    · simp [finishOf, giveOf]
  | @cancelLoud k rest hc hb hq hf =>
    have hk := h k
    rw [(hw.pop hq).1] at hk
    refine .move k (.posting (-ecanceled)) h ?_ (fun j hj => ?_) (fun j => by rfl) (fun j hj => by rfl) i
    · simp [Chains.Accounts, finishOf, giveOf, hk.1, hk.2]
    · simp [finishOf, giveOf, Ne.symm hj]
  | @cancelQuiet k rest hc hb hq hf =>
    have hk := h k
    rw [(hw.pop hq).1] at hk
    refine .move k .closed h ⟨none, none, ?_, ?_, rfl⟩ (fun j hj => ?_) (fun j => by rfl)
      (fun j hj => by rfl) i
    · simp [hk.1, finishOf]
    · simp [hk.2, giveOf]
    · simp [finishOf, giveOf, Ne.symm hj]
  | @fail k rest res hc hb hq hf hres =>
    have hk := h k
    rw [(hw.pop hq).1] at hk
    refine .move k (.posting res) h ?_ (fun j hj => ?_) (fun j => by rfl) (fun j hj => by rfl) i
    · simp [Chains.Accounts, finishOf, giveOf, hk.1, hk.2]
    · simp [finishOf, giveOf, Ne.symm hj]
  | @message k rest res hc hb hq hf ho =>
    have hk := h k
    rw [(hw.pop hq).1] at hk
    refine .move k (.posting res) h ?_ (fun j hj => ?_) (fun j => by rfl) (fun j hj => by rfl) i
    · simp [Chains.Accounts, finishOf, giveOf, hk.1, hk.2]
    · simp [finishOf, giveOf, Ne.symm hj]
  | @begin k rest hc hb hq hf =>
    have hk := h k
    rw [(hw.pop hq).1] at hk
    refine .move k .running h ?_ (fun j hj => ?_) (fun j => by rfl) (fun j hj => by rfl) i
    · simp [Chains.Accounts, finishOf, giveOf, hk.1, hk.2]
    · simp [finishOf, giveOf]
  | @answer k res hc hs =>
    have hk := h k
    rw [hs] at hk
    refine .move k (.posting res) h ?_ (fun j hj => ?_) (fun j => by rfl) (fun j hj => by rfl) i
    · simp [Chains.Accounts, finishOf, giveOf, hk.1, hk.2]
    · simp [finishOf, giveOf, Ne.symm hj]
  | @post k res g hc hs hg =>
    have hk := h k
    rw [hs] at hk
    refine .move k .closed h ⟨some res, g, ?_, ?_, by exact hg⟩ (fun j hj => ?_) (fun j => by rfl)
      (fun j hj => by rfl) i
    · simp [hk.1, finishOf]
    · simp [hk.2, giveOf]
    · simp [finishOf, giveOf, Ne.symm hj]
  | @hold k hc hs =>
    have hk := h k
    rw [hs] at hk
    refine .move k .held h ?_ (fun j hj => ⟨rfl, rfl⟩) (fun j => by rfl) (fun j hj => by rfl) i
    simpa [Chains.Accounts] using hk
  | pend hc hs hp => exact (h i).keep rfl rfl rfl
  | @handBack k res hc hs =>
    have hk := h k
    rw [hs] at hk
    refine .move k (.returned res) h ?_ (fun j hj => ?_) (fun j => by rfl) (fun j hj => by rfl) i
    · simp [Chains.Accounts, finishOf, giveOf, hk.1, hk.2]
    · simp [finishOf, giveOf, Ne.symm hj]
  | @complete k res g hc hs hg =>
    have hk := h k
    rw [hs] at hk
    refine .move k .closed h ⟨some res, g, ?_, ?_, by exact hg⟩ (fun j hj => ?_) (fun j => by rfl)
      (fun j hj => by rfl) i
    · simp [hk.1, finishOf]
    · simp [hk.2, giveOf]
    · simp [finishOf, giveOf, Ne.symm hj]
  | @finish k res hs =>
    have hk := h k
    rw [hs] at hk
    refine .move k (.off res) h ?_ (fun j hj => ?_) (fun j => by rfl) (fun j hj => by rfl) i
    · simp [Chains.Accounts, finishOf, giveOf, hk.1, hk.2]
    · simp [finishOf, giveOf, Ne.symm hj]
  | @offPost k res g hs hg =>
    have hk := h k
    rw [hs] at hk
    refine .move k .closed h ⟨some res, g, ?_, ?_, by exact hg⟩ (fun j hj => ?_) (fun j => by rfl)
      (fun j hj => by rfl) i
    · simp [hk.1, finishOf]
    · simp [hk.2, giveOf]
    · simp [finishOf, giveOf, Ne.symm hj]
  | settle hc ht hb => exact (h i).keep rfl rfl rfl
  | @takeHeld c k g sc st hc hr hs hg =>
    have hk := h k
    rw [hs] at hk
    refine .move k .closed h ⟨some (-ecanceled), g, ?_, ?_, by exact hg⟩ (fun j hj => ?_) (fun j => by rfl)
      (fun j hj => by rfl) i
    · simp [hk.1, finishOf]
    · simp [hk.2, giveOf]
    · simp [finishOf, giveOf, Ne.symm hj]
  | @takeQueued c k pre suf g sc st hc hr hq hg =>
    have hk := h k
    rw [(hw.unlink hq).1] at hk
    refine .move k .closed h ⟨some (-ecanceled), g, ?_, ?_, by exact hg⟩ (fun j hj => ?_) (fun j => by rfl)
      (fun j hj => by rfl) i
    · simp [hk.1, finishOf]
    · simp [hk.2, giveOf]
    · simp [finishOf, giveOf, Ne.symm hj]

theorem Act.Step.accepts {a a' : Chains} {act : Act} {tr ev : List Event}
    (h : a.Accepts tr) (hs : act.Step a ev a') : a'.Accepts (tr ++ ev) := by
  intro i sqe
  rw [List.mem_append, h i sqe]
  cases hs with
  | accept sqe' =>
    simp only [List.mem_singleton, Event.accept.injEq]
    constructor
    · rintro (⟨hlt, hi⟩ | ⟨rfl, rfl⟩)
      · exact ⟨Nat.lt_succ_of_lt hlt, by rw [if_neg hlt.ne, hi]⟩
      · exact ⟨Nat.lt_succ_self _, if_pos rfl⟩
    · rintro ⟨hlt, hi⟩
      by_cases hn : i = a.n
      · rw [if_pos hn] at hi
        exact Or.inr ⟨hn, hi.symm⟩
      · rw [if_neg hn] at hi
        exact Or.inl ⟨by omega, hi⟩
  | _ => simp [Chains.setStage]

theorem History.accounts {C : Chains → Act → Prop} {tr : List Event} {a : Chains}
    (h : History C tr a) :
    a.WellFormed ∧ (∀ i, a.Accounts tr i (a.stage i)) ∧ a.Accepts tr := by
  refine h.invariant (fun tr a => a.WellFormed ∧ (∀ i, a.Accounts tr i (a.stage i)) ∧ a.Accepts tr)
    ⟨Chains.wellFormed_empty, fun i => ⟨rfl, rfl⟩, fun i sqe => by simp⟩ ?_
  rintro tr a ev a' - ⟨hw, hacc, hsqe⟩ ⟨act, -, hs⟩
  exact ⟨hs.wellFormed hw, hs.accounts hw hacc, hs.accepts hsqe⟩

theorem History.finished_once {C : Chains → Act → Prop} {tr : List Event} {a : Chains}
    (h : History C tr a) (i : ℕ) : (finishes tr i).length ≤ 1 := by
  have hacc := h.accounts.2.1 i
  cases hst : a.stage i <;> rw [hst] at hacc <;> simp only [Chains.Accounts] at hacc
  case closed =>
    obtain ⟨r, g, hf, -⟩ := hacc
    simp [hf]
  all_goals simp [hacc.1]

theorem setupCore_rep (n : ℕ) (e : UInt32) : Rep (setupCore n e) {} (List.range n) [] [] [] where
  placed := by
    have hat (x : Slot) (st : Stage) : ¬ (setupCore n e).At ([] ++ []) x st := by
      cases st <;> simp [Core.At, setupCore, Pc.executing, Pc.posting, Pc.done]
    refine ⟨Vault.emptyVault_rep n e, isQueue_nil _, isQueue_nil _, fun x => ?_, rfl,
      ⟨fun x st hx => (hat x st hx).elim, fun i hi => ?_, fun x y st _ hx => (hat x st hx).elim⟩, rfl⟩
    · simp [Pc.inEnter, Pc.executing, Pc.posting, Pc.done, Core.holds, setupCore, emptyVault]
      congr
    · cases hi
  governs := by
    refine ⟨rfl, rfl, fun f op l t he => ?_, rfl, fun b i hb => ?_, fun _ => rfl⟩
    · cases he
    · cases hb

/-- Every run over a backend that keeps its contract is a history of the abstract ring, in which
each act meets what the labels' condition `D` says of it. -/
theorem core_run_refines {D : Core → CoreLabel → Prop} {C : Chains → Act → Prop}
    (hD : ∀ s l, D s l → Keeps s l)
    (hC : ∀ s a l act free backlog queue batch, Rep s a free backlog queue batch → a.WellFormed →
      D s l → Matches s a l act → C a act)
    {n : ℕ} {e : UInt32} {tr : List Event} {s : Core}
    (hr : Run coreMachine D (setupCore n e) tr s) :
    ∃ a free backlog queue batch given, History C tr a ∧ Rep s a free backlog queue batch ∧
      (s.ring.cq.log ++ backlog.map s.ring.entry).Perm given ∧
      given.filter (fun p => p.1.isSome) = givenBy tr := by
  induction hr with
  | start => exact ⟨{}, List.range n, [], [], [], [], .start, setupCore_rep n e, .refl _, rfl⟩
  | @next tr s s' l hr hd hs ih =>
    obtain ⟨a, free, backlog, queue, batch, given, hist, hrep, hperm, hgiven⟩ := ih
    have hw := hist.accounts.1
    obtain ⟨a', free', backlog', queue', batch', given', hact, hrep', hperm', hgiven'⟩ :=
      core_step_simulated hrep hw (hD s l hd) hs
    refine ⟨a', free', backlog', queue', batch', given ++ given', ?_, hrep',
      hperm'.trans (hperm.append_right given'), ?_⟩
    · rcases hact with ⟨hev, rfl⟩ | ⟨act, hm, hact⟩
      · rw [show coreMachine.events s l = [] from hev, List.append_nil]
        exact hist
      · exact hist.next ⟨act, hC s a l act _ _ _ _ hrep hw hd hm, hact⟩
    · rw [List.filter_append, hgiven, hgiven', givenBy, givenBy, givenBy, ← List.filterMap_append]
      rfl

/-- The completions that answer an SQE are the ones it gave. -/
theorem completions_eq {given : List (Option ℕ × Cqe)} {tr : List Event}
    (hg : given.filter (fun p => p.1.isSome) = givenBy tr) (i : ℕ) :
    (given.filter (fun p => p.1 = some i)).map Prod.snd = (gives tr i).filterMap id := by
  have howned : given.filter (fun p => p.1 = some i) =
      (given.filter (fun p => p.1.isSome)).filter (fun p => p.1 = some i) := by
    rw [List.filter_filter]
    refine List.filter_congr (fun p _ => ?_)
    rcases p with ⟨_ | j, c⟩ <;> simp
  rw [howned, hg]
  clear howned hg
  induction tr with
  | nil => rfl
  | cons e tr ih =>
    have hcons : givenBy (e :: tr) = givenBy [e] ++ givenBy tr := by
      rw [givenBy, givenBy, givenBy, ← List.filterMap_append]
      rfl
    rw [hcons, List.filter_append, List.map_append, ih, gives_cons, List.filterMap_append]
    congr 1
    cases e with
    | give j g =>
      cases g with
      | none => by_cases hj : j = i <;> simp [givenBy, giveOf, hj]
      | some c => by_cases hj : j = i <;> simp [givenBy, giveOf, hj]
    | _ => rfl

namespace Core

/-- The ops between `be->execute` taking them and `be->wait` giving them to `complete`. -/
def inBackend (s : Core) (x : Slot) : ℕ :=
  s.holds x + match s.pc with
    | .wait _ _ done => (done.map Prod.fst).count x
    | _ => 0

/-- The ops in enter's own locals: the batch it builds, and the op it takes through
`process_queue` or `complete`. -/
def inLocals (s : Core) (batch : List Slot) : List Slot :=
  batch ++ match s.pc with
    | .wait _ _ _ => []
    | _ => s.pc.inEnter

/-- The completions of SQE `i`, in the CQ or the backlog. -/
def completionsOf (s : Core) (backlog : List Slot) (i : ℕ) : List Cqe :=
  ((s.ring.cq.log ++ backlog.map s.ring.entry).filter (fun p => p.1 = some i)).map Prod.snd

end Core

/-- The completions an SQE gives that was finished with a result, or quietly. -/
def Answers (sqe : Sqe) (how : Option Int32) (cqes : List Cqe) : Prop :=
  match how with
  | none => cqes = []
  | some res =>
    if 0 ≤ res ∧ sqe.flags.cqeSkipSuccess then cqes = []
    else ∃ flags, cqes = [⟨sqe.userData, res, flags⟩]

theorem Answers.length_le {sqe : Sqe} {how : Option Int32} {cqes : List Cqe} (h : Answers sqe how cqes) :
    cqes.length ≤ 1 := by
  cases how with
  | none =>
    rw [show cqes = [] from h]
    exact Nat.zero_le 1
  | some res =>
    simp only [Answers] at h
    split at h
    · rw [h]
      exact Nat.zero_le 1
    · obtain ⟨flags, rfl⟩ := h
      exact Nat.le_refl 1

/-- Every slot of the pool is on exactly one of the lists, in the backend's hands or in a local of
enter; an accepted SQE is at such a place, or finished once and answered once. -/
structure Conserves (s : Core) (tr : List Event) (free backlog queue batch : List Slot) : Prop where
  freeList : Threads s.ring.next s.ring.opFree free
  backlogList : IsQueue s.ring.next s.ring.backlogHead s.ring.backlogTail backlog
  queueList : IsQueue s.ring.next s.ring.queueHead s.ring.queueTail queue
  acyclic : backlog.Nodup ∧ queue.Nodup
  places : ∀ x, free.count x + queue.count x + s.inBackend x + backlog.count x +
    (s.inLocals batch).count x = if x < s.ring.opPoolN then 1 else 0
  locals : (∃ ret, s.pc = .out ret) ∨ (∃ f forever done, s.pc = .wait f forever done) →
    s.inLocals batch = []
  answers : ∀ i sqe, .accept i sqe ∈ tr →
    (s.completionsOf backlog i = [] ∧ ∃ x, (s.ring.opPool x).seq = some i ∧
      (x ∈ queue ∨ 0 < s.inBackend x ∨ x ∈ s.inLocals batch)) ∨
    ∃ how, finishes tr i = [how] ∧ Answers sqe how (s.completionsOf backlog i)

section PoolSize
variable (v : Vault) (op : Slot) (u : UInt64) (res : Int32) (fl : UInt32) (reads : List ℕ)

theorem drainBacklogLoop_opPoolN (fuel : ℕ) :
    (Vault.drainBacklogLoop fuel v reads).1.opPoolN = v.opPoolN := by
  induction fuel generalizing v reads with
  | zero => rfl
  | succ fuel ih =>
    unfold Vault.drainBacklogLoop
    split
    · rfl
    · dsimp only
      split
      · exact ih _ _
      · rfl

theorem slipEnginePost_opPoolN : (v.slipEnginePost op res reads).opPoolN = v.opPoolN := by
  have hd : (v.drainBacklogLocked reads).1.opPoolN = v.opPoolN := drainBacklogLoop_opPoolN _ _ _
  unfold Vault.slipEnginePost
  simp only
  split
  · exact hd
  · split
    · exact hd
    · exact (Vault.backlogLocked_opPoolN _ _ _).trans hd

theorem slipEngineEmit_opPoolN : (v.slipEngineEmit u res fl reads).opPoolN = v.opPoolN := by
  have hd : (v.drainBacklogLocked reads).1.opPoolN = v.opPoolN := drainBacklogLoop_opPoolN _ _ _
  unfold Vault.slipEngineEmit
  simp only
  split
  · exact hd
  · unfold Vault.opAllocLocked
    split
    · next halloc =>
      split at halloc
      · cases halloc
      · cases halloc
        exact (Vault.backlogLocked_opPoolN _ _ _).trans hd
    · exact hd

theorem msgRing_opPoolN (r : Ring) (q : Sqe) (target : MsgTarget) :
    (msgRing r q target reads).1.opPoolN = r.opPoolN := by
  unfold msgRing
  split
  · rfl
  · cases target with
    | own => exact slipEngineEmit_opPoolN _ _ _ _ _
    | other => rfl
    | noRing => rfl

end PoolSize

/-- The size of the pool is fixed at setup. -/
theorem core_step_opPoolN {s s' : Core} {l : CoreLabel} (hk : Keeps s l)
    (hs : s.step l = some s') : s'.ring.opPoolN = s.ring.opPoolN := by
  cases l with
  | write r =>
    cases hs
    exact hk.opPoolN
  | post reads =>
    simp only [Core.step, Core.post] at hs
    split at hs <;> cases hs
    exact slipEnginePost_opPoolN _ _ _ _
  | settle reads =>
    simp only [Core.step, Core.settle] at hs
    split at hs <;> cases hs
    have hd := drainBacklogLoop_opPoolN s.ring.toVault reads s.ring.opPoolN
    unfold Ring.settleWorkerTicket
    split
    · split <;> exact hd
    · exact hd
  | complete reads =>
    simp only [Core.step, Core.complete] at hs
    split at hs <;> cases hs
    · rw [complete_eq]
      exact slipEnginePost_opPoolN _ _ _ _
    · rfl
  | cancelHeld t reads =>
    simp only [Core.step, Core.cancelHeld] at hs
    split at hs <;> cases hs
    rw [cancelTarget_eq]
    exact slipEnginePost_opPoolN _ _ _ _
  | cancelQueued p reads =>
    simp only [Core.step, Core.cancelQueued] at hs
    split at hs <;> cases hs
    rw [cancelTarget_eq]
    exact (slipEnginePost_opPoolN _ _ _ _).trans (unlinkQueued_opPoolN _ _ _)
  | offPost op reads =>
    simp only [Core.step, Core.offPost] at hs
    split at hs <;> cases hs
    exact slipEnginePost_opPoolN _ _ _ _
  | offFinish op res ticket =>
    cases hs
    cases ticket <;> rfl
  | emit u res fl reads =>
    cases hs
    exact slipEngineEmit_opPoolN _ _ _ _ _
  | queueStep target reads =>
    simp only [Core.step, Core.queueStep] at hs
    (repeat' split at hs) <;> cases hs <;> first | rfl | exact msgRing_opPoolN _ _ _ _
  | takeSqe =>
    simp only [Core.step, Core.takeSqe] at hs
    split at hs
    swap
    · cases hs
    next call entry rest submitted batchHead batchTail hpc =>
    cases entry with
    | none =>
      cases hs
      rfl
    | some sqe =>
      simp only [Vault.opAllocLocked] at hs
      cases hfree : s.ring.opFree with
      | none =>
        rw [hfree] at hs
        cases hs
        rfl
      | some op =>
        rw [hfree] at hs
        cases hs
        cases batchTail <;> rfl
  | append =>
    simp only [Core.step, Core.append] at hs
    split at hs
    · split at hs <;> cases hs
      · rfl
      · unfold Ring.appendBatch
        cases s.ring.queueTail <;> rfl
    · cases hs
  | check left =>
    simp only [Core.step, Core.check] at hs
    (repeat' split at hs) <;> cases hs <;> rfl
  | read k =>
    cases hs
    rfl
  | _ =>
    simp only [Core.step, Core.execDone, Core.execTake, Core.execPending, Core.handBack,
      Core.waitReturn, Core.waitFail] at hs
    split at hs <;> cases hs
    rfl

theorem Core.At.place {s : Core} {queue batch : List Slot} {x : Slot} {st : Stage}
    (h : s.At (queue ++ batch) x st) : x ∈ queue ∨ 0 < s.inBackend x ∨ x ∈ s.inLocals batch := by
  cases st with
  | queued =>
    rcases List.mem_append.mp h with h | h
    · exact Or.inl h
    · exact Or.inr (Or.inr (List.mem_append_left _ h))
  | held =>
    refine Or.inr (Or.inl (Nat.add_pos_left ?_ _))
    simp [Core.holds, show s.hands x = _ from h]
  | off res =>
    refine Or.inr (Or.inl (Nat.add_pos_left ?_ _))
    simp [Core.holds, show s.hands x = _ from h]
  | running =>
    refine Or.inr (Or.inr (List.mem_append_right _ ?_))
    cases hpc : s.pc <;> simp [Core.At, Pc.executing, Pc.inEnter, hpc] at h ⊢
    exact Or.inl h
  | posting res =>
    refine Or.inr (Or.inr (List.mem_append_right _ ?_))
    cases hpc : s.pc <;> simp [Core.At, Pc.posting, Pc.inEnter, hpc] at h ⊢
    exact Or.inr (Or.inl h.1.symm)
  | returned res =>
    have hmem : x ∈ s.pc.done.map Prod.fst := List.mem_map.mpr ⟨(x, res), h, rfl⟩
    cases hpc : s.pc with
    | wait f forever done =>
      rw [hpc] at hmem
      refine Or.inr (Or.inl (Nat.add_pos_right _ ?_))
      rw [hpc]
      exact List.count_pos_iff.mpr hmem
    | complete f done =>
      rw [hpc] at hmem
      refine Or.inr (Or.inr (List.mem_append_right _ ?_))
      rw [hpc]
      exact List.mem_append_right _ hmem
    | _ => simp [Pc.done, hpc] at hmem
  | unborn => exact h.elim
  | closed => exact h.elim

theorem core_conserves_ops {n : ℕ} {e : UInt32} {tr : List Event} {s : Core}
    (hr : Run coreMachine Keeps (setupCore n e) tr s) :
    s.ring.opPoolN = n ∧ ∃ free backlog queue batch, Conserves s tr free backlog queue batch := by
  have hn : s.ring.opPoolN = n :=
    hr.invariant (fun _ s => s.ring.opPoolN = n) rfl
      (fun _ _ _ _ _ h hk hs => (core_step_opPoolN hk hs).trans h)
  obtain ⟨a, free, backlog, queue, batch, given, hist, hrep, hperm, hgiven⟩ :=
    core_run_refines (C := fun _ _ => True) (fun _ _ h => h) (fun _ _ _ _ _ _ _ _ _ _ _ _ => trivial) hr
  obtain ⟨hw, hacc, haccept⟩ := hist.accounts
  refine ⟨hn, free, backlog, queue, batch, ⟨hrep.placed.vault.free, hrep.placed.vault.backlog,
    hrep.placed.queueList, ⟨?_, ?_⟩, fun x => ?_, ?_, fun i sqe hi => ?_⟩⟩
  · exact (List.nodup_append.mp hrep.placed.nodup).2.1
  · exact (List.nodup_append.mp hrep.placed.queue_nodup).1
  · have hp := hrep.placed.places x
    cases hpc : s.pc <;>
      simp [Core.inBackend, Core.inLocals, Pc.inEnter, Pc.executing, Pc.posting, Pc.done,
        hpc] at hp ⊢ <;> omega
  · have hnil (hb : s.pc.batchHead = none) := hrep.placed.batch_nil hb
    rintro (⟨ret, hpc⟩ | ⟨f, forever, done, hpc⟩)
    · simp [Core.inLocals, hpc, hnil (by rw [hpc]; rfl), Pc.inEnter, Pc.executing, Pc.posting, Pc.done]
    · simp [Core.inLocals, hpc, hnil (by rw [hpc]; rfl)]
  · obtain ⟨hlt, rfl⟩ := (haccept i sqe).mp hi
    have hcomp : (s.completionsOf backlog i).Perm ((gives tr i).filterMap id) := by
      rw [← completions_eq hgiven]
      exact (hperm.filter _).map _
    have hai := hacc i
    have hlive (hl : (a.stage i).isLive = true) (hg : gives tr i = []) :
        s.completionsOf backlog i = [] ∧ ∃ x, (s.ring.opPool x).seq = some i ∧
          (x ∈ queue ∨ 0 < s.inBackend x ∨ x ∈ s.inLocals batch) := by
      rw [hg] at hcomp
      obtain ⟨x, hx, hseq⟩ := hrep.placed.tracks.slot i hl
      exact ⟨hcomp.eq_nil, x, hseq, hx.place⟩
    cases hst : a.stage i with
    | unborn => exact absurd ((hw.born i).mp hst) (by omega)
    | closed =>
      rw [hst] at hai
      obtain ⟨how, g, hf, hg, hgood⟩ := hai
      rw [hg] at hcomp
      refine Or.inr ⟨how, hf, ?_⟩
      cases how with
      | none =>
        rw [show g = none from hgood] at hcomp
        exact hcomp.eq_nil
      | some res =>
        simp only [Chains.Completion] at hgood
        simp only [Answers]
        split
        · next hskip =>
          rw [if_pos hskip] at hgood
          rw [hgood] at hcomp
          exact hcomp.eq_nil
        · next hskip =>
          rw [if_neg hskip] at hgood
          obtain ⟨flags, rfl⟩ := hgood
          exact ⟨flags, List.perm_singleton.mp hcomp⟩
    | _ =>
      rw [hst] at hai
      exact Or.inl (hlive (by rw [hst]; rfl) hai.2)

/-- A CQ of one: the first op is answered there, an emission waits in the backlog with its carrier and behind
it the second op, and the backend has taken the third. -/
theorem core_conserves_ops_pending : ∃ tr s, s.hands 2 = .held ∧ s.ring.opPoolN = 4 ∧
    s.ring.cq.log = [(some 0, ⟨7, 3, 0⟩)] ∧ s.completionsOf [0, 1] 1 = [⟨8, -ebadf, 0⟩] ∧
    s.ring.entry 0 = (none, ⟨9, 1, 2⟩) ∧ finishes tr 1 = [some (-ebadf)] ∧
    ∃ free backlog queue batch, Conserves s tr free backlog queue batch := by
  obtain ⟨tr, s, hr, hheld, hlog, hsecond, hcarrier, hfinished⟩ := Run.of_exec coreMachine
    (fun s l => keepsCheck s l = true) (setupCore 4 1)
    (fun tr s => s.hands 2 = .held ∧ s.ring.cq.log = [(some 0, ⟨7, 3, 0⟩)] ∧
      s.completionsOf [0, 1] 1 = [⟨8, -ebadf, 0⟩] ∧ s.ring.entry 0 = (none, ⟨9, 1, 2⟩) ∧
      finishes tr 1 = [some (-ebadf)])
    [.enter { entries := [some { userData := 7 }, some { userData := 8 }, some {}] }, .takeSqe, .takeSqe,
      .takeSqe, .append, .queueStep .own [], .execDone 3, .post [], .emit 9 1 2 [], .queueStep .own [],
      .execDone (-ebadf), .post [], .queueStep .own [], .execTake, .execPending] (by decide +kernel)
  have hconserves := core_conserves_ops (hr.mono fun _ _ h => keeps_of_check h)
  exact ⟨tr, s, hheld, hconserves.1, hlog, hsecond, hcarrier, hfinished, hconserves.2⟩

end SlipstreamIO.Engine
