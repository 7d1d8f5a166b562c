import SlipstreamIO.PosixSteps

/-! What a cancel answers: with something taken the truth, in every run. -EALREADY, which stands in the
code for an op the worker is inside of, no cancel ever answers: it is kept for a ring that waits for a
chain, and such a ring runs no cancel. -/
namespace SlipstreamIO.Engine

open ThreadedList Runs

/-- The op cancel `i` takes here. -/
def takenOf (i : ℕ) : Event → Option ℕ
  | .take c t _ _ => if c = i then some t else none
  | _ => none

/-- The ops cancel `i` has taken. -/
def takenBy (tr : List Event) (i : ℕ) : List ℕ := tr.filterMap (takenOf i)

@[simp] theorem takenBy_nil (i : ℕ) : takenBy [] i = [] := rfl

@[simp] theorem takenBy_append (tr ev : List Event) (i : ℕ) :
    takenBy (tr ++ ev) i = takenBy tr i ++ takenBy ev i := List.filterMap_append

/-- No cancel takes an op here. -/
def Takeless (ev : List Event) : Prop := ∀ c t sc st, .take c t sc st ∉ ev

/-- Each op a cancel has taken is one it names. -/
def TakesNamed (ev : List Event) : Prop :=
  ∀ c t sc st, .take c t sc st ∈ ev → cancelNames sc st = true

theorem Takeless.takenBy {ev : List Event} (h : Takeless ev) (i : ℕ) : takenBy ev i = [] := by
  rw [Engine.takenBy, List.filterMap_eq_nil_iff]
  intro e he
  cases e with
  | take c t sc st => exact absurd he (h c t sc st)
  | _ => rfl

theorem Takeless.named {ev : List Event} (h : Takeless ev) : TakesNamed ev :=
  fun c t sc st he => absurd he (h c t sc st)

theorem TakesNamed.append {tr ev : List Event} (h : TakesNamed tr) (h' : TakesNamed ev) :
    TakesNamed (tr ++ ev) :=
  fun c t sc st he => (List.mem_append.mp he).elim (h c t sc st) (h' c t sc st)

/-- An SQE that has not run has taken nothing. -/
theorem Act.Step.untaken {a a' : Chains} {act : Act} {tr ev : List Event} (hw : a.WellFormed)
    (h : ∀ i, a.stage i = .unborn ∨ a.stage i = .queued → takenBy tr i = [])
    (hs : act.Step a ev a') (i : ℕ) (hi : a'.stage i = .unborn ∨ a'.stage i = .queued) :
    takenBy (tr ++ ev) i = [] := by
  have hold {k : ℕ} {st : Stage} (hstage : ∀ j, a'.stage j = if j = k then st else a.stage j)
      (hst : st ≠ .unborn ∧ st ≠ .queued) : a.stage i = .unborn ∨ a.stage i = .queued := by
    rw [hstage] at hi
    split at hi
    · exact (hi.elim hst.1 hst.2).elim
    · exact hi
  rw [takenBy_append, List.append_eq_nil_iff]
  cases hs with
  | accept sqe =>
    refine ⟨h i ?_, rfl⟩
    by_cases hn : i = a.n
    · exact .inl ((hw.born i).mpr hn.ge)
    · simpa [hn] using hi
  | cancelLoud | cancelQuiet | fail | message | begin | answer | post | hold | handBack | complete | finish
  | offPost => exact ⟨h i (hold (fun _ => rfl) ⟨nofun, nofun⟩), rfl⟩
  | pend | settle => exact ⟨h i hi, rfl⟩
  | @takeHeld c t g sc st hc hr hs hg =>
    have hu := hold (k := t) (fun _ => rfl) ⟨nofun, nofun⟩
    refine ⟨h i hu, ?_⟩
    have hne : c ≠ i := by
      rintro rfl
      simp [hr] at hu
    simp [takenBy, takenOf, hne]
  | @takeQueued c t pre suf g sc st hc hr hq hg =>
    have hu := hold (k := t) (fun _ => rfl) ⟨nofun, nofun⟩
    refine ⟨h i hu, ?_⟩
    have hne : c ≠ i := by
      rintro rfl
      simp [hr] at hu
    simp [takenBy, takenOf, hne]

theorem History.untaken {C : Chains → Act → Prop} {tr : List Event} {a : Chains} (h : History C tr a) :
    ∀ i, a.stage i = .unborn ∨ a.stage i = .queued → takenBy tr i = [] := by
  refine (h.invariant (fun tr a => a.WellFormed ∧
    ∀ i, a.stage i = .unborn ∨ a.stage i = .queued → takenBy tr i = [])
    ⟨Chains.wellFormed_empty, fun i _ => rfl⟩ ?_).2
  rintro tr a ev a' - ⟨hw, htaken⟩ ⟨act, -, hs⟩
  exact ⟨hs.wellFormed hw, hs.untaken hw htaken⟩

section Steps
variable {s s' : Posix} {wq : List Slot} {p : List PosixEvent × Posix} {tr : List PosixEvent}
  {c t x : Slot} {i : ℕ}

/-- These steps end with nothing inside execute. -/
def CoreLabel.leaves : CoreLabel → Bool
  | .execDone _ | .execTake | .execPending | .handBack _ _ | .waitReturn | .waitFail => true
  | _ => false

/-- How many ops the cancel has taken. -/
def BackPc.count : BackPc → ℕ
  | .cancelWaiting _ n | .cancelQueue _ n | .cancelLock _ n | .cancelTaken _ _ n | .cancelAnswer n => n
  | _ => 0

theorem takeless_gives (s : Core) (op : Slot) (res : Int32) : Takeless (s.gives op res) := by
  intro c t sc st he
  unfold Core.gives Core.about at he
  split at he <;> simp at he

theorem takeless_result (s : Core) (op : Slot) (res : Int32) :
    Takeless (s.about op (.result · res)) := by
  intro c t sc st he
  unfold Core.about at he
  split at he <;> simp at he

theorem Takeless.append {ev ev' : List Event} (h : Takeless ev) (h' : Takeless ev') :
    Takeless (ev ++ ev') :=
  fun c t sc st he => (List.mem_append.mp he).elim (h c t sc st) (h' c t sc st)

/-- A cancel that takes an op takes this one. -/
theorem takes_takenBy {s : Core} {k : ℕ} (hc : (s.ring.opPool c).seq = some i)
    (ht : (s.ring.opPool t).seq = some k) (hn : cancelNames (s.ring.opPool c).sqe
      (s.ring.opPool t).sqe = true) : takenBy (s.takes c t) i = [k] ∧ TakesNamed (s.takes c t) := by
  have hgives := takeless_gives s t (-ecanceled)
  have htakes : s.takes c t =
      .take i k (s.ring.opPool c).sqe (s.ring.opPool t).sqe :: s.gives t (-ecanceled) := by
    simp [Core.takes, Core.about, hc, ht]
  rw [htakes]
  constructor
  · simp only [takenBy, List.filterMap_cons, takenOf, if_true]
    rw [show List.filterMap (takenOf i) (s.gives t (-ecanceled)) = [] from hgives.takenBy i]
  · intro c' t' sc st he
    obtain he | he := List.mem_cons.mp he
    · cases he
      exact hn
    · exact absurd he (hgives c' t' sc st)

/-- Only the two labels of a cancel report that an op is taken. -/
theorem takeless_events (s : Core) {l : CoreLabel} (hl : ∀ t reads, l ≠ .cancelHeld t reads)
    (hl' : ∀ p reads, l ≠ .cancelQueued p reads) : Takeless (s.events l) := by
  intro c t sc st he
  cases l with
  | cancelHeld t reads => exact hl t reads rfl
  | cancelQueued p reads => exact hl' p reads rfl
  | post reads | complete reads | offPost op reads =>
    simp only [Core.events] at he
    split at he
    · exact takeless_gives _ _ _ _ _ _ _ he
    · exact absurd he List.not_mem_nil
  | execDone res =>
    simp only [Core.events] at he
    split at he
    · exact takeless_result _ _ _ _ _ _ _ he
    · exact absurd he List.not_mem_nil
  | handBack op res | offFinish op res ticket => exact takeless_result _ _ _ _ _ _ _ he
  | takeSqe =>
    simp only [Core.events] at he
    split at he <;> simp at he
  | queueStep target reads =>
    simp only [Core.events, Core.queueEvents, Core.about] at he
    repeat' split at he
    all_goals simp at he
  | _ => exact absurd he List.not_mem_nil

theorem unlinkWq_seq (r : Ring) (ptr : Link Slot) (t x : Slot) :
    ((r.unlinkWq ptr t).opPool x).seq = (r.opPool x).seq := by
  unfold Ring.unlinkWq
  cases ptr with
  | head =>
    dsimp only
    split <;> rfl
  | nextOf y =>
    have hset : ((r.inVault (·.setNext y (r.next t))).opPool x).seq = (r.opPool x).seq := by
      simp only [Ring.inVault_toVault, Vault.setNext, Vault.setOp_opPool]
      split
      · next he => rw [he]
      · rfl
    dsimp only
    split <;> exact hset

theorem Core.Sound.has_seq {s : Core} (h : s.Sound) (hx : s.has x) :
    ∃ i, (s.ring.opPool x).seq = some i := by
  obtain ⟨a, free, backlog, queue, batch, -, hr⟩ := h
  obtain ⟨st, hst⟩ := @has_at s x (queue ++ batch) hx
  obtain ⟨i, hi, -⟩ := hr.placed.tracks.owner x st hst
  exact ⟨i, hi⟩

/-- What a step that is no search and no step of the engine leaves of a cancel inside execute. -/
structure Posix.Stays (s : Posix) (p : List PosixEvent × Posix) : Prop where
  takeless : Takeless (coreEvents p.1)
  executing : ∀ x, p.2.core.pc.executing = some x → s.core.pc.executing = some x ∧
    (p.2.core.ring.opPool x).seq = (s.core.ring.opPool x).seq ∧ p.2.back.count = s.back.count

namespace Posix

/-- Nothing is executing afterwards. -/
theorem stays_out (ht : Takeless (coreEvents p.1)) (hx : p.2.core.pc.executing = none) : s.Stays p :=
  ⟨ht, fun x h => by cases hx.symm.trans h⟩

theorem stays_quiet (hs : s'.quiet = some p)
    (hx : ∀ x, s'.core.pc.executing = some x → s.core.pc.executing = some x ∧
      (s'.core.ring.opPool x).seq = (s.core.ring.opPool x).seq ∧ s'.back.count = s.back.count) :
    s.Stays p := by
  cases hs
  exact ⟨fun _ _ _ _ he => absurd he List.not_mem_nil, hx⟩

/-- A step of the core that leaves execute, or comes from outside. -/
theorem stays_inCore {s₀ : Posix} {l : CoreLabel} {b : BackPc}
    (ht : Takeless (s₀.core.events l)) (hs : s₀.inCore l b = some p)
    (hx : ∀ c, s₀.core.step l = some c → c.pc.executing = none) : s.Stays p := by
  obtain ⟨c, hc, hev, hp⟩ := inCore_eq hs
  apply stays_out
  · rw [hev, coreEvents_core]
    exact ht
  · rw [hp]
    exact hx c hc

theorem Stays.andThen {q t : List PosixEvent × Posix} (hq : Takeless (coreEvents q.1))
    (h : s.Stays t) : s.Stays (q.1 ++ t.1, t.2) :=
  ⟨by rw [coreEvents_append]; exact hq.append h.takeless, h.executing⟩

theorem leaves_execute {s s' : Core} {l : CoreLabel} (hl : l.leaves = true)
    (hs : s.step l = some s') : s'.pc.executing = none ∧ Takeless (s.events l) := by
  cases l with
  | execDone res | execTake | execPending | handBack op res | waitReturn | waitFail =>
    refine ⟨?_, takeless_events s (by rintro _ _ ⟨⟩) (by rintro _ _ ⟨⟩)⟩
    simp only [Core.step, Core.execDone, Core.execTake, Core.execPending, Core.handBack, Core.waitReturn,
      Core.waitFail] at hs
    split at hs
    · cases hs
      rfl
    · cases hs
  | _ => cases hl

theorem stays_leaving {s₀ : Posix} {l : CoreLabel} {b : BackPc} (hs : s₀.inCore l b = some p)
    (hl : l.leaves = true) : s.Stays p := by
  obtain ⟨c, hc, -⟩ := inCore_eq hs
  apply stays_inCore (leaves_execute hl hc).2 hs
  intro c hc
  exact (leaves_execute hl hc).1

theorem turn_events (s : Posix) (op : Slot) (a : OsAnswer) (reads : List ℕ) :
    coreEvents (s.turn op a reads).1 = [] := by
  unfold Posix.turn
  dsimp only
  split
  · unfold about
    split <;> rfl
  · rfl

theorem turn_takeless (s : Posix) (op : Slot) (a : OsAnswer) (reads : List ℕ) :
    Takeless (coreEvents (s.turn op a reads).1) := by
  rw [turn_events]
  exact fun _ _ _ _ he => absurd he List.not_mem_nil

/-- Taken and pending at once. -/
theorem stays_taken {s₀ : Posix} {op : Slot} {linked : Bool} {r : Ring}
    (hs : andThen (s₀.takeOp op linked r) (·.inCore .execPending .core) = some p) : s.Stays p := by
  obtain ⟨q, u, hq, hu, rfl⟩ := andThen_eq hs
  exact .andThen (stays_leaving (s := s) hq rfl).takeless (stays_leaving hu rfl)

theorem Inv.execute_stays (h : s.Inv wq) (hg : s.core.Sound) {a : OsAnswer} {armed : Bool}
    {links : List (Slot × Option Slot)} {reads : List ℕ}
    (hs : s.execute a armed links reads = some p) : s.Stays p := by
  unfold Posix.execute at hs
  split at hs
  swap
  · cases hs
  next f op linked hpc =>
  split at hs
  · cases hs
  obtain ⟨q, u, hq, hu, rfl⟩ := andThen_eq hs
  cases hq
  apply Stays.andThen (turn_takeless s op a reads)
  have hop : Inv.Tries s op := .inl (by rw [hpc]; rfl)
  obtain ⟨r, hr, -, -, hpool⟩ := h.turn hg hop a reads
  rw [hr] at hu
  split at hu
  · apply stays_quiet hu
    intro x hx
    refine ⟨hx, ?_, rfl⟩
    have hxop : x = op := by
      have hexec : s.core.pc.executing = some x := hx
      rw [hpc] at hexec
      exact (Option.some.inj hexec).symm
    show (r.opPool x).seq = _
    rw [hxop, hpool]
    exact ((s.core.ring.opPool op).slipPosixTry_turn a).tried.seq
  · exact stays_leaving hu rfl
  · dsimp only at hu
    split at hu
    · exact stays_taken hu
    · exact stays_leaving hu rfl
  · split at hu
    · exact stays_taken hu
    · exact stays_leaving hu rfl

theorem Inv.retry_stays (h : s.Inv wq) (hg : s.core.Sound) {a : OsAnswer} {armed : Bool}
    {links : List (Slot × Option Slot)} {reads : List ℕ}
    (hs : s.retry a armed links reads = some p) : s.Stays p := by
  have hfits := h.fits
  unfold Posix.retry at hs
  unfold Fits at hfits
  split at hs
  swap
  · cases hs
  next op ready hback =>
  rw [hback] at hfits
  obtain ⟨⟨f, forever, done, hpc⟩, -⟩ := hfits
  obtain ⟨q, u, hq, hu, rfl⟩ := andThen_eq hs
  cases hq
  apply Stays.andThen (turn_takeless s op a reads)
  have hop : Inv.Tries s op := .inr (by simp [hback, BackPc.own])
  obtain ⟨r, hr, -⟩ := h.turn hg hop a reads
  rw [hr] at hu
  have hnone (x : Slot) : s.core.pc.executing ≠ some x := by
    rw [hpc]
    exact (Option.some_ne_none x).symm
  split at hu
  · exact stays_quiet hu fun x hx => absurd hx (hnone x)
  · exact stays_leaving hu rfl
  · exact stays_leaving hu rfl
  · dsimp only at hu
    split at hu
    · exact stays_quiet hu fun x hx => absurd hx (hnone x)
    · exact stays_leaving hu rfl

/-- Every step but one of the engine or of a cancel. -/
theorem Inv.stays (h : s.Inv wq) (hg : s.core.Sound) {l : PosixLabel} (hl : ∀ l', l ≠ .engine l')
    (hl' : ∀ links reads, l ≠ .cancel links reads) (hs : s.out l = some p) : s.Stays p := by
  have hfits := h.fits
  unfold Fits at hfits
  have hidle (hw : s.core.waits) (x : Slot) : s.core.pc.executing ≠ some x := by
    obtain ⟨f, forever, done, hpc⟩ := hw
    rw [hpc]
    exact (Option.some_ne_none x).symm
  cases l with
  | engine l => exact absurd rfl (hl l)
  | cancel links reads => exact absurd rfl (hl' links reads)
  | tries a armed links reads =>
    simp only [Posix.out] at hs
    split at hs
    · exact h.execute_stays hg hs
    · exact h.retry_stays hg hs
  | pending => exact stays_leaving hs rfl
  | wake reported ready =>
    simp only [Posix.out, Posix.wake] at hs
    split at hs
    swap
    · cases hs
    next f forever hpc hback =>
    split at hs
    · exact stays_quiet hs fun x hx => absurd hx (hidle ⟨f, forever, [], hpc⟩ x)
    · cases hs
  | drain =>
    simp only [Posix.out, Posix.drain] at hs
    split at hs
    swap
    · cases hs
    next ready hback =>
    rw [hback] at hfits
    obtain ⟨⟨got, pipe⟩, -, hs⟩ := Option.bind_eq_some_iff.mp hs
    exact stays_quiet hs fun x hx => absurd hx (hidle hfits.1 x)
  | ready links =>
    simp only [Posix.out, Posix.nextReady] at hs
    split at hs
    swap
    · cases hs
    next f forever done op ready hpc hback =>
    split at hs
    · exact stays_quiet hs fun x hx => absurd hx (hidle ⟨f, forever, done, hpc⟩ x)
    · cases hs
  | cameBack op res =>
    simp only [Posix.out, Posix.cameBack] at hs
    split at hs
    swap
    · cases hs
    split at hs
    · exact stays_leaving hs rfl
    · cases hs
  | back =>
    simp only [Posix.out, Posix.waitReturns] at hs
    split at hs
    swap
    · cases hs
    split at hs
    · exact stays_leaving hs rfl
    · cases hs
  | fail =>
    simp only [Posix.out] at hs
    split at hs
    · exact stays_leaving hs rfl
    · cases hs
  | workerTake =>
    simp only [Posix.out, Posix.workerTake] at hs
    split at hs
    swap
    · cases hs
    exact stays_quiet hs fun x hx => ⟨hx, rfl, rfl⟩
  | workerFinish res =>
    simp only [Posix.out, Posix.workerFinish] at hs
    split at hs
    swap
    · cases hs
    next op hruns =>
    obtain ⟨q, u, hq, hu, rfl⟩ := andThen_eq hs
    obtain ⟨c, hc, hev, hq2⟩ := inCore_eq hq
    have hu2 : u.2 = q.2 ∧ coreEvents u.1 = [] := by
      split at hu <;> cases hu <;> exact ⟨rfl, rfl⟩
    constructor
    · rw [coreEvents_append, hu2.2, List.append_nil, hev, coreEvents_core]
      apply takeless_events
      · rintro _ _ ⟨⟩
      · rintro _ _ ⟨⟩
    · intro x hx
      have hc' : c.pc = s.core.pc ∧ c.ring.toVault = s.core.ring.toVault := by
        simp only [Core.step, Core.offFinish] at hc
        split at hc <;> cases hc <;> exact ⟨rfl, rfl⟩
      rw [hu2.1, hq2] at hx ⊢
      refine ⟨hc'.1 ▸ hx, ?_, rfl⟩
      show (c.ring.toVault.opPool x).seq = _
      rw [hc'.2]
  | workerPost reads =>
    simp only [Posix.out, Posix.workerPost] at hs
    split at hs <;> cases hs
    next op res hfin =>
    have hoff : s.core.hands op = .off res := (h.off op res).mpr hfin
    constructor
    · rw [coreEvents_core]
      exact takeless_gives _ _ _
    · intro x hx
      refine ⟨hx, congrArg EngOp.seq ?_, rfl⟩
      have hstep : s.core.step (.offPost op reads) = some { s.core.setHand op .none with
          ring := s.core.ring.inVault (·.slipEnginePost op res reads) } := by
        simp only [Core.step, Core.offPost, hoff]
      apply hg.others (show Keeps s.core (.offPost op reads) from trivial) hstep _ (.inr hx)
      · intro he
        cases he
        cases hoff.symm.trans (hg.executing hx)
      · intro r hr
        cases hr
  | workerPoke | senderPoke =>
    simp only [Posix.out] at hs
    split at hs
    swap
    · cases hs
    obtain ⟨pipe, -, hs⟩ := Option.bind_eq_some_iff.mp hs
    exact stays_quiet hs fun x hx => ⟨hx, rfl, rfl⟩
  | senderEmit u res reads =>
    refine stays_quiet hs fun x hx => ⟨hx, congrArg EngOp.seq ?_, rfl⟩
    exact hg.emit_others (.inr hx) u res 0 reads
  | interrupted worker =>
    simp only [Posix.out] at hs
    repeat' split at hs
    all_goals first | (cases hs; done) | exact stays_quiet hs fun x hx => ⟨hx, rfl, rfl⟩
  | table l => exact stays_quiet hs fun x hx => ⟨hx, (table_writes s.core l).seq x, rfl⟩

/-- What a step of a cancel leaves of it: it counts what it takes. -/
structure CountsOn (s : Posix) (c : Slot) (i : ℕ) (p : List PosixEvent × Posix) : Prop where
  named : TakesNamed (coreEvents p.1)
  counted : ∀ x, p.2.core.pc.executing = some x → x = c ∧ (p.2.core.ring.opPool x).seq = some i ∧
    p.2.back.count = s.back.count + (takenBy (coreEvents p.1) i).length

theorem counts_quiet (hc : s.core.pc.executing = some c) (hi : (s.core.ring.opPool c).seq = some i)
    (hs : s'.quiet = some p) (hcore : s'.core.pc = s.core.pc)
    (hseq : (s'.core.ring.opPool c).seq = (s.core.ring.opPool c).seq)
    (hb : s'.back.count = s.back.count) : s.CountsOn c i p := by
  cases hs
  refine ⟨fun _ _ _ _ he => absurd he List.not_mem_nil, fun x hx => ?_⟩
  have hxc : x = c := by
    have hexec : s.core.pc.executing = some x := hcore ▸ hx
    exact Option.some.inj (hexec.symm.trans hc)
  subst hxc
  exact ⟨rfl, hseq.trans hi, hb⟩

/-- The core takes one op. -/
theorem counts_taken {s₀ : Posix} {l : CoreLabel} {b : BackPc} {k : ℕ} (hs : s₀.inCore l b = some p)
    (hl : s₀.core.events l = s₀.core.takes c t) (hexec : s₀.core.pc.executing = some c)
    (hi : (s₀.core.ring.opPool c).seq = some i) (hk : (s₀.core.ring.opPool t).seq = some k)
    (hname : cancelNames (s₀.core.ring.opPool c).sqe (s₀.core.ring.opPool t).sqe = true)
    (hpc : ∀ d, s₀.core.step l = some d → d.pc = s₀.core.pc)
    (hsame : ∀ d, s₀.core.step l = some d → d.ring.opPool c = s₀.core.ring.opPool c)
    (hb : b.count = s.back.count + 1) : s.CountsOn c i p := by
  obtain ⟨d, hd, hev, hp⟩ := inCore_eq hs
  obtain ⟨htaken, hnamed⟩ := takes_takenBy hi hk hname
  have hevents : coreEvents p.1 = s₀.core.takes c t := by
    rw [hev, coreEvents_core, hl]
  refine ⟨by rw [hevents]; exact hnamed, fun x hx => ?_⟩
  rw [hp] at hx ⊢
  have hxc : x = c := by
    have hx' : s₀.core.pc.executing = some x := (hpc d hd) ▸ hx
    exact Option.some.inj (hx'.symm.trans hexec)
  subst hxc
  refine ⟨rfl, ?_, ?_⟩
  · show (d.ring.opPool x).seq = some i
    rw [hsame d hd, hi]
  · rw [hevents, htaken]
    exact hb

theorem counts_held {s₀ : Posix} {b : BackPc} {reads : List ℕ} (hg : s₀.core.Sound)
    (hheld : s₀.core.hands t = .held) (hcode : (s₀.core.ring.opPool c).sqe.opcode.cancels = true)
    (hs : s₀.inCore (.cancelHeld t reads) b = some p) (hexec : s₀.core.pc.executing = some c)
    (hi : (s₀.core.ring.opPool c).seq = some i)
    (hname : cancelNames (s₀.core.ring.opPool c).sqe (s₀.core.ring.opPool t).sqe = true)
    (hb : b.count = s.back.count + 1) : s.CountsOn c i p := by
  have hk : Keeps s₀.core (.cancelHeld t reads) := ⟨hheld, c, hexec, hcode⟩
  obtain ⟨k, hseq⟩ := hg.has_seq (x := t) (.inl (by simp [hheld]))
  have hev : s₀.core.events (.cancelHeld t reads) = s₀.core.takes c t := by
    unfold Pc.executing at hexec
    simp only [Core.events]
    split at hexec <;> cases hexec
    next hpc => rw [hpc]
  refine counts_taken hs hev hexec hi hseq hname (fun d hd => ?_) (fun d hd => ?_) hb
  · simp only [Core.step, Core.cancelHeld] at hd
    split at hd <;> cases hd
    rfl
  · apply hg.others hk hd _ (.inr hexec)
    · intro he
      cases he
      rw [hg.executing hexec] at hheld
      cases hheld
    · intro r hr
      cases hr

theorem counts_queued {b : BackPc} {ptr : Link Slot} {reads : List ℕ} (hg : s.core.Sound)
    (hk : Keeps s.core (.cancelQueued ptr reads)) (hs : s.inCore (.cancelQueued ptr reads) b = some p)
    (hexec : s.core.pc.executing = some c) (hi : (s.core.ring.opPool c).seq = some i)
    (ht : ptr.read s.core.ring.next s.core.ring.queueHead = some t)
    (hname : cancelNames (s.core.ring.opPool c).sqe (s.core.ring.opPool t).sqe = true)
    (hb : b.count = s.back.count + 1) : s.CountsOn c i p := by
  have hpc : ∃ f linked, s.core.pc = .exec f c linked false := by
    unfold Pc.executing at hexec
    split at hexec <;> cases hexec
    exact ⟨_, _, by assumption⟩
  obtain ⟨f, linked, hpc⟩ := hpc
  have hseq : ∃ k, (s.core.ring.opPool t).seq = some k := by
    obtain ⟨a, free, backlog, queue, batch, -, hr⟩ := hg
    have hbatch : batch = [] := hr.placed.batch_nil (by simp [Pc.batchHead, hpc])
    subst hbatch
    obtain ⟨_, _, _, k, _, -, -, -, -, hk⟩ := hr.placed.split_queue hk.1 ht
    exact ⟨k, hk⟩
  obtain ⟨k, hseq⟩ := hseq
  have hev : s.core.events (.cancelQueued ptr reads) = s.core.takes c t := by
    simp only [Core.events, hpc, ht]
  refine counts_taken hs hev hexec hi hseq hname (fun d hd => ?_) (fun d hd => ?_) hb
  · simp only [Core.step, Core.cancelQueued] at hd
    split at hd <;> cases hd
    rfl
  · apply hg.others hk hd _ (.inr hexec)
    · intro he
      cases he
    · intro r hr
      cases hr

theorem Inv.cancel_counts (h : s.Inv wq) (hg : s.core.Sound) {links : List (Slot × Option Slot)}
    {reads : List ℕ} (hs : s.cancelStep links reads = some p) (hc : s.core.pc.executing = some c)
    (hi : (s.core.ring.opPool c).seq = some i) : s.CountsOn c i p := by
  have hfits := h.fits
  unfold Posix.cancelStep at hs
  rw [hc] at hs
  dsimp only at hs
  unfold Fits at hfits
  split at hs
  · next hback =>
    split at hs
    · exact counts_quiet hc hi hs rfl rfl (by rw [hback]; rfl)
    · cases hs
  · next j count hback =>
    rw [hback] at hfits
    split at hs
    · exact counts_quiet hc hi hs rfl rfl (by rw [hback]; rfl)
    · next t ht =>
      split at hs
      · next hname =>
        have hmem : t ∈ s.core.ring.waiting := List.mem_of_getElem? ht
        obtain ⟨c', hc', hcode, -⟩ := hfits.2
        cases hc.symm.trans hc'
        obtain ⟨hk, hholds⟩ :=
          h.unparks (b := .retrying t []) hg (by rw [hback]; rfl) hmem links rfl rfl
        have hg' : (s.setRing (s.core.ring.unpark t links)).core.Sound := hg.run (setRing_run hk)
        have hheld : s.core.hands t = .held := (h.held t).mpr (by simp [holders, hmem])
        refine counts_held hg' hheld ?_ hs hc ?_ ?_ ?_
        · show ((s.core.ring.unpark t links).opPool c).sqe.opcode.cancels = true
          rw [hk.sqe, hcode]
        · show ((s.core.ring.unpark t links).opPool c).seq = some i
          rw [hk.seq, hi]
        · show cancelNames ((s.core.ring.unpark t links).opPool c).sqe
            ((s.core.ring.unpark t links).opPool t).sqe = true
          rw [hk.sqe, hk.sqe, hname]
        · rw [hback]
          split <;> rfl
      · exact counts_quiet hc hi hs rfl rfl (by rw [hback]; rfl)
  · next ptr count hback =>
    rw [hback] at hfits
    obtain ⟨-, hsearched, queue, hqueue, hptr⟩ := hfits
    split at hs
    · exact counts_quiet hc hi hs rfl rfl (by rw [hback]; rfl)
    · next t ht =>
      split at hs
      · next hname =>
        refine counts_queued hg ⟨?_, hsearched.cancelling⟩ hs hc hi ht hname ?_
        · obtain ⟨queue', hq, hlen⟩ := hg.queue
          obtain rfl := threads_unique hqueue hq
          rw [walk_eq hq _ hlen]
          exact hptr
        · rw [hback]
          split <;> rfl
      · exact counts_quiet hc hi hs rfl rfl (by rw [hback]; rfl)
  · next ptr count hback =>
    rw [hback] at hfits
    obtain ⟨-, pre, suf, rfl, rfl, -⟩ := hfits
    split at hs
    · cases hs
    · exact counts_quiet hc hi hs rfl rfl (by rw [hback]; rfl)
    · next ptr t hscan =>
      refine counts_quiet hc hi hs rfl ?_ (by rw [hback]; rfl)
      show ((s.core.ring.unlinkWq ptr t).opPool c).seq = _
      rw [unlinkWq_seq]
  · next ptr t count hback =>
    rw [hback] at hfits
    obtain ⟨_, ⟨c', hc', hname⟩, _, _, _, _, hsearched⟩ := hfits
    cases hc.symm.trans hc'
    obtain ⟨c'', hc'', hcode, -⟩ := hsearched
    cases hc.symm.trans hc''
    have hheld : s.core.hands t = .held :=
      (h.held t).mpr (List.mem_append_right _ (by simp [hback, BackPc.own]))
    refine counts_held hg hheld hcode hs hc hi hname ?_
    rw [hback]
    split <;> rfl
  · next count hback =>
    obtain ⟨q, u, hq, hu, rfl⟩ := andThen_eq hs
    cases hq
    have hu' : s.Stays u := stays_leaving hu rfl
    refine ⟨hu'.takeless.named, fun x hx => ?_⟩
    obtain ⟨d, hd, -, hp⟩ := inCore_eq hu
    rw [hp] at hx
    cases (leaves_execute rfl hd).1.symm.trans hx
  · cases hs

/-- A step of the engine takes nothing; a cancel it sends into execute has taken nothing before. -/
theorem Inv.engine_counts (h : s.Inv wq) {n : ℕ} {e : UInt32}
    (hr : Run coreMachine Keeps (setupCore n e) (coreEvents tr) s.core)
    (hcount : ∀ c i, s.core.pc.executing = some c → (s.core.ring.opPool c).seq = some i →
      (takenBy (coreEvents tr) i).length = s.back.count)
    {l : CoreLabel} (hs : s.engineStep l = some p) :
    Takeless (coreEvents p.1) ∧ ∀ c i, p.2.core.pc.executing = some c →
      (p.2.core.ring.opPool c).seq = some i →
        (takenBy (coreEvents (tr ++ p.1)) i).length = p.2.back.count := by
  unfold engineStep at hs
  split at hs
  swap
  · cases hs
  next hl =>
  obtain ⟨q, u, hq, hu, rfl⟩ := andThen_eq hs
  obtain ⟨d, hd, hev, hq2⟩ := inCore_eq hq
  have hu2 : u.2 = q.2 ∧ coreEvents u.1 = [] := by
    cases l with
    | settle reads =>
      dsimp only at hu
      split at hu <;> cases hu <;> exact ⟨rfl, rfl⟩
    | _ => cases hu; exact ⟨rfl, rfl⟩
  have htakeless : Takeless (coreEvents (q.1 ++ u.1)) := by
    rw [coreEvents_append, hu2.2, List.append_nil, hev, coreEvents_core]
    apply takeless_events
    · rintro t reads rfl
      cases hl
    · rintro p reads rfl
      cases hl
  refine ⟨htakeless, fun c i hc hi => ?_⟩
  rw [coreEvents_append, takenBy_append, htakeless.takenBy, List.append_nil]
  rw [hu2.1, hq2] at hc hi ⊢
  obtain ⟨⟨k, rfl⟩, hexec⟩ | ⟨⟨target, reads, rfl⟩, hbegins⟩ := engine_executing hl hd hc
  · cases hd
    exact hcount c i hexec hi
  · have hback : s.back = .core := by
      by_contra hne
      obtain ⟨k, hk⟩ := engine_reads hl hd (h.fits.busy hne)
      cases hk
    obtain ⟨a, free, backlog, queue, batch, given, hist, hrep, -⟩ :=
      core_run_refines (C := fun _ _ => True) (fun _ _ h => h) (fun _ _ _ _ _ _ _ _ _ _ _ _ => trivial) hr
    have hmem : c ∈ queue := by
      apply List.mem_of_mem_head?
      rw [← hrep.placed.queueList.head_eq]
      exact hbegins.head
    obtain ⟨j, hj, hstage, -⟩ := hrep.placed.tracks.owner c .queued (List.mem_append_left _ hmem)
    obtain rfl : j = i := Option.some.inj (hj.symm.trans (hbegins.seq.symm.trans hi))
    rw [hist.untaken j (.inr hstage)]
    show 0 = s.back.count
    rw [hback]
    rfl

/-- In every run the search has counted what it took, and took what it names. -/
theorem counts_run {n : ℕ} {e : UInt32} {b : Bool} {k : ℕ} {hk : 0 < k}
    (hr : Run posixMachine Posix.Spares (setupPosix n e b k hk) tr s) :
    TakesNamed (coreEvents tr) ∧ ∀ c i, s.core.pc.executing = some c →
      (s.core.ring.opPool c).seq = some i → (takenBy (coreEvents tr) i).length = s.back.count := by
  refine hr.invariant (fun tr s => TakesNamed (coreEvents tr) ∧ ∀ c i,
    s.core.pc.executing = some c → (s.core.ring.opPool c).seq = some i →
      (takenBy (coreEvents tr) i).length = s.back.count)
    ⟨fun _ _ _ _ he => absurd he List.not_mem_nil, nofun⟩ ?_
  rintro tr s l s' hrun ⟨hnamed, hcount⟩ - hs
  obtain ⟨hcore, wq, hinv⟩ := posix_refines hrun
  have hg : s.core.Sound := (setupPosix_sound n e b k hk).run hcore
  have hout := step_out hs
  rw [coreEvents_append]
  by_cases hl : ∃ l', l = .engine l'
  · obtain ⟨l', rfl⟩ := hl
    obtain ⟨htakeless, hnext⟩ := hinv.engine_counts hcore hcount hout
    refine ⟨hnamed.append htakeless.named, fun c i hc hi => ?_⟩
    rw [← coreEvents_append]
    exact hnext c i hc hi
  by_cases hl' : ∃ links reads, l = .cancel links reads
  · obtain ⟨links, reads, rfl⟩ := hl'
    have hexec : ∃ c, s.core.pc.executing = some c := by
      cases hc : s.core.pc.executing with
      | some c => exact ⟨c, rfl⟩
      | none => simp [Posix.out, Posix.cancelStep, hc] at hout
    obtain ⟨c, hc⟩ := hexec
    obtain ⟨i, hi⟩ := hg.has_seq (x := c) (.inr hc)
    have hon := hinv.cancel_counts hg hout hc hi
    refine ⟨hnamed.append hon.named, fun x j hx hj => ?_⟩
    obtain ⟨rfl, hseq, hb⟩ := hon.counted x hx
    obtain rfl : i = j := Option.some.inj (hseq.symm.trans hj)
    rw [takenBy_append, List.length_append, hcount x i hc hi, hb]
  · have hstays := hinv.stays hg (fun l' he => hl ⟨l', he⟩) (fun links reads he => hl' ⟨links, reads, he⟩) hout
    refine ⟨hnamed.append hstays.takeless.named, fun c i hc hi => ?_⟩
    obtain ⟨hc', hseq, hb⟩ := hstays.executing c hc
    rw [takenBy_append, hstays.takeless.takenBy, List.append_nil, hb]
    exact hcount c i hc' (hseq.symm.trans hi)

/-- The answer `res` of cancel `i`, in slot `c`, where `wq` is the worker queue, tells what the cancel took
and left, and whether the worker is inside an op it names. -/
structure AnswersTruly (s : Posix) (wq : List Slot) (tr : List PosixEvent) (c : Slot) (i : ℕ)
    (res : Int32) : Prop where
  named : ∀ t sc st, .take i t sc st ∈ coreEvents tr → cancelNames sc st = true
  one : cancelAll (s.core.ring.opPool c).sqe = false →
    (res = 0 ↔ (takenBy (coreEvents tr) i).length = 1)
  all : cancelAll (s.core.ring.opPool c).sqe = true → takenBy (coreEvents tr) i ≠ [] →
    res.toInt = (takenBy (coreEvents tr) i).length ∧ ∀ x ∈ s.core.ring.waiting ++ wq,
      cancelNames (s.core.ring.opPool c).sqe (s.core.ring.opPool x).sqe = false
  inside : takenBy (coreEvents tr) i = [] →
    (∃ x ∈ s.worker.runs, cancelNames (s.core.ring.opPool c).sqe (s.core.ring.opPool x).sqe = true) →
      res = -ealready
  nothing : takenBy (coreEvents tr) i = [] → (∀ x ∈ s.core.ring.waiting ++ wq ++ s.worker.runs,
    cancelNames (s.core.ring.opPool c).sqe (s.core.ring.opPool x).sqe = false) → res = -enoent

/-- While a cancel is inside execute no chain is waited for. -/
theorem cancelAnswer_eq {n : ℕ} {e : UInt32}
    (hr : Run coreMachine Keeps (setupCore n e) (coreEvents tr) s.core)
    (hc : s.core.pc.executing = some c) (cancel : Sqe) (count : ℕ) :
    Engine.cancelAnswer s.core.ring cancel count =
      if 0 < count then if cancelAll cancel then Int32.ofNat count else 0 else -enoent := by
  obtain ⟨a, free, backlog, queue, batch, given, -, hrep, -⟩ :=
    core_run_refines (C := fun _ _ => True) (fun _ _ h => h) (fun _ _ _ _ _ _ _ _ _ _ _ _ => trivial) hr
  have hblocking : s.core.ring.blocking = none := by
    unfold Pc.executing at hc
    split at hc <;> cases hc
    next f linked hpc => exact (hrep.governs.exec f c linked false hpc).1
  unfold Engine.cancelAnswer
  split
  · rfl
  · rw [if_neg (by simp [hblocking])]

/-- What a search that is over has found. -/
theorem Inv.answer_cases (h : s.Inv wq) {count : ℕ} (hback : s.back = .cancelAnswer count)
    (hc : s.core.pc.executing = some c) : count < s.core.ring.opPoolN ∧
      (((∀ x ∈ s.core.ring.waiting ++ wq,
          cancelNames (s.core.ring.opPool c).sqe (s.core.ring.opPool x).sqe = false) ∧
        (cancelAll (s.core.ring.opPool c).sqe = true ∨ count = 0)) ∨
      (cancelAll (s.core.ring.opPool c).sqe = false ∧ count = 1)) := by
  have hfits := h.fits
  unfold Fits at hfits
  rw [hback] at hfits
  obtain ⟨⟨queue, -, hlt⟩, hfound⟩ := hfits
  refine ⟨by omega, ?_⟩
  obtain ⟨c', hc', -, hnone, hall⟩ | ⟨c', hc', -, hone⟩ := hfound
  · cases hc.symm.trans hc'
    exact .inl ⟨hnone, hall⟩
  · cases hc.symm.trans hc'
    exact .inr hone

end Posix

/-- A cancel's answer is the truth exactly when it took something, or names nothing the worker is inside
of. A pool has as many ops as the CQ has entries, which is a power of two in 32 bits. -/
theorem cancel_answers_truly_iff {n : ℕ} {e : UInt32} {b : Bool} {k : ℕ} {hk : 0 < k} (hn : n ≤ 2 ^ 31)
    (hr : Run posixMachine Posix.Spares (setupPosix n e b k hk) tr s)
    {links : List (Slot × Option Slot)} {reads : List ℕ} {a : Option ℕ} {res : Int32}
    (hs : posixMachine.step s (.cancel links reads) = some s')
    (ha : .answers a res ∈ posixMachine.events s (.cancel links reads)) :
    ∃ c i wq, s.core.pc.executing = some c ∧ (s.core.ring.opPool c).seq = some i ∧ a = some i ∧
      s.core.ring.Queues wq ∧ (s.AnswersTruly wq tr c i res ↔
        (takenBy (coreEvents tr) i = [] → ∀ x ∈ s.worker.runs,
          cancelNames (s.core.ring.opPool c).sqe (s.core.ring.opPool x).sqe = false)) := by
  obtain ⟨hcore, wq, hinv⟩ := posix_refines hr
  have hg : s.core.Sound := (setupPosix_sound n e b k hk).run hcore
  have hpool : s.core.ring.opPoolN = n := (core_conserves_ops hcore).1
  obtain ⟨hnamed, hcount⟩ := Posix.counts_run hr
  have hout := Posix.step_out hs
  generalize posixMachine.events s (.cancel links reads) = ev at ha hout
  simp only [Posix.out, Posix.cancelStep] at hout
  split at hout
  · cases hout
  next c hc =>
  obtain ⟨i, hi⟩ := hg.has_seq (x := c) (.inr hc)
  have hlen := hcount c i hc hi
  have hquiet {t : Posix} (hq : t.quiet = some (ev, s')) : False := by
    cases hq
    exact absurd ha List.not_mem_nil
  have hcoreStep {t : Posix} {l : CoreLabel} {b : BackPc} (hq : t.inCore l b = some (ev, s')) : False := by
    obtain ⟨d, -, hev, -⟩ := Posix.inCore_eq hq
    rw [show ev = _ from hev] at ha
    obtain ⟨e, -, he⟩ := List.mem_map.mp ha
    cases he
  split at hout
  · split at hout
    · exact (hquiet hout).elim
    · cases hout
  · split at hout
    · exact (hquiet hout).elim
    · split at hout
      · exact (hcoreStep hout).elim
      · exact (hquiet hout).elim
  · split at hout
    · exact (hquiet hout).elim
    · split at hout
      · exact (hcoreStep hout).elim
      · exact (hquiet hout).elim
  · split at hout
    · cases hout
    · exact (hquiet hout).elim
    · exact (hquiet hout).elim
  · exact (hcoreStep hout).elim
  · next count hback =>
    obtain ⟨q, u, hq, hu, hp⟩ := Posix.andThen_eq hout
    cases hq
    obtain ⟨rfl, -⟩ := Prod.mk.inj hp
    have hres : a = some i ∧ res = Engine.cancelAnswer s.core.ring (s.core.ring.opPool c).sqe count := by
      obtain he | he := List.mem_append.mp ha
      · rw [hi] at he
        cases List.mem_singleton.mp he
        exact ⟨rfl, rfl⟩
      · obtain ⟨d, -, hev, -⟩ := Posix.inCore_eq hu
        rw [hev] at he
        obtain ⟨e, -, he⟩ := List.mem_map.mp he
        cases he
    obtain ⟨rfl, hres⟩ := hres
    rw [Posix.cancelAnswer_eq hcore hc] at hres
    refine ⟨c, i, wq, hc, hi, rfl, hinv.queues, ?_⟩
    rw [hback] at hlen
    obtain ⟨hlt, hfound⟩ := hinv.answer_cases hback hc
    have hlen' : (takenBy (coreEvents tr) i).length = count := hlen
    have hempty : takenBy (coreEvents tr) i = [] ↔ count = 0 := by
      rw [← List.length_eq_zero_iff, hlen']
    constructor
    · intro htruly hnone x hx
      by_contra hname
      rw [Bool.not_eq_false] at hname
      have hal := htruly.inside hnone ⟨x, hx, hname⟩
      rw [hres, if_neg (by rw [hempty.mp hnone]; exact lt_irrefl 0)] at hal
      cases hal
    · intro hworker
      refine ⟨fun t sc st => hnamed i t sc st, fun hone => ?_, fun hall hne => ?_, fun hnone hex => ?_,
        fun hnone _ => ?_⟩
      · rw [hlen', hres]
        obtain ⟨-, hzero⟩ | ⟨-, rfl⟩ := hfound
        · have hz : count = 0 := by
            rw [hone] at hzero
            simpa using hzero
          subst hz
          rw [if_neg (lt_irrefl 0)]
          exact iff_of_false (by decide) (by decide)
        · rw [hone]
          exact iff_of_true rfl rfl
      · rw [hlen', hres]
        have hpos : 0 < count := Nat.pos_of_ne_zero fun hz => hne (hempty.mpr hz)
        rw [if_pos hpos, hall]
        obtain ⟨hleft, -⟩ | ⟨hnot, -⟩ := hfound
        · refine ⟨?_, hleft⟩
          rw [if_pos rfl]
          exact Int32.toInt_ofNat_of_lt (by omega)
        · cases hall.symm.trans hnot
      · obtain ⟨x, hx, hname⟩ := hex
        cases (hworker hnone x hx).symm.trans hname
      · rw [hres, if_neg (by rw [hempty.mp hnone]; exact lt_irrefl 0)]
  · cases hout

/-- A CANCEL_ALL behind two ops it names, both parked. -/
theorem cancel_answers_truly_two : ∃ tr s c i wq,
    Run posixMachine Posix.Spares (setupPosix 4 8 false 1 Nat.one_pos) tr s ∧
      takenBy (coreEvents tr) i = [0, 1] ∧ s.AnswersTruly wq tr c i 2 := by
  obtain ⟨tr, s, hr, hs, ha, htaken⟩ := Run.of_exec posixMachine Posix.Spares
    (setupPosix 4 8 false 1 Nat.one_pos)
    (fun tr s => (posixMachine.step s (.cancel [] [])).isSome = true ∧
      .answers (some 2) 2 ∈ posixMachine.events s (.cancel [] []) ∧ takenBy (coreEvents tr) 2 = [0, 1])
    [.engine (.enter { entries := [some { opcode := .recv, userData := 1 },
        some { opcode := .recv, userData := 1 },
        some { opcode := .asyncCancel, addr := 1, opFlags := ioringAsyncCancelAll }] }),
      .engine .takeSqe, .engine .takeSqe, .engine .takeSqe, .engine .append,
      .engine (.queueStep .own []), .tries .again true [] [], .engine (.queueStep .own []),
      .tries .again true [] [], .engine (.queueStep .own []), .cancel [] [], .cancel [] [],
      .cancel [] [], .cancel [] [], .cancel [] [], .cancel [] []] (by decide +kernel)
  obtain ⟨s', hs⟩ := Option.isSome_iff_exists.mp hs
  obtain ⟨c, i, wq, -, -, hi, -, hiff⟩ := cancel_answers_truly_iff (by decide) hr hs ha
  cases hi
  exact ⟨tr, s, c, 2, wq, hr, htaken, hiff.mpr fun hnone => by rw [htaken] at hnone; cases hnone⟩

/-- The worker is inside an OPENAT, and a cancel that names it finds nothing. -/
theorem cancel_inside_answers_enoent : ∃ tr s s' c i wq res,
    Run posixMachine Posix.Spares (setupPosix 4 8 false 1 Nat.one_pos) tr s ∧
      s.core.ring.queueHead = none ∧ posixMachine.step s (.cancel [] []) = some s' ∧
      .answers (some i) res ∈ posixMachine.events s (.cancel [] []) ∧
      s.core.pc.executing = some c ∧ (s.core.ring.opPool c).seq = some i ∧ s.core.ring.Queues wq ∧
      ¬ s.AnswersTruly wq tr c i res := by
  obtain ⟨tr, s, hr, hqueue, hs, ha, hc, hi, hwq, hwork, hname, htaken⟩ :=
    Run.of_exec posixMachine Posix.Spares (setupPosix 4 8 false 1 Nat.one_pos)
    (fun tr s => s.core.ring.queueHead = none ∧ (posixMachine.step s (.cancel [] [])).isSome = true ∧
      .answers (some 1) (-enoent) ∈ posixMachine.events s (.cancel [] []) ∧
      s.core.pc.executing = some 1 ∧ (s.core.ring.opPool 1).seq = some 1 ∧
      (s.core.ring.wqHead = none ∧ s.core.ring.wqTail = none) ∧ s.worker = .running 0 ∧
      cancelNames (s.core.ring.opPool 1).sqe (s.core.ring.opPool 0).sqe = true ∧
      takenBy (coreEvents tr) 1 = [])
    [.engine (.enter { entries := [some { opcode := .openat, userData := 1 },
        some { opcode := .asyncCancel, addr := 1 }] }),
      .engine .takeSqe, .engine .takeSqe, .engine .append, .engine (.queueStep .own []),
      .tries .again false [] [], .pending, .workerTake, .engine (.queueStep .own []), .cancel [] [],
      .cancel [] [], .cancel [] [], .cancel [] []] (by decide +kernel)
  obtain ⟨s', hs⟩ := Option.isSome_iff_exists.mp hs
  refine ⟨tr, s, s', 1, 1, [], -enoent, hr, hqueue, hs, ha, hc, hi, ?_, fun htruly => ?_⟩
  · unfold Ring.Queues
    rw [hwq.1, hwq.2]
    exact isQueue_nil _
  · have hal := htruly.inside htaken ⟨0, by simp [hwork, WorkerPc.runs], hname⟩
    revert hal
    decide

end Steps

end SlipstreamIO.Engine
