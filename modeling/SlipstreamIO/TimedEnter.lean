import SlipstreamIO.CursorLoads
import SlipstreamIO.Timeouts
import SlipstreamIO.WaitBatches
import SlipstreamIO.WaitRoom

/-! When an enter with a timeout answers -ETIME: by the clock, or because its one wait came back with
too few completions. -/
namespace SlipstreamIO.Engine

open Runs

/-- `left` in enter for a timeout `ts` that began at `clock`, none when an operation overflows. -/
def leftAt (ts clock now : Timespec) : Option ℤ :=
  match deadlineOf true (some (some ts)) geteventsArgSize clock with
  | some (_, some deadline) => leftOf deadline now
  | _ => none

/-- No operation of `deadline_of` overflows, and none on the way to `left`. -/
def TimeoutFits (ts clock now : Timespec) : Prop :=
  let sec := clock.tvSec + ts.tvSec + carriedSecond ts clock
  let nsec := clock.tvNsec + ts.tvNsec - 1000000000 * carriedSecond ts clock
  (Fits64 (clock.tvSec + ts.tvSec) ∧ Fits64 (clock.tvNsec + ts.tvNsec) ∧ Fits64 sec ∧ Fits64 nsec) ∧
    Fits64 (sec - now.tvSec) ∧ Fits64 ((sec - now.tvSec) * 1000) ∧ Fits64 (nsec - now.tvNsec) ∧
    Fits64 ((sec - now.tvSec) * 1000 + (nsec - now.tvNsec).tdiv 1000000)

instance (ts clock now : Timespec) : Decidable (TimeoutFits ts clock now) :=
  inferInstanceAs (Decidable ((_ ∧ _ ∧ _ ∧ _) ∧ _ ∧ _ ∧ _ ∧ _))

/-- The engine, and the timeout of the call under way with the clock's reading it began at. Ghost: the
last reading of the clock in that call. -/
structure Timed where
  look : Looking
  timeout : Option (Timespec × Duration) := none
  lastRead : Option Duration := none

/-- `compare` reads the clock where enter does; `wrapped` is what the machine makes of a time left whose
arithmetic overflows. -/
inductive TimedLabel where
  | enter (call : Call) (timeout : Option (Timespec × Duration))
  | compare (now : Duration) (wrapped : ℤ)
  | other (l : LookLabel)

/-- An answer of enter, with what was left of the timeout at the last reading of the clock, in
nanoseconds, the CQEs that stand in the CQ, and the count that was asked for. -/
structure Answer where
  ret : Int32
  remaining : Option ℤ
  avail : UInt32
  minComplete : UInt32

namespace Timed

/-- Whether the comparison is followed by a reading of the clock. -/
def readsClock (s : Timed) : Bool :=
  match s.look.core.pc, s.look.loads with
  | .check f, .avail a => a < f.call.minComplete && f.call.hasDeadline && !f.looped
  | _, _ => false

/-- `left`, from the timeout of the call and a reading of the clock. -/
def left (s : Timed) (now : Duration) : Option ℤ :=
  s.timeout.bind fun t => leftAt t.1 t.2.toTimespec now.toTimespec

/-- What is truly left at the last reading. -/
def remaining (s : Timed) : Option ℤ :=
  match s.timeout, s.lastRead with
  | some (ts, clock), some now => some (remainingNs ts clock.toTimespec now.toTimespec)
  | _, _ => none

def compare (s : Timed) (now : Duration) (wrapped : ℤ) : Option Timed :=
  if s.readsClock then
    (s.look.compare ((s.left now).getD wrapped)).map fun look => { s with look, lastRead := some now }
  else (s.look.compare 0).map fun look => { s with look }

def step (s : Timed) : TimedLabel → Option Timed
  | .enter call timeout =>
    if call.hasDeadline = timeout.isSome then
      (s.look.step (.other (.enter call))).map fun look => { look, timeout }
    else none
  | .compare now wrapped => s.compare now wrapped
  | .other l =>
    match l with
    | .compare _ | .other (.enter _) => none
    | l => (s.look.step l).map fun look => { s with look }

/-- The answer, when the step from `s` to `s'` is the return of a call. -/
def answers (s s' : Timed) : List Answer :=
  match s.look.core.pc.call, s'.look.core.pc with
  | some call, .out (some ret) => [⟨ret, s'.remaining, s'.look.core.ring.cqAvail, call.minComplete⟩]
  | _, _ => []

end Timed

def timedMachine : Machine Timed TimedLabel Answer where
  step := Timed.step
  events s l := ((s.step l).map s.answers).getD []

/-- An -ETIME is said with less than a millisecond left and too few CQEs. -/
def Answer.Late (a : Answer) : Prop :=
  a.ret = -etime → (∃ r ∈ a.remaining, r < 1000000) ∧ a.avail < a.minComplete

instance (a : Answer) : Decidable a.Late :=
  inferInstanceAs (Decidable (_ → (∃ r ∈ a.remaining, r < 1000000) ∧ a.avail < a.minComplete))

/-- The SQEs a call has taken so far. -/
def Pc.submitted : Pc → ℕ
  | .out _ => 0
  | .take _ _ submitted _ _ => submitted
  | .queue f | .exec f _ _ _ | .post f _ _ | .settle f | .check f | .wait f _ _ | .complete f _ =>
    f.submitted

/-- The call that is between the return of its wait and its answer. -/
def Pc.behindWait : Pc → Option Frame
  | .complete f _ => some f
  | .queue f | .exec f _ _ _ | .post f _ _ | .settle f | .check f => if f.looped then some f else none
  | .out _ | .take _ _ _ _ _ | .wait _ _ _ => none

def Pc.waiting : Pc → Option Frame
  | .wait f _ _ => some f
  | _ => none

namespace Timed

/-- Less than a millisecond was left at the last reading of the clock. -/
def Expired (s : Timed) : Prop := ∃ r ∈ s.remaining, r < 1000000

instance (s : Timed) : Decidable s.Expired := inferInstanceAs (Decidable (∃ r ∈ s.remaining, r < 1000000))

/-- A reading of the clock overflows nothing. -/
def Fits (s : Timed) (now : Duration) : Prop :=
  ∃ t ∈ s.timeout, TimeoutFits t.1 t.2.toTimespec now.toTimespec

instance (s : Timed) (now : Duration) : Decidable (s.Fits now) :=
  inferInstanceAs (Decidable (∃ t ∈ s.timeout, _))

/-- The wait a call with a timeout returns from has brought what it asks for: no leftover poke, signal or
spurious wakeup ended it, and its batch is not short. -/
def Brought (s : Timed) : Prop :=
  ∀ f ∈ s.look.core.pc.waiting, f.call.hasDeadline = true → s.Expired ∨
    f.call.minComplete ≤ s.look.core.ring.cqEntries ∧ f.call.minComplete.toNat ≤ s.look.core.budget

instance (s : Timed) : Decidable s.Brought :=
  inferInstanceAs (Decidable (∀ f ∈ s.look.core.pc.waiting, _ → s.Expired ∨ _ ∧ _))

/-- Nobody takes CQEs off between that return and the answer. -/
def Untouched (s : Timed) (l : CoreLabel) : Prop :=
  ∀ f ∈ s.look.core.pc.behindWait, f.call.hasDeadline = true → s.Expired ∨ Vault.NoReads l.reads

instance (s : Timed) (l : CoreLabel) : Decidable (s.Untouched l) :=
  inferInstanceAs (Decidable (∀ f ∈ s.look.core.pc.behindWait, _ → s.Expired ∨ Vault.NoReads l.reads))

end Timed

def LookLabel.core : LookLabel → Option CoreLabel
  | .other l => some l
  | _ => none

/-- The wait returns. -/
def CoreLabel.returns : CoreLabel → Bool
  | .waitReturn => true
  | _ => false

/-- What is asked of a step: no overflow at a reading of the clock, nobody's CQE between a look and what
follows it, nobody's read behind a wait, and waits that bring what their call asks for. -/
def Timed.Sound (s : Timed) : TimedLabel → Prop
  | .enter _ _ => True
  | .compare now _ => s.readsClock = true → s.Fits now
  | .other l => LooksUndisturbed s.look l ∧
    ∀ c ∈ l.core, s.Untouched c ∧ (c.returns = true → s.Brought)

instance (s : Timed) (l : TimedLabel) : Decidable (s.Sound l) :=
  match l with
  | .enter _ _ => isTrue trivial
  | .compare now _ => inferInstanceAs (Decidable (s.readsClock = true → s.Fits now))
  | .other l => inferInstanceAs (Decidable (LooksUndisturbed s.look l ∧
    ∀ c ∈ l.core, s.Untouched c ∧ (c.returns = true → s.Brought)))

/-- The backend keeps its contract. -/
def TimedKeeps (s : Timed) : TimedLabel → Prop
  | .other l => LookKeeps s.look l
  | _ => True

/-- The contract as a check. -/
def timedKeepsCheck (s : Timed) : TimedLabel → Bool
  | .other l => lookKeepsCheck s.look l
  | _ => true

theorem timedKeeps_of_check {s : Timed} {l : TimedLabel} (h : timedKeepsCheck s l = true) :
    TimedKeeps s l := by
  cases l with
  | other l => exact lookKeeps_of_check h
  | enter call timeout => trivial
  | compare now wrapped => trivial

/-- The steps of the runs in which an -ETIME can be believed; the count of SQEs a call took is none that
reads as -ETIME. -/
def WaitBrings (s : Timed) (l : TimedLabel) : Prop :=
  TimedKeeps s l ∧ s.Sound l ∧ Int32.ofNat s.look.core.pc.submitted ≠ -etime

section Arithmetic
variable {ts clock now deadline : Timespec} {left : ℤ}

/-- A deadline is the clock's reading plus the timeout. -/
theorem deadlineOf_ns {ret : Int32}
    (h : deadlineOf true (some (some ts)) geteventsArgSize clock = some (ret, some deadline)) :
    deadline.ns = clock.ns + ts.ns := by
  simp only [deadlineOf, Bool.not_true, Bool.false_eq_true, if_false, ne_eq, not_true_eq_false,
    Option.bind_eq_bind, Option.bind_eq_some_iff, signed_eq_some] at h
  obtain ⟨sec, ⟨-, rfl⟩, nsec, ⟨-, rfl⟩, h⟩ := h
  split at h
  · simp only [Option.bind_eq_some_iff, signed_eq_some] at h
    obtain ⟨sec, ⟨-, rfl⟩, nsec, ⟨-, rfl⟩, h⟩ := h
    cases h
    simp only [Timespec.ns]
    omega
  · cases h
    simp only [Timespec.ns]
    omega

/-- What `left` has as expired has less than a millisecond left. -/
theorem leftOf_expired (h : leftOf deadline now = some left) (hexp : left ≤ 0) :
    deadline.ns - now.ns < 1000000 := by
  simp only [leftOf, Option.bind_eq_bind, Option.bind_eq_some_iff, signed_eq_some] at h
  obtain ⟨sec, ⟨-, rfl⟩, ms, ⟨-, rfl⟩, nsec, ⟨-, rfl⟩, -, rfl⟩ := h
  have hdiv := tdiv_million (deadline.tvNsec - now.tvNsec)
  simp only [Timespec.ns]
  omega

theorem leftAt_expired (h : leftAt ts clock now = some left) (hexp : left ≤ 0) :
    remainingNs ts clock now < 1000000 := by
  unfold leftAt at h
  split at h
  · next ret deadline hd =>
    have hlt := leftOf_expired h hexp
    rw [deadlineOf_ns hd] at hlt
    exact hlt
  · cases h

/-- Without an overflow there is a time left. -/
theorem TimeoutFits.fits (h : TimeoutFits ts clock now) : (leftAt ts clock now).isSome = true := by
  obtain ⟨⟨hsec, hnsec, hcarry, hrest⟩, hdiff, hms, hndiff, hsum⟩ := h
  unfold carriedSecond at hcarry hrest hdiff hms hndiff hsum
  split at hcarry
  · next hc =>
    simp only [if_pos hc, mul_one] at hrest hdiff hms hndiff hsum
    simp only [leftAt, deadlineOf, Bool.not_true, Bool.false_eq_true, if_false, ne_eq, not_true_eq_false,
      Option.bind_eq_bind, signed_of_fits hsec, signed_of_fits hnsec, Option.bind_some, if_pos hc,
      signed_of_fits hcarry, signed_of_fits hrest, Option.pure_def, leftOf, signed_of_fits hdiff,
      signed_of_fits hms, signed_of_fits hndiff, signed_of_fits hsum, Option.isSome_some]
  · next hc =>
    simp only [if_neg hc, mul_zero, add_zero, sub_zero] at hrest hdiff hms hndiff hsum
    simp only [leftAt, deadlineOf, Bool.not_true, Bool.false_eq_true, if_false, ne_eq, not_true_eq_false,
      Option.bind_eq_bind, signed_of_fits hsec, signed_of_fits hnsec, Option.bind_some, if_neg hc,
      Option.pure_def, leftOf, signed_of_fits hdiff, signed_of_fits hms, signed_of_fits hndiff,
      signed_of_fits hsum, Option.isSome_some]

end Arithmetic

section Late
variable {s s' : Core} {l : CoreLabel} {call : Call} {ret : Int32}

/-- A call returns the count it took, or -EBADF for a wait that failed, unless it is at its check. -/
theorem step_returns (hs : s.step l = some s') (hcall : s.pc.call = some call)
    (hret : s'.pc = .out (some ret)) :
    ret = Int32.ofNat s.pc.submitted ∨ ret = -ebadf ∨ ∃ left, l = .check left := by
  have hafter (f : Frame) (h : Core.afterQueue f = .out (some ret)) : ret = Int32.ofNat f.submitted := by
    unfold Core.afterQueue at h
    split at h <;> cases h
    rfl
  cases l with
  | check left => exact Or.inr (Or.inr ⟨left, rfl⟩)
  | append =>
    left
    simp only [Core.step, Core.append] at hs
    split at hs
    · next hpc =>
      rw [hpc]
      split at hs <;> cases hs
      · exact hafter _ hret
      · cases hret
    · cases hs
  | queueStep target reads =>
    left
    simp only [Core.step, Core.queueStep] at hs
    split at hs
    · next f hpc =>
      rw [hpc]
      (repeat' split at hs) <;> cases hs
      · exact hafter f hret
      · exact hafter f hret
      all_goals simp [hpc] at hret
    · cases hs
  | offFinish op res ticket =>
    cases hs
    cases ticket
    all_goals
      have hpc : s.pc = .out (some ret) := hret
      rw [hpc] at hcall
      cases hcall
  | _ =>
    simp only [Core.step, Core.takeSqe, Core.post, Core.settle, Core.complete, Core.execDone,
      Core.execTake, Core.execPending, Core.cancelHeld, Core.cancelQueued, Core.handBack,
      Core.waitReturn, Core.waitFail, Core.offPost] at hs
    (repeat' split at hs) <;> cases hs <;> simp_all [Core.setHand, Pc.call]

end Late

/-- The lists of the ring are in order. -/
def Core.Kept (s : Core) : Prop :=
  ∃ a free backlog queue batch, a.WellFormed ∧ Rep s a free backlog queue batch

section Kept
variable {c c' : Core} {l : CoreLabel} {f : Frame}

theorem Core.Kept.step (h : c.Kept) (hk : Keeps c l) (hs : c.step l = some c') : c'.Kept := by
  obtain ⟨a, free, backlog, queue, batch, hw, hrep⟩ := h
  obtain ⟨a', free', backlog', queue', batch', -, hact, hrep', -⟩ := core_step_simulated hrep hw hk hs
  refine ⟨a', free', backlog', queue', batch', ?_, hrep'⟩
  obtain ⟨-, rfl⟩ | ⟨act, -, hstep⟩ := hact
  · exact hw
  · exact hstep.wellFormed hw

/-- At its check enter has no op in hand, and it goes on with none. -/
theorem Core.Kept.goto {pc : Pc} (h : c.Kept) (hpc : c.pc = .check f)
    (hplain : (∃ ret, pc = .out ret) ∨ ∃ forever, pc = .wait f forever []) :
    Core.Kept { c with pc := pc } := by
  obtain ⟨a, free, backlog, queue, batch, hw, hrep⟩ := h
  refine ⟨a, free, backlog, queue, batch, hw, ?_⟩
  obtain ⟨ret, rfl⟩ | ⟨forever, rfl⟩ := hplain
  all_goals
    refine hrep.goto rfl rfl rfl rfl rfl rfl rfl ?_ ?_ ?_ ?_ ?_ ?_
    all_goals
      simp [Pc.inEnter, Pc.executing, Pc.posting, Pc.done, Pc.batchHead, Pc.batchTail, Core.busy, hpc]

theorem Core.Kept.look {s s' : Looking} {l : LookLabel} (h : s.core.Kept) (hk : LookKeeps s l)
    (hs : s.step l = some s') : s'.core.Kept := by
  cases l with
  | loadTail =>
    simp only [Looking.step, Looking.loadTail] at hs
    split at hs <;> cases hs <;> exact h
  | loadHead =>
    simp only [Looking.step, Looking.loadHead] at hs
    split at hs <;> cases hs <;> exact h
  | compare left =>
    simp only [Looking.step, Looking.compare] at hs
    split at hs
    · next f a hpc hloads =>
      (repeat' split at hs) <;> cases hs
      · exact h.goto hpc (.inl ⟨_, rfl⟩)
      · exact h.goto hpc (.inl ⟨_, rfl⟩)
      · exact h
      · exact h
    · cases hs
  | sleep =>
    simp only [Looking.step, Looking.sleep] at hs
    split at hs <;> cases hs
    next f forever hpc hloads => exact h.goto hpc (.inr ⟨_, rfl⟩)
  | other l =>
    obtain ⟨-, -, hcore⟩ := other_step hs
    exact h.step hk hcore

/-- Outside its wait enter loses nothing of what its call was brought. -/
theorem Core.Kept.budget_step (h : c.Kept) (hk : Keeps c l) (hreads : Vault.NoReads l.reads)
    (hwait : c.pc.waiting = none) (hs : c.step l = some c') : c.budget ≤ c'.budget := by
  obtain ⟨a, free, backlog, queue, batch, hw, hrep⟩ := h
  cases hpc : c.pc with
  | complete f done => exact hrep.budget_complete hw hpc hk hreads hs
  | wait f forever done =>
    rw [hpc] at hwait
    cases hwait
  | _ =>
    have hbrought := hrep.brought_step hw hk hreads hs
    have hnone : c.ring.gives c.pc.done = 0 := by
      rw [hpc]
      rfl
    rw [Core.budget, Core.budget, hnone]
    omega

theorem afterQueue_behindWait (f g : Frame) (h : (Core.afterQueue f).behindWait = some g) :
    f.looped = true ∧ g = f := by
  unfold Core.afterQueue at h
  split at h
  · cases hf : f.looped with
    | true => simpa [Pc.behindWait, hf, eq_comm] using h
    | false => simp [Pc.behindWait, hf] at h
  · cases h

/-- A call is behind its wait once it returned from it. -/
theorem behind_step (hs : c.step l = some c') (hf : c'.pc.behindWait = some f) :
    (l.returns = true ∧ c.pc.waiting = some f ∧ c'.budget = c.budget ∧ c'.ring = c.ring) ∨
      ∃ g, c.pc.behindWait = some g ∧ g.call = f.call := by
  cases l with
  | waitReturn =>
    left
    simp only [Core.step, Core.waitReturn] at hs
    split at hs <;> cases hs
    next g forever done hpc =>
    cases hf
    exact ⟨rfl, by rw [hpc]; rfl, by simp [Core.budget, hpc, Pc.done], rfl⟩
  | append =>
    simp only [Core.step, Core.append] at hs
    split at hs
    · split at hs <;> cases hs
      · obtain ⟨hlooped, -⟩ := afterQueue_behindWait _ _ hf
        cases hlooped
      · cases hf
    · cases hs
  | queueStep target reads =>
    right
    simp only [Core.step, Core.queueStep] at hs
    split at hs
    · next g hpc =>
      have hafter (h : (Core.afterQueue g).behindWait = some f) : c.pc.behindWait = some f := by
        obtain ⟨hlooped, rfl⟩ := afterQueue_behindWait _ _ h
        rw [hpc]
        exact if_pos hlooped
      refine ⟨f, ?_, rfl⟩
      (repeat' split at hs) <;> cases hs
      · exact hafter hf
      · exact hafter hf
      all_goals simpa [hpc, Pc.behindWait] using hf
    · cases hs
  | offFinish op res ticket =>
    right
    cases hs
    refine ⟨f, ?_, rfl⟩
    cases ticket
    all_goals exact hf
  | complete reads =>
    right
    simp only [Core.step, Core.complete] at hs
    split at hs <;> cases hs
    · next g op res done hpc => exact ⟨f, by rw [hpc]; exact hf, rfl⟩
    · next g hpc =>
      cases hf
      exact ⟨g, by rw [hpc]; rfl, rfl⟩
  | _ =>
    refine .inr ⟨f, ?_, rfl⟩
    simp only [Core.step, Core.takeSqe, Core.post, Core.settle, Core.check, Core.execDone, Core.execTake,
      Core.execPending, Core.cancelHeld, Core.cancelQueued, Core.handBack, Core.waitFail,
      Core.offPost] at hs
    (repeat' split at hs) <;> cases hs <;> simp_all only [Core.setHand, Pc.behindWait, reduceCtorEq]

/-- Enter comes to its check from the settling of the ticket. -/
theorem reaches_check (hs : c.step l = some c') (hf : c'.pc = .check f) :
    c.pc = .check f ∨ ∃ reads, c.pc = .settle f ∧ c.settle reads = some c' ∧ l = .settle reads := by
  have hafter (g : Frame) : Core.afterQueue g ≠ .check f := by
    unfold Core.afterQueue
    split
    · exact fun h => by cases h
    · exact fun h => by cases h
  cases l with
  | settle reads =>
    right
    refine ⟨reads, ?_, hs, rfl⟩
    simp only [Core.step, Core.settle] at hs
    split at hs <;> cases hs
    next g hpc =>
    cases hf
    exact hpc
  | offFinish op res ticket =>
    cases hs
    cases ticket
    all_goals exact .inl hf
  | _ =>
    left
    simp only [Core.step, Core.takeSqe, Core.append, Core.queueStep, Core.post, Core.check, Core.complete,
      Core.execDone, Core.execTake, Core.execPending, Core.cancelHeld, Core.cancelQueued, Core.handBack,
      Core.waitReturn, Core.waitFail, Core.offPost] at hs
    (repeat' split at hs) <;> cases hs <;> simp_all [Core.setHand]

end Kept

/-- What enter has loaded is enough for the count that was asked for. -/
def Loads.Enough (loads : Loads) (c : Core) (m : UInt32) : Prop :=
  match loads with
  | .none => m ≤ c.ring.cqAvail
  | .tail t => m ≤ t - c.ring.cq.head
  | .head h => c.ring.cq.head = h ∧ m ≤ c.ring.cqAvail
  | .avail a => m ≤ a
  | .short _ => False

theorem Loads.Enough.mono {loads : Loads} {c c' : Core} {m : UInt32} (h : loads.Enough c m)
    (hgrows : c.ring.toVault.Grows c'.ring.toVault) : loads.Enough c' m := by
  have havail (hm : m ≤ c.ring.cqAvail) : m ≤ c'.ring.cqAvail :=
    UInt32.le_trans hm (UInt32.le_iff_toNat_le.mpr hgrows.avail_le)
  cases loads with
  | none => exact havail h
  | tail t =>
    show m ≤ t - c'.ring.cq.head
    rw [hgrows.head]
    exact h
  | head head => exact ⟨hgrows.head.trans h.1, havail h.2⟩
  | avail a => exact h
  | short forever => exact h

/-- A load of a cursor loads no less than what is there. -/
theorem load_enough {s s' : Looking} (hs : s.loadTail = some s' ∨ s.loadHead = some s') :
    s'.core = s.core ∧ (∃ f, s.core.pc = .check f) ∧
      ∀ m, s.loads.Enough s.core m → s'.loads.Enough s.core m := by
  obtain hs | hs := hs
  · unfold Looking.loadTail at hs
    split at hs <;> cases hs
    · next f hpc hloads =>
      refine ⟨rfl, ⟨f, hpc⟩, fun m h => ?_⟩
      rw [hloads] at h
      exact h
    · next f head hpc hloads =>
      refine ⟨rfl, ⟨f, hpc⟩, fun m h => ?_⟩
      rw [hloads] at h
      obtain ⟨rfl, hle⟩ := h
      exact hle
  · unfold Looking.loadHead at hs
    split at hs <;> cases hs
    · next f hpc hloads =>
      refine ⟨rfl, ⟨f, hpc⟩, fun m h => ⟨rfl, ?_⟩⟩
      rw [hloads] at h
      exact h
    · next f tail hpc hloads =>
      refine ⟨rfl, ⟨f, hpc⟩, fun m h => ?_⟩
      rw [hloads] at h
      exact h

/-- The comparison returns from the call, or finds too few CQEs and leaves the core alone. -/
theorem compare_goes {s s' : Looking} {left : ℤ} (hs : s.compare left = some s') :
    ∃ f a, s.core.pc = .check f ∧ s.loads = .avail a ∧
      ((∃ ret, s'.core.pc = .out (some ret) ∧ s'.core.ring = s.core.ring ∧
        (ret = Int32.ofNat f.submitted ∨
          a < f.call.minComplete ∧ f.call.hasDeadline = true ∧ (f.looped = true ∨ left ≤ 0))) ∨
        a < f.call.minComplete ∧ s'.core = s.core) := by
  unfold Looking.compare at hs
  split at hs
  swap
  · cases hs
  next f a hpc hloads =>
  refine ⟨f, a, hpc, hloads, ?_⟩
  split at hs
  · cases hs
    exact .inl ⟨_, rfl, rfl, .inl rfl⟩
  next hfew =>
  have hfew := UInt32.not_le.mp hfew
  split at hs
  · next hdeadline =>
    split at hs
    · next hlate =>
      cases hs
      exact .inl ⟨_, rfl, rfl, .inr ⟨hfew, hdeadline, by simpa using hlate⟩⟩
    · cases hs
      exact .inr ⟨hfew, rfl⟩
  · cases hs
    exact .inr ⟨hfew, rfl⟩

namespace Timed

/-- Behind the wait of a call with a timeout, what it asks for is there or on its way into the CQ. -/
def Holds (s : Timed) (m : UInt32) : Prop :=
  match s.look.core.pc with
  | .check _ => s.look.loads.Enough s.look.core m
  | _ => m ≤ s.look.core.ring.cqEntries ∧ m.toNat ≤ s.look.core.budget

def Brings (s : Timed) : Prop :=
  ∀ f ∈ s.look.core.pc.behindWait, f.call.hasDeadline = true → s.Expired ∨ s.Holds f.call.minComplete

end Timed

section Timed
variable {s s' : Timed} {l : TimedLabel} {now : Duration} {wrapped : ℤ}

/-- Each step is one of the look, and its conditions are that step's. -/
theorem timed_look (hs : s.step l = some s') : ∃ k, s.look.step k = some s'.look ∧
    (TimedKeeps s l → LookKeeps s.look k) ∧ (s.Sound l → LooksUndisturbed s.look k) := by
  cases l with
  | enter call timeout =>
    simp only [Timed.step] at hs
    split at hs
    · obtain ⟨look, hlook, rfl⟩ := Option.map_eq_some_iff.mp hs
      exact ⟨_, hlook, fun _ => trivial, fun _ => .inr rfl⟩
    · cases hs
  | compare now wrapped =>
    simp only [Timed.step, Timed.compare] at hs
    split at hs
    all_goals
      obtain ⟨look, hlook, rfl⟩ := Option.map_eq_some_iff.mp hs
      exact ⟨.compare _, hlook, fun _ => trivial, fun _ => trivial⟩
  | other l =>
    simp only [Timed.step] at hs
    split at hs
    · cases hs
    · cases hs
    · obtain ⟨look, hlook, rfl⟩ := Option.map_eq_some_iff.mp hs
      exact ⟨_, hlook, id, fun h => h.1⟩

theorem timed_other {k : LookLabel} (hs : s.step (.other k) = some s') :
    s.look.step k = some s'.look ∧ s'.timeout = s.timeout ∧ s'.lastRead = s.lastRead ∧
      (∀ left, k ≠ .compare left) ∧ ∀ call, k ≠ .other (.enter call) := by
  simp only [Timed.step] at hs
  split at hs
  · cases hs
  · cases hs
  · next hcompare henter =>
    obtain ⟨look, hlook, rfl⟩ := Option.map_eq_some_iff.mp hs
    exact ⟨hlook, rfl, rfl, hcompare, henter⟩

/-- The comparison, with or without a reading of the clock. -/
theorem timed_compare (hs : s.compare now wrapped = some s') :
    ∃ left, s.look.compare left = some s'.look ∧ s'.timeout = s.timeout ∧
      ((s.readsClock = true ∧ left = (s.left now).getD wrapped ∧ s'.lastRead = some now) ∨
        (s.readsClock = false ∧ s'.lastRead = s.lastRead)) := by
  unfold Timed.compare at hs
  split at hs
  · next hreads =>
    obtain ⟨look, hlook, rfl⟩ := Option.map_eq_some_iff.mp hs
    exact ⟨_, hlook, rfl, .inl ⟨hreads, rfl, rfl⟩⟩
  · next hreads =>
    obtain ⟨look, hlook, rfl⟩ := Option.map_eq_some_iff.mp hs
    exact ⟨_, hlook, rfl, .inr ⟨Bool.eq_false_iff.mpr hreads, rfl⟩⟩

theorem Timed.Expired.congr (h : s.Expired) (htimeout : s'.timeout = s.timeout)
    (hread : s'.lastRead = s.lastRead) : s'.Expired := by
  unfold Timed.Expired Timed.remaining at *
  rw [htimeout, hread]
  exact h

/-- With nothing left by the clock's reading, less than a millisecond is left. -/
theorem left_expired {left : ℤ} (hleft : s.left now = some left) (hexp : left ≤ 0)
    (htimeout : s'.timeout = s.timeout) (hread : s'.lastRead = some now) : s'.Expired := by
  obtain ⟨⟨ts, clock⟩, ht, hat⟩ := Option.bind_eq_some_iff.mp hleft
  refine ⟨remainingNs ts clock.toTimespec now.toTimespec, ?_, leftAt_expired hat hexp⟩
  rw [Timed.remaining, htimeout, ht, hread]
  rfl

theorem answers_eq {f : Frame} (hpc : s.look.core.pc = .check f) {ret : Int32}
    (hret : s'.look.core.pc = .out (some ret)) :
    s.answers s' = [⟨ret, s'.remaining, s'.look.core.ring.cqAvail, f.call.minComplete⟩] := by
  have hcall : s.look.core.pc.call = some f.call := by rw [hpc]; rfl
  rw [Timed.answers, hcall, hret]

theorem answers_waits (hret : ∀ ret, s'.look.core.pc ≠ .out (some ret)) : s.answers s' = [] := by
  unfold Timed.answers
  split
  · next h => exact absurd h (hret _)
  · rfl

/-- A core step outside the check keeps what the call was brought, up to the check. -/
theorem Timed.Brings.core_step {c : Core} {k : CoreLabel} (h : s.Brings) (hkept : s.look.core.Kept)
    (hsees : s.look.Sees) (hk : Keeps s.look.core k) (huntouched : s.Untouched k)
    (hbrought : k.returns = true → s.Brought) (hk' : ∀ left, k ≠ .check left)
    (hs : s.look.core.step k = some c) (heq : s'.look.core = c) (hloads : s'.look.loads = s.look.loads)
    (htimeout : s'.timeout = s.timeout) (hread : s'.lastRead = s.lastRead) : s'.Brings := by
  subst heq
  intro f hf hdeadline
  obtain ⟨hreturns, hwaiting, hbudget, hring⟩ | ⟨g, hg, hcall⟩ := behind_step hs hf
  · -- the wait returns: the batch and what stands in the CQ are what was asked for
    refine (hbrought hreturns f hwaiting hdeadline).imp (·.congr htimeout hread) fun hasks => ?_
    have hpc (g : Frame) : s'.look.core.pc ≠ .check g := by
      intro hpc
      obtain hcheck | ⟨reads, hsettle, -⟩ := reaches_check hs hpc
      · rw [hcheck] at hwaiting
        cases hwaiting
      · rw [hsettle] at hwaiting
        cases hwaiting
    unfold Timed.Holds
    split
    · next g hcheck => exact absurd hcheck (hpc g)
    · rw [hring, hbudget]
      exact hasks
  rw [← hcall] at hdeadline ⊢
  obtain hexp | hholds := h g hg hdeadline
  · exact .inl (hexp.congr htimeout hread)
  obtain hexp | hreads := huntouched g hg hdeadline
  · exact .inl (hexp.congr htimeout hread)
  right
  -- without reads the CQ and the backlog only gain, and what is in hand goes over into them
  have hgrows := step_grows hk hreads hs
  have hwait : s.look.core.pc.waiting = none := by
    cases hpc : s.look.core.pc with
    | wait f forever done =>
      rw [hpc] at hg
      cases hg
    | _ => rfl
  have hbudget := hkept.budget_step hk hreads hwait hs
  unfold Timed.Holds at hholds ⊢
  cases hpc : s.look.core.pc with
  | check f₀ =>
    have hpc' : s'.look.core.pc = .check f₀ := (aside_step hpc hk hk' hs).1.trans hpc
    rw [hpc] at hholds
    rw [hpc', hloads]
    exact hholds.mono hgrows
  | _ =>
    simp only [hpc] at hholds
    have hasks : g.call.minComplete ≤ s'.look.core.ring.cqEntries ∧
        g.call.minComplete.toNat ≤ s'.look.core.budget := by
      rw [hgrows.cqEntries]
      exact ⟨hholds.1, hholds.2.trans hbudget⟩
    split
    · next f₁ hpc' =>
      -- the ticket was settled: the backlog is empty, or the CQ full
      obtain hcheck | ⟨reads, hsettle, hstep, -⟩ := reaches_check hs hpc'
      · cases hpc.symm.trans hcheck
      have hnone : s.look.loads = .none := by
        obtain hnone | ⟨f₂, hcheck, -⟩ := hsees
        · exact hnone
        · cases hpc.symm.trans hcheck
      obtain ⟨a, free, backlog, queue, batch, hw, hrep⟩ := hkept
      rw [hloads, hnone]
      show g.call.minComplete ≤ s'.look.core.ring.cqAvail
      rw [UInt32.le_iff_toNat_le]
      obtain hempty | hfull := hrep.settle_drains hstep
      · have hgives : s'.look.core.ring.gives s'.look.core.pc.done = 0 := by
          rw [hpc']
          rfl
        have hsum := hasks.2
        rw [Core.budget, hgives, Vault.brought, hempty] at hsum
        simpa using hsum
      · have hle := UInt32.not_lt.mp (of_decide_eq_false hfull)
        exact UInt32.le_iff_toNat_le.mp (UInt32.le_trans hasks.1 hle)
    · exact hasks

theorem Timed.Brings.load (h : s.Brings)
    (hs : s.look.loadTail = some s'.look ∨ s.look.loadHead = some s'.look)
    (htimeout : s'.timeout = s.timeout) (hread : s'.lastRead = s.lastRead) : s'.Brings := by
  obtain ⟨hcore, ⟨f₀, hpc⟩, henough⟩ := load_enough hs
  intro f hf hdeadline
  rw [hcore] at hf
  refine (h f hf hdeadline).imp (·.congr htimeout hread) fun hholds => ?_
  unfold Timed.Holds at hholds ⊢
  rw [hcore, hpc]
  rw [hpc] at hholds
  exact henough _ hholds

/-- Behind its wait a call with a timeout has loaded enough, or its time is up. -/
theorem Timed.Brings.enough {f : Frame} {a : UInt32} (h : s.Brings) (hpc : s.look.core.pc = .check f)
    (hloads : s.look.loads = .avail a) (hlooped : f.looped = true) (hdeadline : f.call.hasDeadline = true) :
    s.Expired ∨ f.call.minComplete ≤ a := by
  refine (h f ?_ hdeadline).imp_right fun hholds => ?_
  · rw [hpc]
    exact if_pos hlooped
  · unfold Timed.Holds at hholds
    rw [hpc, hloads] at hholds
    exact hholds

theorem Timed.Brings.compare (h : s.Brings) (hs : s.compare now wrapped = some s') : s'.Brings := by
  obtain ⟨left, hlook, htimeout, hread⟩ := timed_compare hs
  obtain ⟨f, a, hpc, hloads, hgoes⟩ := compare_goes hlook
  intro g hg hdeadline
  obtain ⟨ret, hret, -⟩ | ⟨hfew, hcore⟩ := hgoes
  · rw [hret] at hg
    cases hg
  rw [hcore, hpc] at hg
  cases hlooped : f.looped with
  | false => simp [Pc.behindWait, hlooped] at hg
  | true =>
    have hfg : f = g := by simpa [Pc.behindWait, hlooped] using hg
    subst hfg
    obtain hexp | henough := h.enough hpc hloads hlooped hdeadline
    · left
      have hsame : s'.lastRead = s.lastRead := by
        obtain ⟨hreads, -⟩ | ⟨-, hsame⟩ := hread
        · simp [Timed.readsClock, hpc, hloads, hlooped] at hreads
        · exact hsame
      exact hexp.congr htimeout hsame
    · exact absurd (UInt32.lt_of_le_of_lt henough hfew) (UInt32.lt_irrefl _)

theorem Timed.Brings.step (h : s.Brings) (hkept : s.look.core.Kept) (hsees : s.look.Sees)
    (hb : WaitBrings s l) (hs : s.step l = some s') : s'.Brings := by
  obtain ⟨hk, hsound, -⟩ := hb
  cases l with
  | enter call timeout =>
    intro f hf
    simp only [Timed.step] at hs
    split at hs
    · obtain ⟨look, hlook, rfl⟩ := Option.map_eq_some_iff.mp hs
      obtain ⟨-, -, hcore⟩ := other_step hlook
      simp only [Core.step] at hcore
      split at hcore
      · have hpc : look.core.pc = .take call call.entries 0 none none := by
          rw [← Option.some.inj hcore]
        rw [hpc] at hf
        cases hf
      · cases hcore
    · cases hs
  | compare now wrapped => exact h.compare hs
  | other k =>
    obtain ⟨hlook, htimeout, hread, hcompare, henter⟩ := timed_other hs
    cases k with
    | loadTail => exact h.load (.inl hlook) htimeout hread
    | loadHead => exact h.load (.inr hlook) htimeout hread
    | compare left => exact absurd rfl (hcompare left)
    | sleep =>
      intro f hf
      have hlook : s.look.sleep = some s'.look := hlook
      unfold Looking.sleep at hlook
      split at hlook
      · rw [← Option.some.inj hlook] at hf
        cases hf
      · cases hlook
    | other c =>
      obtain ⟨hl, hloads, hcore⟩ := other_step hlook
      obtain ⟨huntouched, hbrought⟩ := hsound.2 c rfl
      exact h.core_step hkept hsees hk huntouched hbrought hl hcore rfl hloads htimeout hread

/-- At a comparison an -ETIME is said for want of time, or for want of CQEs behind the wait. -/
theorem compare_late (hsees : s.look.Sees) (h : s.Brings) (hs : s.compare now wrapped = some s')
    (hb : WaitBrings s (.compare now wrapped)) : ∀ a ∈ s.answers s', a.Late := by
  obtain ⟨-, hfits, hcount⟩ := hb
  obtain ⟨left, hlook, htimeout, hread⟩ := timed_compare hs
  obtain ⟨f, avail, hpc, hloads, ⟨ret, hret, hring, hwhy⟩ | ⟨-, hcore⟩⟩ := compare_goes hlook
  swap
  · rw [answers_waits fun ret hret => by rw [hcore, hpc] at hret; cases hret]
    exact fun a ha => absurd ha List.not_mem_nil
  rw [answers_eq hpc hret]
  intro a ha hetime
  rw [List.eq_of_mem_singleton ha] at hetime ⊢
  have hetime : ret = -etime := hetime
  obtain hsub | ⟨hfew, hdeadline, hlate⟩ := hwhy
  · refine absurd ?_ hcount
    rw [hpc, ← hetime, hsub]
    rfl
  constructor
  · show s'.Expired
    cases hlooped : f.looped with
    | true =>
      have hsame : s'.lastRead = s.lastRead := by
        obtain ⟨hreads, -⟩ | ⟨-, hsame⟩ := hread
        · simp [Timed.readsClock, hpc, hloads, hlooped] at hreads
        · exact hsame
      -- the wait brought enough, so the count can only be short where the time was up before it
      obtain hexp | henough := h.enough hpc hloads hlooped hdeadline
      · exact hexp.congr htimeout hsame
      · exact absurd (UInt32.lt_of_le_of_lt henough hfew) (UInt32.lt_irrefl _)
    | false =>
      have hreads : s.readsClock = true := by simp [Timed.readsClock, hpc, hloads, hlooped, hdeadline, hfew]
      obtain ⟨-, hleft, hnow⟩ | ⟨hnot, -⟩ := hread
      · -- nothing overflows, so `left` is what enter compares with zero
        obtain ⟨t, ht, hfit⟩ := hfits hreads
        obtain ⟨left₀, hat⟩ := Option.isSome_iff_exists.mp hfit.fits
        have hleft₀ : s.left now = some left₀ := by
          rw [Timed.left, ht]
          exact hat
        rw [hleft₀] at hleft
        have hexp : left₀ ≤ 0 := by
          have hle := hlate.resolve_left (by rw [hlooped]; exact Bool.false_ne_true)
          rw [hleft] at hle
          exact hle
        exact left_expired hleft₀ hexp htimeout hnow
      · cases hreads.symm.trans hnot
  · have hright := hsees.right hpc
    rw [hloads] at hright
    show s'.look.core.ring.cqAvail < f.call.minComplete
    rw [hring]
    exact UInt32.lt_of_le_of_lt hright hfew

/-- Another step of a call answers with the count it took, or with -EBADF. -/
theorem other_late (hl : ∀ now wrapped, l ≠ .compare now wrapped) (hs : s.step l = some s')
    (hcount : Int32.ofNat s.look.core.pc.submitted ≠ -etime) : ∀ a ∈ s.answers s', a.Late := by
  intro a ha hetime
  unfold Timed.answers at ha
  split at ha
  swap
  · cases ha
  next call ret hcall hret =>
  rw [List.eq_of_mem_singleton ha] at hetime
  have hetime : ret = -etime := hetime
  cases l with
  | compare now wrapped => exact absurd rfl (hl now wrapped)
  | enter call timeout =>
    simp only [Timed.step] at hs
    split at hs
    · obtain ⟨look, hlook, rfl⟩ := Option.map_eq_some_iff.mp hs
      obtain ⟨-, -, hcore⟩ := other_step hlook
      simp only [Core.step] at hcore
      split at hcore
      · next hpc =>
        rw [hpc] at hcall
        cases hcall
      · cases hcore
    · cases hs
  | other k =>
    obtain ⟨hlook, -, -, hcompare, -⟩ := timed_other hs
    cases k with
    | loadTail =>
      obtain ⟨hcore, ⟨f, hpc⟩, -⟩ := load_enough (.inl hlook)
      rw [hcore, hpc] at hret
      cases hret
    | loadHead =>
      obtain ⟨hcore, ⟨f, hpc⟩, -⟩ := load_enough (.inr hlook)
      rw [hcore, hpc] at hret
      cases hret
    | compare left => exact absurd rfl (hcompare left)
    | sleep =>
      have hlook : s.look.sleep = some s'.look := hlook
      unfold Looking.sleep at hlook
      split at hlook
      · rw [← Option.some.inj hlook] at hret
        cases hret
      · cases hlook
    | other c =>
      obtain ⟨hc, -, hcore⟩ := other_step hlook
      obtain hsub | hbad | ⟨left, hcheck⟩ := step_returns hcore hcall hret
      · exact absurd (hsub.symm.trans hetime) hcount
      · exact absurd (hbad.symm.trans hetime) (by decide)
      · exact absurd hcheck (hc left)

end Timed

/-- In every run in which no timeout overflows, a timed wait brings what was asked for or began with less
than a millisecond left, and nobody else takes or posts a CQE in between, an -ETIME is late. -/
theorem etime_is_late {n : ℕ} {e : UInt32} {tr : List Answer} {s : Timed}
    (hr : Run timedMachine WaitBrings { look := { core := setupCore n e } } tr s) : ∀ a ∈ tr, a.Late := by
  have hinv : (∀ a ∈ tr, a.Late) ∧ s.look.core.Kept ∧ s.look.Sees ∧ s.Brings := by
    apply hr.invariant fun tr s => (∀ a ∈ tr, a.Late) ∧ s.look.core.Kept ∧ s.look.Sees ∧ s.Brings
    · refine ⟨fun a ha => absurd ha List.not_mem_nil, ?_, .inl rfl, fun f hf => by cases hf⟩
      exact ⟨{}, List.range n, [], [], [], Chains.wellFormed_empty, setupCore_rep n e⟩
    intro tr s l s' _ ⟨hlate, hkept, hsees, hbrings⟩ hb hs
    have hs : s.step l = some s' := hs
    obtain ⟨k, hlook, hk, hq⟩ := timed_look hs
    refine ⟨fun a ha => ?_, hkept.look (hk hb.1) hlook, hsees.step (hk hb.1) (hq hb.2.1) hlook,
      hbrings.step hkept hsees hb hs⟩
    rcases List.mem_append.mp ha with hold | hnew
    · exact hlate a hold
    have hevents : timedMachine.events s l = s.answers s' := by
      show ((s.step l).map s.answers).getD [] = _
      rw [hs]
      rfl
    rw [hevents] at hnew
    by_cases hl : ∃ now wrapped, l = .compare now wrapped
    · obtain ⟨now, wrapped, rfl⟩ := hl
      exact compare_late hsees hbrings hs hb a hnew
    · exact other_late (fun now wrapped hnow => hl ⟨now, wrapped, hnow⟩) hs hb.2.2 a hnew
  exact hinv.1

/-- A reading of the clock. -/
def clockAt (sec nsec : ℤ) (hsec : 0 ≤ sec ∧ sec ≤ 9223372036854775807)
    (hnsec : 0 ≤ nsec ∧ nsec < 1000000000) : Duration := ⟨⟨sec, nsec⟩, hsec.1, hsec.2, hnsec.1, hnsec.2⟩

/-- Enter loads the cursors of the CQ and compares. -/
def looks (now : Duration) (wrapped : ℤ) : List TimedLabel :=
  [.other .loadTail, .other .loadHead, .compare now wrapped]

/-- An enter that submits nothing and waits for one CQE, up to its first comparison. -/
def waitForOne (ts : Timespec) (clock now : Duration) : List TimedLabel :=
  [.enter { minComplete := 1, getevents := true, hasDeadline := true } (some (ts, clock)),
    .other (.other .append), .other (.other (.settle []))] ++ looks now 0

/-- The wait hands back `done`, and enter goes on to its second comparison. -/
def waitReturns (done : List (Slot × Int32)) (now : Duration) : List TimedLabel :=
  let back : List TimedLabel := done.map fun p => .other (.other (.handBack p.1 p.2))
  let complete : TimedLabel := .other (.other (.complete []))
  [.other .sleep] ++ back ++ [.other (.other .waitReturn)] ++ done.map (fun _ => complete) ++
    [complete, .other (.other (.queueStep .own [])), .other (.other (.settle []))] ++ looks now 0

def fiveSeconds : Duration := clockAt 5 0 (by decide) (by decide)

/-- An op is submitted and comes back from the first wait; the second call waits for two milliseconds, in
vain. -/
theorem etime_is_late_idle : ∃ tr s,
    Run timedMachine WaitBrings { look := { core := setupCore 2 2 } } tr s ∧
      (tr.any fun a => a.ret == -etime) = true ∧ ∀ a ∈ tr, a.Late := by
  obtain ⟨tr, s, hr, hany⟩ := Run.of_exec timedMachine
    (fun s l => timedKeepsCheck s l = true ∧ s.Sound l ∧ Int32.ofNat s.look.core.pc.submitted ≠ -etime)
    { look := { core := setupCore 2 2 } } (fun tr _ => (tr.any fun a => a.ret == -etime) = true)
    ([.enter { entries := [some {}] } none] ++
      ([.takeSqe, .append, .queueStep .own [], .execTake, .execPending,
        .queueStep .own []] : List CoreLabel).map (fun l => .other (.other l)) ++
      waitForOne ⟨1, 0⟩ fiveSeconds fiveSeconds ++ waitReturns [(0, 0)] fiveSeconds ++
      [.other (.other (.read 1))] ++
      waitForOne ⟨0, 2000000⟩ fiveSeconds (clockAt 5 2000000 (by decide) (by decide)))
    (by decide +kernel)
  have hr := hr.mono fun _ _ h => show WaitBrings _ _ from ⟨timedKeeps_of_check h.1, h.2⟩
  exact ⟨tr, s, hr, hany, etime_is_late hr⟩

/-- A wait of 200 milliseconds is woken at once by a poke that was left over, and enter answers -ETIME
with all of the timeout left. -/
theorem bare_poke_etime : ∃ tr s, Run timedMachine TimedKeeps { look := { core := setupCore 2 2 } } tr s ∧
    ¬ ∀ a ∈ tr, a.Late := by
  obtain ⟨tr, s, hr, hlate⟩ := Run.of_exec timedMachine (fun s l => timedKeepsCheck s l = true)
    { look := { core := setupCore 2 2 } } (fun tr _ => ¬ ∀ a ∈ tr, a.Late)
    (waitForOne ⟨0, 200000000⟩ fiveSeconds fiveSeconds ++ waitReturns [] fiveSeconds)
    (by decide +kernel)
  exact ⟨tr, s, hr.mono fun _ _ h => timedKeeps_of_check h, hlate⟩

/-- A timeout of all the seconds there are: the deadline overflows, and what the machine makes of it is
answered with -ETIME at once. -/
example : ((timedMachine.exec (fun s l => timedKeepsCheck s l = true) [] { look := { core := setupCore 2 2 } }
    (waitForOne ⟨9223372036854775807, 0⟩ fiveSeconds fiveSeconds)).any
    fun p => decide (¬ ∀ a ∈ p.1, a.Late)) = true := by
  decide +kernel

end SlipstreamIO.Engine
