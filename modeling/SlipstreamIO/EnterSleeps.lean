import SlipstreamIO.PosixSteps

/-! When enter sleeps: with the queue run dry, or behind an op the backend still has, or with a wakeup on
its way, as long as no ticket is settled in front of a waiting queue after its wakeup is gone. -/
namespace SlipstreamIO.Engine

open ThreadedList Runs

/-- The worker has a poke to write. -/
def WorkerPc.owes : WorkerPc → Bool
  | .finished _ _ | .posted => true
  | _ => false

namespace Posix

/-- A wakeup is in the pipe, or the worker has still to write it. -/
def Rung (s : Posix) : Prop := 0 < s.pipe.bytes ∨ s.worker.owes = true

instance (s : Posix) : Decidable s.Rung := inferInstanceAs (Decidable (_ ∨ _))

/-- Nothing in the queue can be run, or it is going to be looked at. -/
def Rests (s : Posix) : Prop :=
  s.core.ring.queueHead = none ∨ s.core.ring.blocking ≠ none ∨ s.Rung

/-- Outside `process_queue` nothing is left to run without a wakeup, and behind a settling no ticket is up
without one. -/
def Sleepless (s : Posix) : Prop := s.back = .core → match s.core.pc with
  | .out _ | .take _ _ _ _ _ | .settle _ => s.Rests
  | .check _ | .wait _ _ _ => s.Rests ∧ (s.core.ring.blockedDone = none ∨ s.Rung)
  | _ => True

/-- A ticket is settled in front of a queue that is empty, or with a wakeup on its way. -/
def Rouses (s : Posix) : PosixLabel → Prop
  | .engine (.settle _) =>
    s.core.ring.blockedDone ≠ none → s.core.ring.queueHead = none ∨ s.Rung
  | _ => True

instance (s : Posix) (l : PosixLabel) : Decidable (s.Rouses l) := by
  cases l with
  | engine l =>
    cases l with
    | settle => exact inferInstanceAs (Decidable (_ → _))
    | _ => exact isTrue trivial
  | _ => exact isTrue trivial

section Steps
variable {s s' s₀ : Posix} {wq : List Slot} {p : List PosixEvent × Posix} {l : CoreLabel} {b : BackPc}

theorem Sleepless.of_rung (h : s.Rung) : s.Sleepless := by
  intro _
  split
  · exact .inr (.inr h)
  · exact .inr (.inr h)
  · exact .inr (.inr h)
  · exact ⟨.inr (.inr h), .inr h⟩
  · exact ⟨.inr (.inr h), .inr h⟩
  · trivial

theorem Sleepless.of_back (h : s.back ≠ .core) : s.Sleepless := fun hb => absurd hb h

/-- What the submitter looks at is left alone. -/
theorem Sleepless.keep (h : s.Sleepless) (hb : s'.back = s.back) (hpc : s'.core.pc = s.core.pc)
    (hqueue : s'.core.ring.queueHead = s.core.ring.queueHead)
    (hblocking : s'.core.ring.blocking = s.core.ring.blocking)
    (hdone : s'.core.ring.blockedDone = s.core.ring.blockedDone) (hr : s.Rung → s'.Rung) :
    s'.Sleepless := by
  have hrests : s.Rests → s'.Rests := by
    unfold Rests
    rw [hqueue, hblocking]
    exact Or.imp_right (Or.imp_right hr)
  intro hcore
  have h := h (hb ▸ hcore)
  rw [hpc, hdone]
  split at h
  · exact hrests h
  · exact hrests h
  · exact hrests h
  · exact ⟨hrests h.1, h.2.imp_right hr⟩
  · exact ⟨hrests h.1, h.2.imp_right hr⟩
  · trivial

/-- `process_queue` is through with the queue. -/
theorem Rests.sleepless {f : Frame} (h : s.Rests) (hpc : s.core.pc = Core.afterQueue f) :
    s.Sleepless := by
  intro _
  unfold Core.afterQueue at hpc
  split at hpc
  · rw [hpc]
    exact h
  · rw [hpc]
    exact h

/-- A ticket that is up is that of the op the queue waits for. -/
theorem ticket_blocks {c : Core} {f : Frame} (hg : c.Sound) (hpc : c.pc = .settle f)
    (hd : c.ring.blockedDone ≠ none) : c.ring.blockedDone = c.ring.blocking := by
  obtain ⟨a, free, backlog, queue, batch, -, hr⟩ := hg
  have hwaiting : c.waitingFor = c.ring.blocking := by
    unfold Core.waitingFor
    rw [hpc]
  cases hb : c.ring.blocking with
  | none => exact absurd (hr.governs.idle (hwaiting.trans hb)) hd
  | some x =>
    have hx := hwaiting.trans hb
    have hi := hr.governs.waiting
    rw [hx] at hi
    obtain ⟨i, hi⟩ := Option.isSome_iff_exists.mp hi.symm
    have hpends := hr.governs.pends x i hx hi
    cases ht : a.ticket with
    | none => exact absurd (hpends.live ht).1 hd
    | some t => exact (hpends.ticketed t.1 t.2 ht).2.1

/-- A settling takes a ticket down, and leaves the rest alone. -/
theorem settle_spec {c : Core} {f : Frame} (hg : c.Sound) (hpc : c.pc = .settle f) (reads : List ℕ) :
    (c.ring.settleWorkerTicket reads).queueHead = c.ring.queueHead ∧
      ((c.ring.blockedDone = none → (c.ring.settleWorkerTicket reads).blocking = c.ring.blocking ∧
        (c.ring.settleWorkerTicket reads).blockedDone = none) ∧
      (c.ring.blockedDone ≠ none → (c.ring.settleWorkerTicket reads).blockedDone = none)) := by
  unfold Ring.settleWorkerTicket
  by_cases hup : c.ring.blockedDone = none
  · simp only [hup, ne_eq, not_true_eq_false, false_and, if_false]
    exact ⟨rfl, fun _ => ⟨rfl, hup⟩, fun h => h.elim⟩
  · have hblocks := ticket_blocks hg hpc hup
    rw [if_pos ⟨hup, hblocks⟩]
    split
    · exact ⟨rfl, fun h => absurd h hup, fun _ => rfl⟩
    · exact ⟨rfl, fun h => absurd h hup, fun _ => rfl⟩

/-- What a step of the engine makes of it. -/
theorem Sleepless.engine (h : s.Sleepless) (hg : s.core.Sound) (hd : s.Rouses (.engine l))
    (hs : s.engineStep l = some p) : p.2.Sleepless := by
  unfold engineStep at hs
  split at hs
  swap
  · cases hs
  next hl =>
  obtain ⟨q, u, hq, hu, rfl⟩ := andThen_eq hs
  obtain ⟨c, hc, -, hq2⟩ := inCore_eq hq
  have hu2 : u.2 = { s with core := c } := by
    rw [← hq2]
    cases l with
    | settle reads =>
      dsimp only at hu
      split at hu <;> cases hu <;> rfl
    | _ => cases hu; rfl
  show u.2.Sleepless
  rw [hu2]
  by_cases hcore : s.back = .core
  swap
  · exact .of_back hcore
  have h := h hcore
  have hrests {r : Ring} (hr : s.Rests) (hqueue : r.queueHead = s.core.ring.queueHead)
      (hblocking : r.blocking = s.core.ring.blocking) {c : Core} (hring : c.ring = r) :
      Rests { s with core := c } := by
    unfold Rests
    rw [hring, hqueue, hblocking]
    exact hr
  cases l with
  | enter call =>
    simp only [Core.step] at hc
    split at hc <;> cases hc
    next ret hpc =>
    rw [hpc] at h
    exact fun _ => h
  | takeSqe =>
    simp only [Core.step, Core.takeSqe] at hc
    split at hc
    swap
    · cases hc
    next call entry rest submitted batchHead batchTail hpc =>
    rw [hpc] at h
    split at hc
    · cases hc
      exact fun _ => h
    · split at hc
      · cases hc
        exact fun _ => h
      · cases hc
        exact fun _ => h
  | append =>
    simp only [Core.step, Core.append] at hc
    split at hc
    swap
    · cases hc
    next call submitted batchHead batchTail hpc =>
    rw [hpc] at h
    split at hc
    · cases hc
      exact Rests.sleepless (s := { s with core := _ }) h rfl
    · cases hc
      exact fun _ => trivial
  | queueStep target reads =>
    simp only [Core.step, Core.queueStep] at hc
    split at hc
    swap
    · cases hc
    next f hpc =>
    split at hc
    · next hhead =>
      cases hc
      exact Rests.sleepless (s := { s with core := _ }) (.inl hhead) rfl
    split at hc
    · next hblocking =>
      cases hc
      exact Rests.sleepless (s := { s with core := _ }) (.inr (.inl hblocking)) rfl
    -- an op is in hand
    repeat' split at hc
    all_goals
      cases hc
      exact fun _ => by simp only [hpc]
  | post reads =>
    simp only [Core.step, Core.post] at hc
    split at hc <;> cases hc
    exact fun _ => trivial
  | settle reads =>
    simp only [Core.step, Core.settle] at hc
    split at hc <;> cases hc
    next f hpc =>
    rw [hpc] at h
    intro _
    obtain ⟨hqueue, hsame⟩ := settle_spec hg hpc reads
    dsimp only
    by_cases hup : s.core.ring.blockedDone = none
    · obtain ⟨hblocking, hdone⟩ := hsame.1 hup
      exact ⟨hrests h hqueue hblocking rfl, .inl hdone⟩
    · obtain hempty | hrung := hd hup
      · exact ⟨.inl (hqueue.trans hempty), .inl (hsame.2 hup)⟩
      · exact ⟨.inr (.inr hrung), .inr hrung⟩
  | check left =>
    simp only [Core.step, Core.check] at hc
    split at hc
    swap
    · cases hc
    next f hpc =>
    rw [hpc] at h
    repeat' split at hc
    all_goals cases hc
    · exact fun _ => h.1
    · exact fun _ => h.1
    · exact fun _ => h
    · exact fun _ => h
  | complete reads =>
    simp only [Core.step, Core.complete] at hc
    split at hc <;> cases hc
    · exact fun _ => trivial
    · exact fun _ => trivial
  | read k =>
    cases hc
    exact Sleepless.keep (s := s) (fun _ => h) rfl rfl rfl rfl rfl id
  | _ => cases hl

theorem poke_rings {pipe pipe' : Pipe} (hp : slipPosixPoke pipe = some pipe') : 0 < pipe'.bytes := by
  unfold slipPosixPoke Pipe.write at hp
  split at hp
  · cases hp
    exact Nat.succ_pos _
  · split at hp
    · next hfull _ =>
      cases hp
      exact Nat.lt_of_lt_of_le pipe.holds (not_lt.mp hfull)
    · cases hp

theorem full_rings {pipe : Pipe} (hp : (slipPosixPoke pipe).isSome ≠ true) : 0 < pipe.bytes := by
  by_contra hnone
  have hroom : pipe.bytes < pipe.capacity := Nat.lt_of_le_of_lt (not_lt.mp hnone) pipe.holds
  apply hp
  rw [slipPosixPoke, Pipe.write, if_pos hroom]
  rfl

/-- Execute is left, or gone on with, towards the queue. -/
theorem sleepless_execute (hl : l = .execTake ∨ l = .execPending ∨ ∃ res, l = .execDone res)
    (hs : s₀.inCore l b = some p) : p.2.Sleepless := by
  obtain ⟨c, hc, -, hp⟩ := inCore_eq hs
  rw [hp]
  intro _
  obtain rfl | rfl | ⟨res, rfl⟩ := hl <;>
    simp only [Core.step, Core.execTake, Core.execPending, Core.execDone] at hc <;>
    split at hc <;> cases hc <;> trivial

theorem sleepless_taken {op : Slot} {linked : Bool} {r : Ring}
    (hs : andThen (s₀.takeOp op linked r) (·.inCore .execPending .core) = some p) : p.2.Sleepless := by
  obtain ⟨q, u, -, hu, rfl⟩ := andThen_eq hs
  exact sleepless_execute (p := u) (.inr (.inl rfl)) hu

/-- The submitter stays in the backend. -/
theorem sleepless_inside (hs : s₀.inCore l b = some p) (hb : b ≠ .core) : p.2.Sleepless := by
  obtain ⟨c, -, -, hp⟩ := inCore_eq hs
  rw [hp]
  exact .of_back hb

theorem sleepless_quiet (hs : s₀.quiet = some p) (h : s₀.Sleepless) : p.2.Sleepless := by
  cases hs
  exact h

namespace Inv

theorem execute_sleepless (h : s.Inv wq) (hg : s.core.Sound) {a : OsAnswer} {armed : Bool}
    {links : List (Slot × Option Slot)} {reads : List ℕ} (hs : s.execute a armed links reads = some p) :
    p.2.Sleepless := by
  unfold Posix.execute at hs
  split at hs
  swap
  · cases hs
  next f op linked hpc =>
  split at hs
  · cases hs
  obtain ⟨q, u, hq, hu, rfl⟩ := andThen_eq hs
  cases hq
  show u.2.Sleepless
  obtain ⟨r, hr, -⟩ := h.turn hg (.inl (by rw [hpc]; rfl)) a reads
  rw [hr] at hu
  split at hu
  · cases hu
    intro _
    rw [show (s.setRing r).core.pc = .exec f op linked false from hpc]
    trivial
  · exact sleepless_execute (.inr (.inr ⟨_, rfl⟩)) hu
  · dsimp only at hu
    split at hu
    · exact sleepless_taken hu
    · exact sleepless_execute (.inr (.inr ⟨_, rfl⟩)) hu
  · split at hu
    · exact sleepless_taken hu
    · exact sleepless_execute (.inl rfl) hu

theorem retry_sleepless (h : s.Inv wq) (hg : s.core.Sound) {a : OsAnswer} {armed : Bool}
    {links : List (Slot × Option Slot)} {reads : List ℕ} (hs : s.retry a armed links reads = some p) :
    p.2.Sleepless := by
  unfold Posix.retry at hs
  split at hs
  swap
  · cases hs
  next op ready hback =>
  obtain ⟨q, u, hq, hu, rfl⟩ := andThen_eq hs
  cases hq
  show u.2.Sleepless
  have hop : Inv.Tries s op := .inr (by simp [hback, BackPc.own])
  obtain ⟨r, hr, -⟩ := h.turn hg hop a reads
  rw [hr] at hu
  split at hu
  · refine sleepless_quiet hu (.of_back ?_)
    rw [show (s.setRing r).back = .retrying op ready from hback]
    rintro ⟨⟩
  · exact sleepless_inside hu (by rintro ⟨⟩)
  · exact sleepless_inside hu (by rintro ⟨⟩)
  · dsimp only at hu
    split at hu
    · exact sleepless_quiet hu (.of_back (by rintro ⟨⟩))
    · exact sleepless_inside hu (by rintro ⟨⟩)

theorem cancel_sleepless {links : List (Slot × Option Slot)} {reads : List ℕ}
    (hs : s.cancelStep links reads = some p) : p.2.Sleepless := by
  have htaken {all : Bool} {b b' : BackPc} (hb : b ≠ .core) (hb' : b' ≠ .core) :
      (if all then b else b') ≠ .core := by
    cases all
    · exact hb'
    · exact hb
  unfold Posix.cancelStep at hs
  split at hs
  · cases hs
  dsimp only at hs
  split at hs
  · split at hs
    · exact sleepless_quiet hs (.of_back (by rintro ⟨⟩))
    · cases hs
  · split at hs
    · exact sleepless_quiet hs (.of_back (by rintro ⟨⟩))
    · split at hs
      · exact sleepless_inside hs (htaken (by rintro ⟨⟩) (by rintro ⟨⟩))
      · exact sleepless_quiet hs (.of_back (by rintro ⟨⟩))
  · split at hs
    · exact sleepless_quiet hs (.of_back (by rintro ⟨⟩))
    · split at hs
      · exact sleepless_inside hs (htaken (by rintro ⟨⟩) (by rintro ⟨⟩))
      · exact sleepless_quiet hs (.of_back (by rintro ⟨⟩))
  · split at hs
    · cases hs
    · exact sleepless_quiet hs (.of_back (by rintro ⟨⟩))
    · exact sleepless_quiet hs (.of_back (by rintro ⟨⟩))
  · exact sleepless_inside hs (htaken (by rintro ⟨⟩) (by rintro ⟨⟩))
  · obtain ⟨q, u, -, hu, rfl⟩ := andThen_eq hs
    exact sleepless_execute (p := u) (.inr (.inr ⟨_, rfl⟩)) hu
  · cases hs

/-- A step of the backend, its worker or another ring. -/
theorem sleepless (h : s.Inv wq) (hg : s.core.Sound) {l : PosixLabel} (hd : s.Rouses l) (hrest : s.Sleepless)
    (hs : s.out l = some p) : p.2.Sleepless := by
  cases l with
  | engine l => exact hrest.engine hg hd hs
  | tries a armed links reads =>
    simp only [Posix.out] at hs
    split at hs
    · exact h.execute_sleepless hg hs
    · exact h.retry_sleepless hg hs
  | pending => exact sleepless_execute (.inr (.inl rfl)) hs
  | cancel links reads => exact cancel_sleepless hs
  | wake reported ready =>
    simp only [Posix.out, Posix.wake] at hs
    split at hs
    swap
    · cases hs
    split at hs
    · refine sleepless_quiet hs (.of_back ?_)
      cases reported <;> rintro ⟨⟩
    · cases hs
  | drain =>
    simp only [Posix.out, Posix.drain] at hs
    split at hs
    swap
    · cases hs
    obtain ⟨⟨got, pipe⟩, -, hs⟩ := Option.bind_eq_some_iff.mp hs
    refine sleepless_quiet hs (.of_back ?_)
    dsimp only
    split <;> rintro ⟨⟩
  | ready links =>
    simp only [Posix.out, Posix.nextReady] at hs
    split at hs
    swap
    · cases hs
    split at hs
    · exact sleepless_quiet hs (.of_back (by rintro ⟨⟩))
    · cases hs
  | cameBack op res =>
    simp only [Posix.out, Posix.cameBack] at hs
    split at hs
    swap
    · cases hs
    split at hs
    · exact sleepless_inside hs (by rintro ⟨⟩)
    · cases hs
  | back =>
    simp only [Posix.out, Posix.waitReturns] at hs
    split at hs
    swap
    · cases hs
    split at hs
    swap
    · cases hs
    obtain ⟨c, hc, -, hp⟩ := inCore_eq hs
    rw [hp]
    intro _
    simp only [Core.step, Core.waitReturn] at hc
    split at hc <;> cases hc
    trivial
  | fail =>
    simp only [Posix.out] at hs
    split at hs
    swap
    · cases hs
    next hback =>
    obtain ⟨c, hc, -, hp⟩ := inCore_eq hs
    rw [hp]
    intro _
    simp only [Core.step, Core.waitFail] at hc
    split at hc
    swap
    · cases hc
    next hpc =>
    cases hc
    have hrest := hrest hback
    rw [hpc] at hrest
    exact hrest.1
  | workerTake =>
    simp only [Posix.out, Posix.workerTake] at hs
    split at hs
    swap
    · cases hs
    next op hidle hhead =>
    refine sleepless_quiet hs (hrest.keep rfl rfl rfl rfl rfl ?_)
    rintro (hbytes | howes)
    · exact .inl hbytes
    · rw [hidle] at howes
      cases howes
  | workerFinish res =>
    simp only [Posix.out, Posix.workerFinish] at hs
    split at hs
    swap
    · cases hs
    next op hruns =>
    obtain ⟨q, u, hq, hu, rfl⟩ := andThen_eq hs
    obtain ⟨c, -, -, hq2⟩ := inCore_eq hq
    have hu2 : u.2 = q.2 := by
      split at hu <;> cases hu <;> rfl
    apply Sleepless.of_rung
    right
    rw [hu2, hq2]
    rfl
  | workerPost reads =>
    simp only [Posix.out, Posix.workerPost] at hs
    split at hs <;> cases hs
    exact .of_rung (.inr rfl)
  | workerPoke | senderPoke =>
    simp only [Posix.out] at hs
    split at hs
    swap
    · cases hs
    obtain ⟨pipe, hpipe, hs⟩ := Option.bind_eq_some_iff.mp hs
    exact sleepless_quiet hs (.of_rung (.inl (poke_rings hpipe)))
  | senderEmit u res reads => exact sleepless_quiet hs (hrest.keep rfl rfl rfl rfl rfl id)
  | interrupted worker =>
    simp only [Posix.out] at hs
    split at hs
    · cases hs
    next hfull =>
    have hrung := full_rings hfull
    repeat' split at hs
    all_goals first | cases hs; done | exact sleepless_quiet hs (.of_rung (.inl hrung))
  | table l =>
    have hk := table_writes s.core l
    exact sleepless_quiet hs (hrest.keep rfl rfl hk.queueHead hk.blocking hk.blockedDone id)

end Inv

end Steps

end Posix

/-- In every run whose tickets are settled with the queue empty or a wakeup on its way, enter that waits
in the backend has an empty queue, or waits for a linked op the backend still has, or is going to be woken. -/
theorem enter_sleeps_on_nothing {n : ℕ} {e : UInt32} {b : Bool} {k : ℕ} {hk : 0 < k}
    {tr : List PosixEvent} {s : Posix} {f : Frame} {forever : Bool}
    (hr : Run posixMachine (fun s l => s.Spares l ∧ s.Rouses l) (setupPosix n e b k hk) tr s)
    (hback : s.back = .core) (hpc : s.core.pc = .wait f forever []) :
    s.core.ring.queueHead = none ∨
      (∃ x, s.core.ring.blocking = some x ∧ s.core.ring.blockedDone = none ∧ s.core.hands x = .held) ∨
      s.Rung := by
  have hrest : s.Sleepless := by
    refine hr.invariant (fun _ s => s.Sleepless) (fun _ => .inl rfl) ?_
    intro tr s l s' hr hrest hd hs
    obtain ⟨hcore, wq, hinv⟩ := posix_refines (hr.mono fun _ _ h => h.1)
    exact hinv.sleepless ((setupPosix_sound n e b k hk).run hcore) hd.2 hrest (Posix.step_out hs)
  have hrest := hrest hback
  rw [hpc] at hrest
  obtain ⟨hempty | hblocking | hrung, hdone⟩ := hrest
  · exact .inl hempty
  · obtain hdone | hrung := hdone
    swap
    · exact .inr (.inr hrung)
    right
    left
    obtain ⟨x, hx⟩ := Option.ne_none_iff_exists'.mp hblocking
    refine ⟨x, hx, hdone, ?_⟩
    obtain ⟨hcore, -⟩ := posix_refines (hr.mono fun _ _ h => h.1)
    obtain ⟨a, free, backlog, queue, batch, given, hist, hrep, -⟩ :=
      core_run_refines (C := fun _ _ => True) (fun _ _ h => h) (fun _ _ _ _ _ _ _ _ _ _ _ _ => trivial) hcore
    obtain ⟨hw, -⟩ := History.accounts hist
    have hwaiting : s.core.waitingFor = some x := by
      rw [Core.waitingFor, hpc]
      exact hx
    have hi := hrep.governs.waiting
    rw [hwaiting] at hi
    obtain ⟨i, hi⟩ := Option.isSome_iff_exists.mp hi.symm
    have hpends := hrep.governs.pends x i hwaiting hi
    cases ht : a.ticket with
    | some t => cases (hpends.ticketed t.1 t.2 ht).2.1.symm.trans hdone
    | none =>
      obtain ⟨-, -, hat⟩ := hpends.live ht
      obtain hheld | ⟨res, hreturned⟩ := (hw.blocking i hi).2.2.2 ht
      · rw [hheld] at hat
        exact hat
      · -- nothing is handed back before the wait comes back
        rw [hreturned] at hat
        have hdone : (x, res) ∈ s.core.pc.done := hat
        rw [hpc] at hdone
        cases hdone
  · exact .inr (.inr hrung)

/-- A NOP behind a linked `openat` that the worker runs: enter sleeps over the NOP, and waits for the worker. -/
theorem enter_sleeps_on_nothing_nop : ∃ tr s f,
    Run posixMachine (fun s l => s.Spares l ∧ s.Rouses l) (setupPosix 2 4 false 1 Nat.one_pos) tr s ∧
      s.core.pc = .wait f true [] ∧ s.core.ring.queueHead = some 1 ∧ s.worker = .running 0 ∧
      (s.core.ring.queueHead = none ∨ (∃ x, s.core.ring.blocking = some x ∧
        s.core.ring.blockedDone = none ∧ s.core.hands x = .held) ∨ s.Rung) := by
  let call : Call := { minComplete := 2, getevents := true, entries := [
    some { opcode := .openat, flags := { ioLink := true } }, some {}] }
  obtain ⟨tr, s, hr, hback, hpc, hqueue, hworker⟩ := Run.of_exec posixMachine
    (fun s l => s.Spares l ∧ s.Rouses l) (setupPosix 2 4 false 1 Nat.one_pos)
    (fun _ s => s.back = .core ∧ s.core.pc = .wait { call := call, submitted := 2 } true [] ∧
      s.core.ring.queueHead = some 1 ∧ s.worker = .running 0)
    [.engine (.enter call), .engine .takeSqe, .engine .takeSqe, .engine .append,
      .engine (.queueStep .own []), .tries .again false [] [], .pending, .workerTake,
      .engine (.queueStep .own []), .engine (.settle []), .engine (.check 0)]
    (by decide +kernel)
  exact ⟨tr, s, _, hr, hpc, hqueue, hworker, enter_sleeps_on_nothing hr hback hpc⟩

end SlipstreamIO.Engine
