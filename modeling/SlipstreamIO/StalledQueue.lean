import SlipstreamIO.LinkChains

/-! What one pending linked op does to the ops submitted after it: `process_queue` runs nothing while
`blocking` is set, and enter calls it before it looks at the worker's ticket. -/
namespace SlipstreamIO.Engine

open Runs

/-- Enter has returned or stands in the backend's wait; to enter the wait counts as sleeping, also with a
poke pending that will end it at once. -/
def Pc.rests : Pc → Bool
  | .out _ | .wait _ _ _ => true
  | _ => false

/-- An enter from `s`, up to where it returns or first sleeps, with what happens meanwhile. -/
def Entered (s : Core) (call : Call) (tr : List Event) (s' : Core) : Prop :=
  ∃ s₁, s.step (.enter call) = some s₁ ∧
    Run coreMachine (fun s l => Keeps s l ∧ s.pc.rests = false) s₁ tr s' ∧ s'.pc.rests = true

/-- Each op accepted in `tr'` that is no member of the chain of `j` is started in `tr'`. -/
def StartsOthers (tr tr' : List Event) (j : ℕ) : Prop :=
  ∀ i sqe, .accept i sqe ∈ tr' → ¬ Earlier (tr ++ tr') j i → .start i ∈ tr'

/-- The SQE the event accepts under number `i`. -/
def Event.accepts (e : Event) (i : ℕ) : Option Sqe :=
  match e with
  | .accept j sqe => if j = i then some sqe else none
  | _ => none

/-- Enter has run no op: the queue waits for `blocking`, or enter is past it. -/
def Core.stalled (s : Core) : Prop :=
  match s.pc with
  | .take _ _ _ _ _ | .queue _ => s.ring.blocking ≠ none
  | .exec _ _ _ _ | .post _ _ _ | .complete _ _ => False
  | .settle _ | .check _ | .out _ | .wait _ _ _ => True

theorem Core.stalled.congr {s s' : Core} (h : s.stalled) (hpc : s'.pc = s.pc)
    (hb : s'.ring.blocking = s.ring.blocking) : s'.stalled := by
  unfold Core.stalled at h ⊢
  rw [hpc, hb]
  exact h

section Step
variable {s s' : Core} {l : CoreLabel}

theorem afterQueue_stalled (f : Frame) (hpc : s.pc = Core.afterQueue f) : s.stalled := by
  unfold Core.afterQueue at hpc
  split at hpc <;> simp [Core.stalled, hpc]

theorem start_not_mem_gives (op : Slot) (res : Int32) (i : ℕ) : .start i ∉ s.gives op res := by
  unfold Core.gives Core.about
  split <;> simp

/-- Nothing is started on the way from the call to its end or its first sleep. -/
theorem stalled_step (h : s.stalled) (hk : Keeps s l) (hr : s.pc.rests = false)
    (hs : s.step l = some s') : s'.stalled ∧ ∀ i, .start i ∉ s.events l := by
  cases l with
  | enter call =>
    cases hpc : s.pc <;> simp [Core.step, hpc, Pc.rests] at hs hr
  | takeSqe =>
    have hev (i : ℕ) : .start i ∉ s.events .takeSqe := by
      simp only [Core.events]
      split <;> simp
    refine ⟨?_, hev⟩
    simp only [Core.step, Core.takeSqe] at hs
    split at hs
    · next call entry rest submitted batchHead batchTail hpc =>
      have hb : s.ring.blocking ≠ none := by simpa [Core.stalled, hpc] using h
      split at hs
      · cases hs
        exact hb
      · split at hs <;> cases hs <;> exact hb
    · cases hs
  | append =>
    refine ⟨?_, fun i => List.not_mem_nil⟩
    simp only [Core.step, Core.append] at hs
    split at hs
    · next call submitted batchHead batchTail hpc =>
      have hb : s.ring.blocking ≠ none := by simpa [Core.stalled, hpc] using h
      split at hs <;> cases hs
      · exact afterQueue_stalled _ rfl
      · unfold Core.stalled Ring.appendBatch
        cases s.ring.queueTail <;> exact hb
    · cases hs
  | queueStep target reads =>
    simp only [Core.step, Core.queueStep] at hs
    split at hs
    · next f hpc =>
      have hb : s.ring.blocking ≠ none := by simpa [Core.stalled, hpc] using h
      have hev : s.events (.queueStep target reads) = [] := by
        unfold Core.events Core.queueEvents
        rw [hpc]
        cases s.ring.queueHead <;> simp [hb]
      rw [hev]
      refine ⟨?_, fun i => List.not_mem_nil⟩
      simp only [hb, ne_eq, not_false_eq_true, if_true] at hs
      split at hs <;> cases hs <;> exact afterQueue_stalled f rfl
    · cases hs
  | settle reads =>
    refine ⟨?_, fun i => List.not_mem_nil⟩
    simp only [Core.step, Core.settle] at hs
    split at hs <;> cases hs
    trivial
  | check left =>
    refine ⟨?_, fun i => List.not_mem_nil⟩
    simp only [Core.step, Core.check] at hs
    (repeat' split at hs) <;> cases hs <;> trivial
  | write r =>
    cases hs
    exact ⟨h.congr rfl hk.blocking, fun i => List.not_mem_nil⟩
  | offFinish op res ticket =>
    cases hs
    refine ⟨?_, fun i => ?_⟩
    · cases ticket <;> exact h.congr rfl rfl
    · simp only [Core.events, Core.about]
      split <;> simp
  | offPost op reads =>
    refine ⟨?_, fun i => ?_⟩
    · simp only [Core.step, Core.offPost] at hs
      split at hs <;> cases hs
      exact h.congr rfl rfl
    · simp only [Core.events]
      split
      · exact start_not_mem_gives op _ i
      · exact List.not_mem_nil
  | emit userData res flags reads =>
    cases hs
    exact ⟨h.congr rfl rfl, fun i => List.not_mem_nil⟩
  | read k =>
    cases hs
    exact ⟨h.congr rfl rfl, fun i => List.not_mem_nil⟩
  | _ =>
    cases hpc : s.pc <;>
      simp [Core.step, Core.post, Core.complete, Core.execDone, Core.execTake, Core.execPending,
        Core.cancelHeld, Core.cancelQueued, Core.handBack, Core.waitReturn, Core.waitFail,
        Core.stalled, Pc.rests, hpc] at hs h hr

theorem stalled_run {s₁ : Core} {tr : List Event}
    (h : Run coreMachine (fun s l => Keeps s l ∧ s.pc.rests = false) s₁ tr s) (h₁ : s₁.stalled) :
    s.stalled ∧ ∀ i, .start i ∉ tr := by
  refine h.invariant (fun tr s => s.stalled ∧ ∀ i, .start i ∉ tr) ⟨h₁, fun i => List.not_mem_nil⟩ ?_
  rintro tr s l s' - ⟨hst, hnot⟩ ⟨hk, hr⟩ hs
  obtain ⟨hst', hnot'⟩ := stalled_step hst hk hr hs
  exact ⟨hst', fun i hi => (List.mem_append.mp hi).elim (hnot i) (hnot' i)⟩

end Step

theorem blocked_chain_stalls_ring {n : ℕ} {e : UInt32} {tr tr' : List Event} {s s' : Core}
    {call : Call} {b : Slot} (hr : Run coreMachine Keeps (setupCore n e) tr s)
    (hb : s.ring.blocking = some b) (hp : s.hands b = .held) (he : Entered s call tr' s') :
    ∃ j, (s.ring.opPool b).seq = some j ∧
      (StartsOthers tr tr' j ↔ ∀ i sqe, .accept i sqe ∈ tr' → Earlier (tr ++ tr') j i) := by
  obtain ⟨a, free, backlog, queue, batch, given, -, hrep, -⟩ :=
    core_run_refines (C := fun _ _ => True) (fun _ _ h => h) (fun _ _ _ _ _ _ _ _ _ _ _ _ => trivial) hr
  obtain ⟨j, hj, -⟩ := hrep.placed.tracks.owner b .held hp
  obtain ⟨s₁, hs₁, hrun, -⟩ := he
  have hst₁ : s₁.stalled := by
    simp only [Core.step] at hs₁
    split at hs₁ <;> cases hs₁
    simp [Core.stalled, hb]
  have hnone := (stalled_run hrun hst₁).2
  refine ⟨j, hj, fun h i sqe hi => ?_, fun h i sqe hi hni => absurd (h i sqe hi) hni⟩
  by_contra hni
  exact hnone i (h i sqe hi hni)

/-- A linked op the backend holds, the op behind it in its chain, and a NOP in a later enter. -/
theorem nop_submitted_behind : ∃ tr s tr' s', Run coreMachine Keeps (setupCore 4 8) tr s ∧
    s.ring.blocking = some 0 ∧ s.hands 0 = .held ∧ (s.ring.opPool 0).seq = some 0 ∧
      Entered s { entries := [some {}] } tr' s' ∧ .accept 2 {} ∈ tr' ∧ .start 2 ∉ tr' ∧
        ∀ sqe, .accept 1 sqe ∈ tr ++ tr' → sqe.flags.ioLink = false := by
  obtain ⟨tr, s, hr, hb, hh, hseq, hsecond⟩ := Run.of_exec coreMachine
    (fun s l => keepsCheck s l = true) (setupCore 4 8)
    (fun tr s => s.ring.blocking = some 0 ∧ s.hands 0 = .held ∧ (s.ring.opPool 0).seq = some 0 ∧
      (s.step (.enter { entries := [some {}] })).any (fun s₁ => (coreMachine.exec
        (fun s l => keepsCheck s l = true ∧ s.pc.rests = false) [] s₁
        [.takeSqe, .append, .queueStep .own []]).any (fun p => decide (p.2.pc.rests = true ∧
          .accept 2 {} ∈ p.1 ∧ .start 2 ∉ p.1 ∧
          ∀ e ∈ tr ++ p.1, ∀ sqe ∈ e.accepts 1, sqe.flags.ioLink = false))) = true)
    [.enter { entries := [some { opcode := .recv, flags := { ioLink := true } }, some {}] },
      .takeSqe, .takeSqe, .append, .queueStep .own [], .execTake, .execPending, .queueStep .own []]
    (by decide +kernel)
  obtain ⟨s₁, hs₁, hsecond⟩ := Option.any_eq_true _ _ |>.mp hsecond
  obtain ⟨tr', s', hr', hrest, hacc, hstart, hlast⟩ := Run.of_exec _ _ s₁ (fun tr' s' =>
    s'.pc.rests = true ∧ .accept 2 {} ∈ tr' ∧ .start 2 ∉ tr' ∧
      ∀ e ∈ tr ++ tr', ∀ sqe ∈ e.accepts 1, sqe.flags.ioLink = false) _ hsecond
  exact ⟨tr, s, tr', s', hr.mono (fun _ _ h => keeps_of_check h), hb, hh, hseq, ⟨s₁, hs₁,
    hr'.mono (fun _ _ h => ⟨keeps_of_check h.1, h.2⟩), hrest⟩, hacc, hstart,
    fun sqe hsqe => hlast _ hsqe sqe rfl⟩

/-- Behind a linked op the backend holds, a NOP that is no member of its chain is not started before
enter returns. -/
theorem nop_waits_behind_chain : ∃ tr s call tr' s', Run coreMachine Keeps (setupCore 4 8) tr s ∧
    s.ring.blocking = some 0 ∧ s.hands 0 = .held ∧ (s.ring.opPool 0).seq = some 0 ∧
      Entered s call tr' s' ∧ ¬ StartsOthers tr tr' 0 := by
  obtain ⟨tr, s, tr', s', hr, hb, hp, hseq, he, hacc, hstart, hlast⟩ := nop_submitted_behind
  refine ⟨tr, s, _, tr', s', hr, hb, hp, hseq, he, fun h => hstart (h 2 {} hacc (fun hm => ?_))⟩
  obtain ⟨sqe, hsqe, hl⟩ := hm.2 1 (by decide) (by decide)
  simp [hlast sqe hsqe] at hl

theorem blocked_chain_stalls_ring_nop : ∃ tr tr' j, .accept 2 {} ∈ tr' ∧ .start 2 ∉ tr' ∧
    (StartsOthers tr tr' j ↔ ∀ i sqe, .accept i sqe ∈ tr' → Earlier (tr ++ tr') j i) := by
  obtain ⟨tr, s, tr', s', hr, hb, hp, -, he, hacc, hstart, -⟩ := nop_submitted_behind
  obtain ⟨j, -, hiff⟩ := blocked_chain_stalls_ring hr hb hp he
  exact ⟨tr, tr', j, hacc, hstart, hiff⟩

end SlipstreamIO.Engine
