import SlipstreamIO.Conservation
import SlipstreamIO.LiveOps
import SlipstreamIO.PosixWrites

/-! The backends of `engine_posix.c` keep the contract of a backend: every run of the machine is a run
of the engine over one, as long as the worker does not take the op a CANCEL_ALL has its saved
pointer in. -/
namespace SlipstreamIO.Engine

open ThreadedList Runs IndexedBag

/-- The events of the core. -/
def coreEvents (ev : List PosixEvent) : List Event :=
  ev.filterMap fun e => match e with
    | .core e => some e
    | _ => none

@[simp] theorem coreEvents_nil : coreEvents [] = [] := rfl

@[simp] theorem coreEvents_append (ev ev' : List PosixEvent) :
    coreEvents (ev ++ ev') = coreEvents ev ++ coreEvents ev' := List.filterMap_append

@[simp] theorem coreEvents_core (ev : List Event) : coreEvents (ev.map .core) = ev := by
  unfold coreEvents
  rw [List.filterMap_map]
  exact List.filterMap_some

/-- The lists of the ring are in order. -/
def Core.Sound (s : Core) : Prop :=
  ∃ a free backlog queue batch, a.WellFormed ∧ Rep s a free backlog queue batch

section Sound
variable {s s' : Core} {l : CoreLabel} {x : Slot} {ev : List Event} {P : Slot → EngOp → Prop}

theorem Core.Sound.step (h : s.Sound) (hk : Keeps s l) (hs : s.step l = some s') : s'.Sound := by
  obtain ⟨a, free, backlog, queue, batch, hw, hr⟩ := h
  obtain ⟨a', free', backlog', queue', batch', given, hstep, hr', -⟩ := core_step_simulated hr hw hk hs
  obtain ⟨-, rfl⟩ | ⟨act, -, hact⟩ := hstep
  · exact ⟨_, _, _, _, _, hw, hr'⟩
  · exact ⟨_, _, _, _, _, hact.wellFormed hw, hr'⟩

theorem Core.Sound.run (h : s.Sound) (hr : Run coreMachine Keeps s ev s') : s'.Sound :=
  hr.invariant (fun _ s => s.Sound) h fun _ _ _ _ _ h hk hs => h.step hk hs

theorem Core.Sound.others (h : s.Sound) (hk : Keeps s l) (hs : s.step l = some s')
    (hw : ∀ r, l ≠ .write r) (hx : s.has x) (hne : l.releases ≠ some x) :
    s'.ring.opPool x = s.ring.opPool x := by
  obtain ⟨a, free, backlog, queue, batch, -, hr⟩ := h
  exact hr.others hk hs hw hx hne

/-- What is inside execute is not with the backend yet. -/
theorem Core.Sound.executing (h : s.Sound) (hx : s.pc.executing = some x) : s.hands x = .none := by
  obtain ⟨a, free, backlog, queue, batch, -, hr⟩ := h
  cases hh : s.hands x with
  | none => rfl
  | held => cases hr.placed.exclusive (show s.At _ x .running from hx) (show s.At _ x .held from hh)
  | off res =>
    cases hr.placed.exclusive (show s.At _ x .running from hx) (show s.At _ x (.off res) from hh)

theorem has_at {queued : List Slot} (hx : s.has x) : ∃ st, s.At queued x st := by
  obtain hh | hx := hx
  · cases hc : s.hands x with
    | none => exact absurd hc hh
    | held => exact ⟨.held, hc⟩
    | off res => exact ⟨.off res, hc⟩
  · exact ⟨.running, hx⟩

theorem Core.Sound.live_engine (h : s.Sound) (hP : OfOp P) (hl : s.ring.toVault.Live P)
    (he : l.isEngine = true) (hs : s.step l = some s') : s'.ring.toVault.Live P := by
  obtain ⟨a, free, backlog, queue, batch, -, hr⟩ := h
  exact hr.live_engine hP hl he hs

theorem Core.Sound.live_emit (h : s.Sound) (hl : s.ring.toVault.Live P) (u : UInt64) (res : Int32)
    (fl : UInt32) (reads : List ℕ) : (s.ring.toVault.slipEngineEmit u res fl reads).Live P := by
  obtain ⟨a, free, backlog, queue, batch, -, hr⟩ := h
  exact hr.placed.live_emit hl u res fl reads

theorem Core.Sound.emit_others (h : s.Sound) (hx : s.has x) (u : UInt64) (res : Int32) (fl : UInt32)
    (reads : List ℕ) :
    (s.ring.toVault.slipEngineEmit u res fl reads).opPool x = s.ring.opPool x := by
  obtain ⟨a, free, backlog, queue, batch, -, hr⟩ := h
  exact hr.placed.emit_others hx u res fl reads

/-- What happens to the fixed table leaves the ops and the lists alone. -/
theorem table_writes (s : Core) (l : TableLabel) : BackendWrites s (s.ring.tableStep l).1 := by
  obtain ⟨fixed, allocOff, allocLen, allocHint, heq⟩ := s.ring.tableStep_eq l
  rw [heq]
  constructor <;> intros <;> rfl

/-- The backend's own writes, and emissions. -/
def Writing (s : Core) : CoreLabel → Prop
  | .write r => BackendWrites s r
  | .emit _ _ _ _ => True
  | _ => False

theorem Writing.keeps {s : Core} {l : CoreLabel} (h : Writing s l) : Keeps s l := by
  cases l with
  | write r => exact h
  | emit u res fl reads => trivial
  | _ => exact h.elim

theorem emit_writing (s : Core) (u : UInt64) (res : Int32) (fl : UInt32) (reads : List ℕ) :
    Run coreMachine Writing s []
      { s with ring := s.ring.inVault (·.slipEngineEmit u res fl reads) } := by
  have hstep : coreMachine.step s (.emit u res fl reads) =
      some { s with ring := s.ring.inVault (·.slipEngineEmit u res fl reads) } := rfl
  have hev : coreMachine.events s (.emit u res fl reads) = [] := rfl
  have hrun : Run coreMachine Writing s ([] ++ coreMachine.events s (.emit u res fl reads)) _ :=
    Run.start.next (show Writing s (.emit u res fl reads) from trivial) hstep
  rwa [hev] at hrun

theorem emit_run (s : Core) (u : UInt64) (res : Int32) (fl : UInt32) (reads : List ℕ) :
    Run coreMachine Keeps s []
      { s with ring := s.ring.inVault (·.slipEngineEmit u res fl reads) } :=
  (emit_writing s u res fl reads).mono fun _ _ h => h.keeps

theorem Core.Sound.live_post (h : s.Sound) (hl : s.ring.toVault.Live P) {op : Slot}
    (hop : s.has op) (res : Int32) (reads : List ℕ) :
    (s.ring.toVault.slipEnginePost op res reads).Live fun x o => P x o ∧ x ≠ op := by
  obtain ⟨a, free, backlog, queue, batch, -, hr⟩ := h
  obtain ⟨st, hst⟩ := @has_at s op (queue ++ batch) hop
  exact hr.placed.live_post hst hl res reads

/-- A write of the backend keeps what holds of the ops in use, if it does for those it writes. -/
theorem Core.Sound.live_write (h : s.Sound) (hl : s.ring.toVault.Live P) {r : Ring}
    (hk : BackendWrites s r) (hP : ∀ x, s.has x → P x (s.ring.opPool x) → P x (r.opPool x)) :
    r.toVault.Live P := by
  obtain ⟨a, free, backlog, queue, batch, -, hr⟩ := h
  have hsame {y : Slot} (hy : ¬ s.has y) : r.opPool y = s.ring.opPool y := by
    apply hk.opPool y
    · intro hh
      exact hy (.inl (by simp [hh]))
    · intro hx
      exact hy (.inr hx)
  have hnext (l : List Slot) (hl : ∀ y ∈ l, ¬ s.has y) (y : Slot) (hy : y ∈ l) :
      r.next y = s.ring.next y := by
    rw [Vault.next, hsame (hl y hy)]
    rfl
  refine ⟨free, backlog, ⟨?_, ?_⟩, fun y hyf hyb => ?_⟩
  · rw [hk.opFree]
    exact hr.placed.vault.free.congr (hnext free fun y hy hhas => (hr.placed.apart hhas).1 hy)
  · rw [hk.backlogHead, hk.backlogTail]
    exact hr.placed.vault.backlog.congr (hnext backlog fun y hy hhas => (hr.placed.apart hhas).2.1 hy)
  · have hold := hl.mem hr.placed.vault hyf hyb
    by_cases hy : s.has y
    · exact hP y hy hold
    · rw [hsame hy]
      exact hold

/-- The queue stands as it did after a post of what the backend has, and after an emission. -/
theorem Core.Sound.queue_post (h : s.Sound) {op : Slot} (hop : s.has op) (res : Int32)
    (reads : List ℕ) {queue : List Slot} (hq : Threads s.ring.next s.ring.queueHead queue) :
    Threads (s.ring.toVault.slipEnginePost op res reads).next s.ring.queueHead queue := by
  obtain ⟨a, free, backlog, queue', batch, -, hr⟩ := h
  obtain rfl := threads_unique hr.placed.queueList.threads hq
  obtain ⟨st, hst⟩ := @has_at s op (queue' ++ batch) hop
  obtain ⟨free', backlog', hc⟩ := Vault.slipEnginePost_completes hr.placed.vault
    (hr.placed.nodup_with hst) hr.placed.length_le.2.1 res reads
  apply hq.congr
  intro y hy
  have hat : s.At (queue' ++ batch) y .queued := List.mem_append_left _ hy
  have hne : y ∉ [op] := by
    rw [List.mem_singleton]
    rintro rfl
    obtain hh | hx := hop
    · cases hc : s.hands y with
      | none => exact hh hc
      | held => cases hr.placed.exclusive hat (show s.At _ y .held from hc)
      | off res' => cases hr.placed.exclusive hat (show s.At _ y (.off res') from hc)
    · cases hr.placed.exclusive hat (show s.At _ y .running from hx)
  rw [Vault.next, hr.placed.untouched hc hat hne]
  rfl

theorem Core.Sound.queue_emit (h : s.Sound) (u : UInt64) (res : Int32) (fl : UInt32)
    (reads : List ℕ) {queue : List Slot} (hq : Threads s.ring.next s.ring.queueHead queue) :
    Threads (s.ring.toVault.slipEngineEmit u res fl reads).next s.ring.queueHead queue := by
  obtain ⟨a, free, backlog, queue', batch, -, hr⟩ := h
  obtain rfl := threads_unique hr.placed.queueList.threads hq
  obtain ⟨_, _, _, hc, -⟩ := Vault.slipEngineEmit_completes hr.placed.vault hr.placed.nodup
    hr.placed.length_le.2.1 u res fl reads
  apply hq.congr
  intro y hy
  have hat : s.At (queue' ++ batch) y .queued := List.mem_append_left _ hy
  rw [Vault.next, hr.placed.untouched hc hat List.not_mem_nil]
  rfl

theorem Core.Sound.queue_write (h : s.Sound) {r : Ring} (hk : BackendWrites s r) {queue : List Slot}
    (hq : Threads s.ring.next s.ring.queueHead queue) : Threads r.next r.queueHead queue := by
  obtain ⟨a, free, backlog, queue', batch, -, hr⟩ := h
  obtain rfl := threads_unique hr.placed.queueList.threads hq
  rw [hk.queueHead]
  apply hq.congr
  intro y hy
  have hat : s.At (queue' ++ batch) y .queued := List.mem_append_left _ hy
  rw [Vault.next, hk.opPool y]
  · rfl
  · intro hh
    cases hr.placed.exclusive hat (show s.At _ y .held from hh)
  · intro hx
    cases hr.placed.exclusive hat (show s.At _ y .running from hx)

/-- Inside execute and wait the only step of the engine's side is the caller's. -/
theorem engine_reads (hl : l.isEngine = true) (hs : s.step l = some s')
    (hpc : s.pc.executing ≠ none ∨ ∃ f forever done, s.pc = .wait f forever done) :
    ∃ k, l = .read k := by
  cases l with
  | read k => exact ⟨k, rfl⟩
  | enter call | takeSqe | append | queueStep target reads | post reads | settle reads | check left
  | complete reads =>
    simp only [Core.step, Core.takeSqe, Core.append, Core.queueStep, Core.post, Core.settle, Core.check,
      Core.complete] at hs
    cases hp : s.pc <;> simp [hp, Pc.executing] at hs hpc
  | write r | execDone res | execTake | execPending | cancelHeld t reads | cancelQueued p reads
  | handBack op res | waitReturn | waitFail | offFinish op res ticket | offPost op reads
  | emit u res fl reads => cases hl

/-- What the engine sends into execute comes off the queue, in a chain that holds, with nothing linked
behind it. -/
structure Begins (s s' : Core) (x : Slot) : Prop where
  idle : s.pc.executing = none
  head : s.ring.queueHead = some x
  free : s.ring.blocking = none
  blocking : s'.ring.blocking = none
  holds : s'.ring.chainFailed = .holds
  seq : (s'.ring.opPool x).seq = (s.ring.opPool x).seq
  next : s'.ring.next x = none

theorem engine_executing (hl : l.isEngine = true) (hs : s.step l = some s')
    (hx : s'.pc.executing = some x) :
    ((∃ k, l = .read k) ∧ s.pc.executing = some x) ∨
      (∃ target reads, l = .queueStep target reads) ∧ Begins s s' x := by
  by_cases hpc : s.pc.executing = none
  swap
  · obtain ⟨k, rfl⟩ := engine_reads hl hs (.inl hpc)
    cases hs
    exact .inl ⟨⟨k, rfl⟩, hx⟩
  have hafter (f : Frame) : (Core.afterQueue f).executing = none := by
    unfold Core.afterQueue
    split <;> rfl
  cases l with
  | queueStep target reads =>
    refine .inr ⟨⟨target, reads, rfl⟩, ?_⟩
    simp only [Core.step, Core.queueStep] at hs
    split at hs
    swap
    · cases hs
    split at hs
    · cases hs
      cases (hafter _).symm.trans hx
    split at hs
    · cases hs
      cases (hafter _).symm.trans hx
    next f hpcq op hop hb =>
    split at hs
    · split at hs <;> cases hs
      · cases hpc.symm.trans hx
      · cases hx
    next hholds =>
    split at hs
    · cases hs
      cases hx
    generalize (_ && _ && _ : Bool) = resolves at hs
    generalize ho : (if resolves = true then _ else _ : EngOp) = o at hs
    split at hs <;> cases hs
    · cases hx
    · cases hx
      have hpop : (s.ring.popQueue x).opPool x = { s.ring.opPool x with next := none } := by
        simp [Ring.popQueue, Vault.setNext]
      have ho' : o.next = none ∧ o.seq = (s.ring.opPool x).seq := by
        rw [← ho]
        split <;> simp [hpop]
      have hset : (((s.ring.popQueue x).inVault (·.setOp x o)).opPool x) = o := by
        simp [Ring.inVault]
      refine ⟨hpc, hop, not_not.mp hb, not_not.mp hb, not_not.mp hholds, ?_, ?_⟩
      · rw [hset, ho'.2]
      · rw [Vault.next, hset, ho'.1]
  | enter call | takeSqe | append | post reads | settle reads | check left | complete reads | read k =>
    have hnone : s'.pc.executing = none := by
      simp only [Core.step, Core.takeSqe, Core.append, Core.post, Core.settle, Core.check,
        Core.complete] at hs
      repeat' split at hs
      all_goals cases hs
      all_goals first | rfl | exact hpc | exact hafter _
    cases hnone.symm.trans hx
  | write r | execDone res | execTake | execPending | cancelHeld t reads | cancelQueued p reads
  | handBack op res | waitReturn | waitFail | offFinish op res ticket | offPost op reads
  | emit u res fl reads => cases hl

theorem engine_alone (halone : ∀ x, s.pc.executing = some x → s.ring.next x = none)
    (hl : l.isEngine = true) (hs : s.step l = some s') (hx : s'.pc.executing = some x) :
    s'.ring.next x = none := by
  obtain ⟨⟨k, rfl⟩, hexec⟩ | ⟨-, hbegins⟩ := engine_executing hl hs hx
  · cases hs
    exact halone x hexec
  · exact hbegins.next

end Sound

/-! ### Who holds what -/

/-- The op the worker runs. -/
def WorkerPc.runs : WorkerPc → List Slot
  | .running op => [op]
  | _ => []

/-- The op the worker has taken and not posted. -/
def WorkerPc.touches : WorkerPc → List Slot
  | .running op | .finished op _ => [op]
  | _ => []

/-- The op the submitter has in hand inside the backend, and the backend nowhere else. -/
def BackPc.own : BackPc → List Slot
  | .cancelTaken _ t _ => [t]
  | .retrying op _ => [op]
  | _ => []

/-- The op a cancel has taken out of the worker queue. -/
def BackPc.unlinked : BackPc → List Slot
  | .cancelTaken _ t _ => [t]
  | _ => []

/-- `be->wait` is called. -/
def Core.waits (s : Core) : Prop := ∃ f forever done, s.pc = .wait f forever done

namespace Posix

/-- What the backend holds, where `wq` is the worker queue. -/
def holders (s : Posix) (wq : List Slot) : List Slot :=
  s.core.ring.waiting ++ s.away ++ wq ++ s.worker.runs ++ s.back.own

/-- The ready ops are parked ones, each once. -/
def Readies (s : Posix) (ready : List Slot) : Prop :=
  s.core.waits ∧ ready.Nodup ∧ ∀ x ∈ ready, x ∈ s.core.ring.waiting

/-- The cancel inside execute names none of these, and has taken an op only if it takes them all. -/
def Searched (s : Posix) (l : List Slot) (count : ℕ) : Prop :=
  ∃ c, s.core.pc.executing = some c ∧ (s.core.ring.opPool c).sqe.opcode.cancels = true ∧
    (∀ x ∈ l, cancelNames (s.core.ring.opPool c).sqe (s.core.ring.opPool x).sqe = false) ∧
    (cancelAll (s.core.ring.opPool c).sqe = true ∨ count = 0)

/-- The op inside execute, as a cancel, names this one. -/
def Names (s : Posix) (t : Slot) : Prop :=
  ∃ c, s.core.pc.executing = some c ∧
    cancelNames (s.core.ring.opPool c).sqe (s.core.ring.opPool t).sqe = true

/-- The cancel inside execute takes one op, and has taken it. -/
def FoundOne (s : Posix) (count : ℕ) : Prop :=
  ∃ c, s.core.pc.executing = some c ∧ (s.core.ring.opPool c).sqe.opcode.cancels = true ∧
    cancelAll (s.core.ring.opPool c).sqe = false ∧ count = 1

/-- Beside the cancel and the ops it has taken, the pool has room for what it can still find. -/
def Room (s : Posix) (wq : List Slot) (count : ℕ) : Prop :=
  ∃ queue, Threads s.core.ring.next s.core.ring.queueHead queue ∧
    s.core.ring.waiting.length + queue.length + wq.length + count < s.core.ring.opPoolN

/-- Where the submitter stands in the backend goes with where it stands in enter; a saved pointer lies
in the list it is a pointer into, and the cancel names nothing of what it has searched. -/
def Fits (s : Posix) (wq : List Slot) : Prop :=
  match s.back with
  | .core => True
  | .cancelWaiting i count => s.Room wq count ∧ s.Searched (s.core.ring.waiting.take i) count
  | .cancelQueue p count => s.Room wq count ∧ s.Searched s.core.ring.waiting count ∧
      ∃ queue, Threads s.core.ring.next s.core.ring.queueHead queue ∧
        (p = .head ∨ ∃ x ∈ queue, p = .nextOf x)
  | .cancelLock p count => s.Room wq count ∧
      ∃ pre suf, wq = pre ++ suf ∧ p = Link.after pre ∧ s.Searched (s.core.ring.waiting ++ pre) count
  | .cancelTaken p t count => s.Room wq (count + 1) ∧ s.Names t ∧
      ∃ pre suf, wq = pre ++ suf ∧ p = Link.after pre ∧ s.Searched (s.core.ring.waiting ++ pre) count
  | .cancelAnswer count => s.Room wq count ∧
      (s.Searched (s.core.ring.waiting ++ wq) count ∨ s.FoundOne count)
  | .draining ready | .finishing ready | .retrying _ ready => s.Readies ready

/-- An op in use has no F_MORE for its own CQE, and is marked for a ticket only while it is with the
worker. -/
def Marks (s : Posix) (wq : List Slot) (x : Slot) (o : EngOp) : Prop :=
  o.cqeFlags &&& ioringCqeFMore = 0 ∧
    (o.stallsQueue = true → x ∈ wq ++ s.worker.touches ++ s.back.unlinked)

/-- The backend's lists are in order, and the ghost hands tell what it holds. -/
structure Holds (s : Posix) (wq : List Slot) : Prop where
  queues : s.core.ring.Queues wq
  bagged : s.core.ring.Bagged
  places : ∀ x, (s.holders wq).count x = if s.core.hands x = .held then 1 else 0
  off : ∀ x res, s.core.hands x = .off res ↔ s.worker = .finished x res
  marked : ∀ x ∈ wq ++ s.worker.runs, (s.core.ring.opPool x).stallsQueue = s.core.ring.linked x
  single : ∀ x ∈ wq ++ s.worker.touches ++ s.away ++ s.back.unlinked,
    (s.core.ring.opPool x).multishot = false
  live : s.core.ring.toVault.Live (s.Marks wq)
  alone : ∀ x, s.core.pc.executing = some x → s.core.ring.next x = none

/-- And the submitter is where it can be. -/
structure Inv (s : Posix) (wq : List Slot) : Prop extends Holds s wq where
  fits : s.Fits wq

/-- The step is one of the core, or more, and the backend is in order behind it. -/
def Goes (s : Posix) (p : List PosixEvent × Posix) : Prop :=
  Run coreMachine Keeps s.core (coreEvents p.1) p.2.core ∧ ∃ wq, p.2.Inv wq

end Posix

section Posix
variable {s s' : Posix} {wq wq' : List Slot} {ev : List PosixEvent} {p q : List PosixEvent × Posix}
  {l : CoreLabel} {b : BackPc} {x op : Slot} {r : Ring}

theorem marks_ofOp (s : Posix) (wq : List Slot) : OfOp (s.Marks wq) where
  new _ _ _ _ := ⟨UInt32.zero_and, nofun⟩
  relink _ _ _ _ h := h

theorem Posix.inCore_eq (h : s.inCore l b = some p) :
    ∃ c, s.core.step l = some c ∧ p.1 = (s.core.events l).map .core ∧
      p.2 = { s with core := c, back := b } := by
  obtain ⟨c, hc, rfl⟩ := Option.map_eq_some_iff.mp h
  exact ⟨c, hc, rfl, rfl⟩

theorem Posix.inCore_run (hk : Keeps s.core l) (h : s.inCore l b = some p) :
    Run coreMachine Keeps s.core (coreEvents p.1) p.2.core := by
  obtain ⟨c, hc, hev, hp⟩ := s.inCore_eq h
  rw [hev, coreEvents_core, hp]
  exact Run.start.next hk hc

theorem Posix.andThen_eq {x : Posix.Out} {f : Posix → Posix.Out} (h : Posix.andThen x f = some p) :
    ∃ q t, x = some q ∧ f q.2 = some t ∧ p = (q.1 ++ t.1, t.2) := by
  obtain ⟨q, hq, h⟩ := Option.bind_eq_some_iff.mp h
  obtain ⟨t, ht, rfl⟩ := Option.map_eq_some_iff.mp h
  exact ⟨q, t, hq, ht, rfl⟩

/-- The backend's own write is a step of the core that reports nothing. -/
theorem Posix.setRing_writing (hk : BackendWrites s.core r) :
    Run coreMachine Writing s.core [] (s.setRing r).core := by
  have hstep : Run coreMachine Writing s.core ([] ++ s.core.events (.write r)) (s.setRing r).core :=
    Run.start.next (show Writing s.core (.write r) from hk) rfl
  simpa [Core.events] using hstep

theorem Posix.setRing_run (hk : BackendWrites s.core r) :
    Run coreMachine Keeps s.core [] (s.setRing r).core :=
  (setRing_writing hk).mono fun _ _ h => h.keeps

theorem Ring.Relinks.backend {own : Slot → Prop} {c : Core} (h : Ring.Relinks own c.ring r)
    (hown : ∀ x, own x → c.hands x = .held ∨ c.pc.executing = some x) : BackendWrites c r where
  opPool x hh hx := h.others x fun ho => (hown x ho).elim hh hx
  sqe x := by rw [h.alike x]
  seq x := by rw [h.alike x]
  opPoolN := congrArg (·.opPoolN) h.core
  opFree := congrArg (·.opFree) h.core
  cqEntries := congrArg (·.cqEntries) h.core
  cq := congrArg (·.cq) h.core
  backlogHead := congrArg (·.backlogHead) h.core
  backlogTail := congrArg (·.backlogTail) h.core
  queueHead := congrArg (·.queueHead) h.core
  queueTail := congrArg (·.queueTail) h.core
  chainFailed := congrArg (·.chainFailed) h.core
  blocking := congrArg (·.blocking) h.core
  blockedDone := congrArg (·.blockedDone) h.core
  blockedFailed := congrArg (·.blockedFailed) h.core

section Search
variable {l' searched : List Slot} {count : ℕ}

theorem Posix.Searched.cancelling (h : s.Searched searched count) : s.core.cancelling := by
  obtain ⟨c, hc, hcode, -⟩ := h
  exact ⟨c, hc, hcode⟩

theorem Posix.Searched.mono (h : s.Searched searched count) (hl : ∀ x ∈ l', x ∈ searched) :
    s.Searched l' count := by
  obtain ⟨c, hc, hcode, hnone, hall⟩ := h
  exact ⟨c, hc, hcode, fun x hx => hnone x (hl x hx), hall⟩

/-- What was searched stays searched. -/
theorem Posix.Searched.keep (h : s.Searched searched count) (hpc : s'.core.pc = s.core.pc)
    (hsqe : ∀ x, s.core.pc.executing = some x ∨ x ∈ searched →
      (s'.core.ring.opPool x).sqe = (s.core.ring.opPool x).sqe) : s'.Searched searched count := by
  obtain ⟨c, hc, hcode, hnone, hall⟩ := h
  have hsame := hsqe c (.inl hc)
  refine ⟨c, by rw [hpc, hc], by rw [hsame, hcode], fun x hx => ?_, by rw [hsame]; exact hall⟩
  rw [hsame, hsqe x (.inr hx)]
  exact hnone x hx

/-- There is room when nothing is added. -/
theorem Posix.Room.keep (h : s.Room wq count)
    (hq : ∀ queue, Threads s.core.ring.next s.core.ring.queueHead queue →
      Threads s'.core.ring.next s'.core.ring.queueHead queue)
    (hw : s'.core.ring.waiting.length ≤ s.core.ring.waiting.length) (hwq : wq'.length ≤ wq.length)
    (hn : s'.core.ring.opPoolN = s.core.ring.opPoolN) : s'.Room wq' count := by
  obtain ⟨queue, hqueue, hlt⟩ := h
  exact ⟨queue, hq queue hqueue, by omega⟩

theorem Posix.FoundOne.keep (h : s.FoundOne count) (hpc : s'.core.pc = s.core.pc)
    (hsqe : ∀ x, s.core.pc.executing = some x →
      (s'.core.ring.opPool x).sqe = (s.core.ring.opPool x).sqe) : s'.FoundOne count := by
  obtain ⟨c, hc, hcode, hone⟩ := h
  exact ⟨c, by rw [hpc, hc], by rw [hsqe c hc, hcode], by rw [hsqe c hc]; exact hone⟩

/-- An op the cancel does not name is searched, too. -/
theorem Posix.Searched.append {c : Slot} (h : s.Searched searched count)
    (hc : s.core.pc.executing = some c)
    (hl : ∀ x ∈ l', cancelNames (s.core.ring.opPool c).sqe (s.core.ring.opPool x).sqe = false) :
    s.Searched (searched ++ l') count := by
  obtain ⟨c', hc', hcode, hnone, hall⟩ := h
  cases hc.symm.trans hc'
  exact ⟨c, hc, hcode, fun x hx => (List.mem_append.mp hx).elim (hnone x) (hl x), hall⟩

theorem Posix.FoundOne.cancelling (h : s.FoundOne count) : s.core.cancelling := by
  obtain ⟨c, hc, hcode, -⟩ := h
  exact ⟨c, hc, hcode⟩

end Search

/-- Where the submitter stands in the backend still fits. -/
theorem Posix.Fits.keep (h : s.Fits wq) (hb : s'.back = s.back) (hpc : s'.core.pc = s.core.pc)
    (hsqe : ∀ x, s.core.pc.executing = some x ∨ x ∈ s.holders wq →
      (s'.core.ring.opPool x).sqe = (s.core.ring.opPool x).sqe)
    (hq : ∀ queue, Threads s.core.ring.next s.core.ring.queueHead queue →
      Threads s'.core.ring.next s'.core.ring.queueHead queue)
    (hw : s'.core.ring.waiting = s.core.ring.waiting)
    (hn : s'.core.ring.opPoolN = s.core.ring.opPoolN) : s'.Fits wq := by
  have hsearched {l : List Slot} {count : ℕ} (hl : ∀ x ∈ l, x ∈ s.core.ring.waiting ++ wq)
      (h : s.Searched l count) : s'.Searched l count :=
    h.keep hpc fun x hx => hsqe x (hx.imp_right fun hx => by
      have hmem := hl x hx
      simp only [holders, List.mem_append] at hmem ⊢
      tauto)
  have hpointer {p : Link Slot} {count : ℕ} : (∃ pre suf, wq = pre ++ suf ∧ p = Link.after pre ∧
      s.Searched (s.core.ring.waiting ++ pre) count) → ∃ pre suf, wq = pre ++ suf ∧
        p = Link.after pre ∧ s'.Searched (s.core.ring.waiting ++ pre) count := by
    rintro ⟨pre, suf, hwq, hp, hs⟩
    refine ⟨pre, suf, hwq, hp, hsearched (fun x hx => ?_) hs⟩
    simp only [hwq, List.mem_append] at hx ⊢
    tauto
  have hready {ready : List Slot} : s.Readies ready → s'.Readies ready := by
    rintro ⟨⟨f, forever, done, hwait⟩, hnd, hmem⟩
    exact ⟨⟨f, forever, done, hpc ▸ hwait⟩, hnd, hw ▸ hmem⟩
  have hroom {count : ℕ} (h : s.Room wq count) : s'.Room wq count :=
    h.keep hq (by rw [hw]) (Nat.le_refl _) hn
  unfold Posix.Fits at h ⊢
  rw [hb, hw]
  cases hback : s.back with
  | core => trivial
  | cancelWaiting i count =>
    rw [hback] at h
    exact ⟨hroom h.1, hsearched (fun x hx => List.mem_append_left _ (List.mem_of_mem_take hx)) h.2⟩
  | cancelQueue p count =>
    rw [hback] at h
    obtain ⟨hr, hs, queue, hthreads, hp⟩ := h
    exact ⟨hroom hr, hsearched (fun x hx => List.mem_append_left _ hx) hs, queue, hq queue hthreads, hp⟩
  | cancelLock p count =>
    rw [hback] at h
    exact ⟨hroom h.1, hpointer h.2⟩
  | cancelTaken p t count =>
    rw [hback] at h
    obtain ⟨hr, ⟨c, hc, hname⟩, hs⟩ := h
    refine ⟨hroom hr, ⟨c, by rw [hpc, hc], ?_⟩, hpointer hs⟩
    have ht : t ∈ s.holders wq := List.mem_append_right _ (by simp [hback, BackPc.own])
    rw [hsqe c (.inl hc), hsqe t (.inr ht)]
    exact hname
  | cancelAnswer count =>
    rw [hback] at h
    refine ⟨hroom h.1, h.2.imp (hsearched fun _ hx => hx) fun hone => ?_⟩
    exact hone.keep hpc fun x hx => hsqe x (.inl hx)
  | draining ready | finishing ready | retrying op ready =>
    rw [hback] at h
    exact hready h

theorem Posix.Fits.busy (h : s.Fits wq) (hb : s.back ≠ .core) :
    s.core.pc.executing ≠ none ∨ s.core.waits := by
  have hcancel : s.core.cancelling → s.core.pc.executing ≠ none := by
    rintro ⟨c, hc, -⟩
    simp [hc]
  unfold Posix.Fits at h
  cases hback : s.back with
  | core => exact absurd hback hb
  | cancelWaiting i count =>
    rw [hback] at h
    exact .inl (hcancel h.2.cancelling)
  | cancelQueue p count =>
    rw [hback] at h
    exact .inl (hcancel h.2.1.cancelling)
  | cancelLock p count =>
    rw [hback] at h
    obtain ⟨-, _, _, _, _, hs⟩ := h
    exact .inl (hcancel hs.cancelling)
  | cancelTaken p t count =>
    rw [hback] at h
    obtain ⟨-, -, _, _, _, _, hs⟩ := h
    exact .inl (hcancel hs.cancelling)
  | cancelAnswer count =>
    rw [hback] at h
    exact .inl (hcancel (h.2.elim Searched.cancelling FoundOne.cancelling))
  | draining ready | finishing ready | retrying op ready =>
    rw [hback] at h
    exact .inr h.1

namespace Posix.Holds

theorem held (h : s.Holds wq) (x : Slot) : s.core.hands x = .held ↔ x ∈ s.holders wq := by
  have hp := h.places x
  rw [← List.count_pos_iff]
  split at hp
  · next hh => exact iff_of_true hh (by omega)
  · next hh => exact iff_of_false hh (by omega)

theorem nodup (h : s.Holds wq) : (s.holders wq).Nodup := by
  rw [List.nodup_iff_count_le_one]
  intro x
  have hp := h.places x
  split at hp <;> omega

/-- What is known of the ops with the worker stays known of those that stay as they were. -/
theorem known (h : s.Holds wq) {l : List Slot} (hl : ∀ x ∈ l, x ∈ wq ++ s.worker.runs)
    (hpool : ∀ x ∈ l, (r.opPool x).stallsQueue = (s.core.ring.opPool x).stallsQueue ∧
      (r.opPool x).sqe = (s.core.ring.opPool x).sqe) :
    ∀ x ∈ l, (r.opPool x).stallsQueue = r.linked x := by
  intro x hx
  obtain ⟨hstalls, hsqe⟩ := hpool x hx
  rw [Ring.linked, hstalls, hsqe]
  exact h.marked x (hl x hx)

theorem known_single (h : s.Holds wq) {l : List Slot}
    (hl : ∀ x ∈ l, x ∈ wq ++ s.worker.touches ++ s.away ++ s.back.unlinked)
    (hpool : ∀ x ∈ l, (r.opPool x).sqe = (s.core.ring.opPool x).sqe) :
    ∀ x ∈ l, (r.opPool x).multishot = false := by
  intro x hx
  rw [← h.single x (hl x hx)]
  unfold EngOp.multishot
  rw [hpool x hx]

/-- What the worker has and what a cancel has taken from it is with the backend. -/
theorem has_single (h : s.Holds wq) {x : Slot}
    (hx : x ∈ wq ++ s.worker.touches ++ s.away ++ s.back.unlinked) : s.core.hands x ≠ .none := by
  have hheld (hm : x ∈ s.holders wq) : s.core.hands x ≠ .none := by
    rw [(h.held x).mpr hm]
    nofun
  simp only [List.mem_append] at hx
  obtain ((hx | hx) | hx) | hx := hx
  · exact hheld (by simp [holders, hx])
  · cases hw : s.worker with
    | idle | posted => simp [hw, WorkerPc.touches] at hx
    | running y =>
      simp only [hw, WorkerPc.touches] at hx
      exact hheld (by simp only [holders, hw, WorkerPc.runs, List.mem_append]; tauto)
    | finished y res =>
      simp only [hw, WorkerPc.touches, List.mem_singleton] at hx
      rw [hx, (h.off y res).mpr hw]
      nofun
  · exact hheld (by simp [holders, hx])
  · apply hheld
    cases hb : s.back with
    | cancelTaken p t count =>
      simp only [hb, BackPc.unlinked] at hx
      simp only [holders, hb, BackPc.own, List.mem_append]
      tauto
    | _ => simp [hb, BackPc.unlinked] at hx

end Posix.Holds

theorem BackPc.unlinked_of_own (h : b.own = []) : b.unlinked = [] := by
  cases b with
  | cancelTaken p t count => cases h
  | _ => rfl

namespace Posix.Inv

/-- A step that leaves the backend and what it holds alone. -/
theorem rest (h : s.Inv wq) (hb : s.core.ring.SameBackend s'.core.ring)
    (hh : s'.core.hands = s.core.hands) (hw : s'.worker = s.worker) (ha : s'.away = s.away)
    (hown : s'.back.own = s.back.own) (hunl : s'.back.unlinked = s.back.unlinked)
    (hpool : ∀ x, s.core.hands x ≠ .none → x ∉ s.back.own →
      s'.core.ring.opPool x = s.core.ring.opPool x)
    (hsqe : ∀ x ∈ s.back.own, (s'.core.ring.opPool x).sqe = (s.core.ring.opPool x).sqe)
    (hlive : s'.core.ring.toVault.Live (s.Marks wq))
    (halone : ∀ x, s'.core.pc.executing = some x → s'.core.ring.next x = none)
    (hfits : s'.Fits wq) : s'.Inv wq := by
  have hholders : s'.holders wq = s.holders wq := by
    unfold holders
    rw [hb.waiting, ha, hw, hown]
  have hmem {x : Slot} (hx : x ∈ s.core.ring.waiting ++ s.away ++ wq ++ s.worker.runs) :
      s'.core.ring.opPool x = s.core.ring.opPool x := by
    apply hpool x
    · rw [(h.held x).mpr (List.mem_append_left _ hx)]
      nofun
    · intro ho
      exact (List.nodup_append.mp h.nodup).2.2 x hx x ho rfl
  refine ⟨⟨h.queues.congr hb.wqHead hb.wqTail fun x hx => hmem (by simp [hx]), ?_, ?_, ?_, ?_, ?_, ?_,
    halone⟩, hfits⟩
  · intro i x hi
    rw [hb.waiting] at hi
    show (s'.core.ring.opPool x).waitSlot = i
    rw [hmem (by simp [List.mem_of_getElem? hi])]
    exact h.bagged i x hi
  · rw [hholders, hh]
    exact h.places
  · rw [hh, hw]
    exact h.off
  · rw [hw]
    apply h.known (fun x hx => hx)
    intro x hx
    rw [hmem (by simp only [List.mem_append] at hx ⊢; tauto)]
    exact ⟨rfl, rfl⟩
  · rw [hw, ha, hunl]
    apply h.known_single (fun x hx => hx)
    intro x hx
    by_cases ho : x ∈ s.back.own
    · exact hsqe x ho
    · rw [hpool x (h.has_single hx) ho]
  · have hmarks : s'.Marks wq = s.Marks wq := by
      unfold Marks
      rw [hw, hunl]
    rw [hmarks]
    exact hlive

/-- A step of the core after which the submitter is where it was in the backend, or at a place that
fits and holds no op of its own. -/
theorem engine (h : s.Inv wq) (hg : s.core.Sound) (hl : l.isEngine = true)
    (hs : s.engineStep l = some p) : s.Goes p := by
  unfold engineStep at hs
  rw [if_pos hl] at hs
  obtain ⟨q, t, hq, ht, rfl⟩ := andThen_eq hs
  have hk : Keeps s.core l := by
    cases l <;> trivial
  obtain ⟨c, hc, hev, hq2⟩ := inCore_eq hq
  have ht2 : t.2 = q.2 ∧ coreEvents t.1 = [] := by
    cases l with
    | settle reads =>
      dsimp only at ht
      split at ht <;> cases ht <;> exact ⟨rfl, rfl⟩
    | _ => cases ht; exact ⟨rfl, rfl⟩
  refine ⟨?_, wq, ?_⟩
  · have hrun := inCore_run hk hq
    rw [coreEvents_append, ht2.2, List.append_nil, ht2.1]
    exact hrun
  · show t.2.Inv wq
    obtain ⟨hback, hhands⟩ := engine_sameBackend hl hc
    have hothers (x : Slot) (hx : s.core.has x) : c.ring.opPool x = s.core.ring.opPool x :=
      hg.others hk hc (fun r hr => by rw [hr] at hl; cases hl) hx
        (by cases l <;> first | (cases hl; done) | nofun)
    rw [ht2.1, hq2]
    refine h.rest hback hhands rfl rfl rfl rfl ?_ ?_ (hg.live_engine (marks_ofOp s wq) h.live hl hc) ?_ ?_
    · intro x hx _
      exact hothers x (.inl hx)
    · intro x hx
      have hheld : s.core.hands x = .held := (h.held x).mpr (List.mem_append_right _ hx)
      show (c.ring.opPool x).sqe = _
      rw [hothers x (.inl (by simp [hheld]))]
    · intro x hx
      exact engine_alone h.alone hl hc hx
    · by_cases hb : s.back = .core
      · unfold Fits
        rw [hb]
        trivial
      · obtain ⟨k, rfl⟩ := engine_reads hl hc (h.fits.busy hb)
        cases hc
        exact h.fits.keep rfl rfl (fun _ _ => rfl) (fun _ hq => hq) rfl rfl

/-- The op the submitter tries: inside execute, or a ready one. -/
def Tries (s : Posix) (op : Slot) : Prop := s.core.pc.executing = some op ∨ op ∈ s.back.own

theorem has_of_tries (h : s.Inv wq) (hop : Tries s op) :
    s.core.hands op = .held ∨ s.core.pc.executing = some op := by
  obtain hx | ho := hop
  · exact .inr hx
  · exact .inl ((h.held op).mpr (List.mem_append_right _ ho))

/-- An emission on the ring. -/
theorem emit (h : s.Inv wq) (hg : s.core.Sound) (u : UInt64) (res : Int32) (fl : UInt32)
    (reads : List ℕ) : (s.setRing (s.core.ring.inVault (·.slipEngineEmit u res fl reads))).Inv wq := by
  have hothers (x : Slot) (hx : s.core.has x) :
      (s.core.ring.toVault.slipEngineEmit u res fl reads).opPool x = s.core.ring.opPool x :=
    hg.emit_others hx u res fl reads
  have hhas (x : Slot) (hx : s.core.pc.executing = some x ∨ x ∈ s.holders wq) : s.core.has x := by
    refine hx.symm.imp_left fun hm => ?_
    simp [(h.held x).mpr hm]
  refine h.rest ⟨rfl, rfl, rfl, rfl⟩ rfl rfl rfl rfl rfl (fun x hx _ => hothers x (.inl hx))
    (fun x hx => ?_) (hg.live_emit h.live u res fl reads) (fun x hx => ?_) ?_
  · exact congrArg EngOp.sqe (hothers x (hhas x (.inr (List.mem_append_right _ hx))))
  · show (s.core.ring.toVault.slipEngineEmit u res fl reads).next x = none
    rw [Vault.next, hothers x (.inr hx)]
    exact h.alone x hx
  · exact h.fits.keep rfl rfl (fun x hx => congrArg EngOp.sqe (hothers x (hhas x hx)))
      (fun queue hq => hg.queue_emit u res fl reads hq) rfl (slipEngineEmit_opPoolN _ _ _ _ _)

/-- The try leaves its op as a turn does. -/
theorem setOp (h : s.Inv wq) (hg : s.core.Sound) (hop : Tries s op) {o : EngOp}
    (ho : (s.core.ring.opPool op).Tried o) :
    BackendWrites s.core (s.core.ring.inVault (·.setOp op o)) ∧
      (s.setRing (s.core.ring.inVault (·.setOp op o))).Inv wq := by
  have hhas := h.has_of_tries hop
  have hset (x : Slot) : (s.core.ring.inVault (·.setOp op o)).opPool x =
      if x = op then o else s.core.ring.opPool x := rfl
  have hk : BackendWrites s.core (s.core.ring.inVault (·.setOp op o)) := by
    refine ⟨fun x hh hx => ?_, fun x => ?_, fun x => ?_, rfl, rfl, rfl, rfl, rfl, rfl, rfl, rfl, rfl, rfl,
      rfl, rfl⟩
    · rw [hset, if_neg]
      rintro rfl
      exact hhas.elim hh hx
    · rw [hset]
      split
      · next he => rw [he, ho.sqe]
      · rfl
    · rw [hset]
      split
      · next he => rw [he, ho.seq]
      · rfl
  refine ⟨hk, h.rest ⟨rfl, rfl, rfl, rfl⟩ rfl rfl rfl rfl rfl (fun x hx hxo => ?_) (fun x _ => hk.sqe x) ?_
    (fun x hx => ?_) ?_⟩
  · apply if_neg
    rintro rfl
    obtain hexec | hown := hop
    · exact hx (hg.executing hexec)
    · exact hxo hown
  · apply hg.live_write h.live hk
    intro x hx hm
    rw [hset]
    split
    · next he =>
      subst he
      refine ⟨?_, fun hst => hm.2 (ho.stallsQueue ▸ hst)⟩
      obtain hfl | ⟨bid, hfl⟩ := ho.cqeFlags
      · rw [hfl]
        exact hm.1
      · rw [hfl]
        exact EngOp.bufferFlags_final _ bid
    · exact hm
  · show (s.core.ring.inVault (·.setOp op o)).next x = none
    rw [Vault.next, hset]
    split
    · next he =>
      subst he
      rw [ho.next]
      exact h.alone x hx
    · exact h.alone x hx
  · exact h.fits.keep rfl rfl (fun x _ => hk.sqe x) (fun queue hq => hg.queue_write hk hq) rfl rfl

/-- One turn of a try. -/
theorem turn (h : s.Inv wq) (hg : s.core.Sound) (hop : Tries s op) (a : OsAnswer)
    (reads : List ℕ) : ∃ r, (s.turn op a reads).2 = s.setRing r ∧
      Run coreMachine Writing s.core (coreEvents (s.turn op a reads).1) (s.setRing r).core ∧
      (s.setRing r).Inv wq ∧ r.opPool op = ((s.core.ring.opPool op).slipPosixTry a).op := by
  have htried := ((s.core.ring.opPool op).slipPosixTry_turn a).tried
  have hab (e : ℕ → Cqe) : coreEvents (s.about op (fun i => .emits i (e i))) = [] := by
    unfold about
    split <;> rfl
  unfold Posix.turn
  dsimp only
  split
  · next res flags _ =>
    generalize hu : (s.core.ring.opPool op).sqe.userData = u
    have hemit := h.emit hg u res flags reads
    have hrun := emit_writing s.core u res flags reads
    have hsame : (s.core.ring.inVault (·.slipEngineEmit u res flags reads)).opPool op =
        s.core.ring.opPool op := by
      have hhas : s.core.has op := (h.has_of_tries hop).imp_left fun hh => by simp [hh]
      exact hg.emit_others hhas u res flags reads
    have ht : ((s.core.ring.inVault (·.slipEngineEmit u res flags reads)).opPool op).Tried
        ((s.core.ring.opPool op).slipPosixTry a).op := by
      rw [hsame]
      exact htried
    obtain ⟨hk, hinv⟩ := hemit.setOp (hg.run (hrun.mono fun _ _ h => h.keeps)) hop ht
    refine ⟨_, rfl, ?_, hinv, if_pos rfl⟩
    rw [hab]
    exact hrun.append (setRing_writing hk)
  · obtain ⟨hk, hinv⟩ := h.setOp hg hop htried
    exact ⟨_, rfl, setRing_writing hk, hinv, if_pos rfl⟩

/-- An op that is tried is in no list of the backend. -/
theorem outside (h : s.Inv wq) (hg : s.core.Sound) (hop : Tries s op) :
    op ∉ s.core.ring.waiting ∧ op ∉ s.away ∧ op ∉ wq ∧ op ∉ s.worker.runs := by
  have hp := h.places op
  simp only [holders, List.count_append] at hp
  simp only [← List.count_eq_zero]
  obtain hexec | hown := hop
  · rw [hg.executing hexec, if_neg nofun] at hp
    omega
  · have hpos := List.count_pos_iff.mpr hown
    split at hp <;> omega

theorem park_writes (h : s.Inv wq) (hop : Tries s op) {armed ok : Bool}
    {links : List (Slot × Option Slot)} (hp : s.core.ring.park op armed links = (r, ok)) :
    BackendWrites s.core r := by
  apply (park_spec hp).1.backend
  intro x hx
  obtain rfl | hx := List.mem_cons.mp hx
  · exact h.has_of_tries hop
  · exact .inl ((h.held x).mpr (by simp [holders, hx]))

/-- The op is parked, or refused; in either case it was in no list before. -/
theorem parks (h : s.Inv wq) (hg : s.core.Sound) (hop : Tries s op)
    (hself : ∀ x ∈ s.back.own, x = op) {armed ok : Bool} {links : List (Slot × Option Slot)}
    (hp : s.core.ring.park op armed links = (r, ok)) (hv : s'.core.ring.toVault = r.toVault)
    (hb : r.SameBackend s'.core.ring) (hw : s'.worker = s.worker) (ha : s'.away = s.away)
    (hown : s'.back.own = if ok then [] else s.back.own) (hunl : s'.back.unlinked = s.back.unlinked)
    (hh : ∀ x, s'.core.hands x = if ok = true ∧ x = op then .held else s.core.hands x)
    (halone : ∀ x, s'.core.pc.executing = some x → s'.core.ring.next x = none)
    (hfits : s'.Fits wq) : s'.Inv wq := by
  obtain ⟨hwait, haway, hwq, hruns⟩ := h.outside hg hop
  obtain ⟨hlink, hqh, hqt, hwaiting, hslot⟩ := park_spec hp
  have hpool (x : Slot) : s'.core.ring.opPool x = r.opPool x := congrArg (·.opPool x) hv
  have hsame {x : Slot} (hx : x ≠ op) (hxw : x ∉ s.core.ring.waiting) :
      s'.core.ring.opPool x = s.core.ring.opPool x := by
    rw [hpool]
    exact hlink.others x (by simp [hx, hxw])
  have hcount (x : Slot) : (s'.holders wq).count x =
      (s.core.ring.waiting.count x + if ok = true ∧ x = op then 1 else 0) + s.away.count x +
        wq.count x + s.worker.runs.count x + if ok then 0 else s.back.own.count x := by
    simp only [holders, List.count_append, hb.waiting, hwaiting, ha, hw, hown]
    cases ok with
    | false => simp
    | true =>
      by_cases hx : x = op
      · subst hx
        simp
      · have hnone : [op].count x = 0 := List.count_eq_zero.mpr (by simpa using hx)
        simp [hx, hnone]
  have halike (x : Slot) : (s'.core.ring.opPool x).stallsQueue = (s.core.ring.opPool x).stallsQueue ∧
      (s'.core.ring.opPool x).sqe = (s.core.ring.opPool x).sqe := by
    rw [hpool, hlink.alike x]
    exact ⟨rfl, rfl⟩
  refine ⟨⟨?_, ?_, fun x => ?_, fun x res => ?_, ?_, ?_, ?_, halone⟩, hfits⟩
  · apply h.queues.congr (hb.wqHead.trans hqh) (hb.wqTail.trans hqt)
    intro x hx
    have hp := h.places x
    have hpos := List.count_pos_iff.mpr hx
    simp only [holders, List.count_append] at hp
    apply hsame
    · rintro rfl
      exact hwq hx
    · rw [← List.count_eq_zero]
      split at hp <;> omega
  · intro i x hi
    rw [hb.waiting] at hi
    show (s'.core.ring.opPool x).waitSlot = i
    rw [hpool]
    exact park_bagged h.bagged hwait hp i x hi
  · rw [hcount, hh]
    have hplace := h.places x
    simp only [holders, List.count_append] at hplace
    by_cases hx : x = op
    · subst hx
      simp only [← List.count_eq_zero] at hwait haway hwq hruns
      cases ok with
      | false => simpa using hplace
      | true =>
        simp only [hwait, haway, hwq, hruns, and_self, if_true]
    · have hown0 : ok = true → s.back.own.count x = 0 := fun _ =>
        List.count_eq_zero.mpr fun hm => hx (hself x hm)
      simp only [hx, and_false, if_false]
      cases ok with
      | false => simpa using hplace
      | true =>
        have := hown0 rfl
        simp only [if_true]
        omega
  · rw [hw, ← h.off x res, hh]
    split
    · next hx =>
      obtain ⟨-, rfl⟩ := hx
      obtain hheld | hexec := h.has_of_tries hop
      · simp [hheld]
      · simp [hg.executing hexec]
    · rfl
  · rw [hw]
    exact h.known (fun x hx => hx) fun x _ => halike x
  · rw [hw, ha, hunl]
    exact h.known_single (fun x hx => hx) fun x _ => (halike x).2
  · rw [hv]
    unfold Marks
    rw [hw, hunl]
    apply hg.live_write h.live (h.park_writes hop hp)
    intro x hx hm
    rw [hlink.alike x]
    exact hm

/-- After a step that writes nothing the submitter is back in the engine. -/
theorem leaves (h : s.Inv wq) {c : Core} (hv : c.ring.toVault = s.core.ring.toVault)
    (hb : s.core.ring.SameBackend c.ring) (hh : c.hands = s.core.hands)
    (he : c.pc.executing = none) (hown : s.back.own = []) :
    Posix.Inv { s with core := c, back := .core } wq := by
  have hpool (x : Slot) : c.ring.opPool x = s.core.ring.opPool x := congrArg (·.opPool x) hv
  have hunl : s.back.unlinked = [] := BackPc.unlinked_of_own hown
  refine h.rest hb hh rfl rfl hown.symm hunl.symm (fun x _ _ => hpool x) (fun x _ => ?_) ?_ ?_ ?_
  · show (c.ring.opPool x).sqe = _
    rw [hpool]
  · show c.ring.toVault.Live _
    rw [hv]
    exact h.live
  · intro x hx
    cases he.symm.trans hx
  · trivial

theorem goes_after (hrun : Run coreMachine Keeps s.core (coreEvents q.1) q.2.core)
    (ht : q.2.Goes p) : s.Goes (q.1 ++ p.1, p.2) := by
  refine ⟨?_, ht.2⟩
  rw [coreEvents_append]
  exact hrun.append ht.1

theorem goes_quiet (h : s'.Inv wq) (hc : s'.core = s.core) (hs : s'.quiet = some p) : s.Goes p := by
  cases hs
  refine ⟨?_, wq, h⟩
  rw [hc]
  exact .start

section Execute
variable {f : Frame} {linked : Bool} {armed : Bool} {links : List (Slot × Option Slot)}

theorem execDone (h : s.Inv wq) (hpc : s.core.pc = .exec f op linked false) (hown : s.back.own = [])
    {res : Int32} (hs : s.inCore (.execDone res) .core = some p) : s.Goes p := by
  refine ⟨inCore_run (show Keeps s.core (.execDone res) from trivial) hs, wq, ?_⟩
  obtain ⟨c, hc, -, hp⟩ := inCore_eq hs
  simp only [Core.step, Core.execDone, hpc] at hc
  cases hc
  rw [hp]
  exact h.leaves rfl ⟨rfl, rfl, rfl, rfl⟩ rfl rfl hown

/-- The op is taken and the ring written: what the core does. -/
theorem takeOp_eq (hpc : s.core.pc = .exec f op linked false) (hs : s.takeOp op linked r = some p) :
    ∃ seq, p = ([], { s with
      core := { s.core.setHand op .held with ring := r, pc := .exec f op linked true }
      back := .core
      blockSeq := seq }) := by
  obtain ⟨c, hc, hev, hp⟩ := inCore_eq hs
  simp only [Core.step, Core.execTake, setRing, hpc] at hc
  cases hc
  exact ⟨_, Prod.ext hev hp⟩

theorem takeOp_run (hpc : s.core.pc = .exec f op linked false) (hk : BackendWrites s.core r) :
    Run coreMachine Keeps s.core []
      { s.core.setHand op .held with ring := r, pc := .exec f op linked true } := by
  have hwrite : Run coreMachine Keeps s.core ([] ++ coreMachine.events s.core (.write r))
      { s.core with ring := r } := Run.start.next (show Keeps s.core (.write r) from hk) rfl
  have hstep : coreMachine.step { s.core with ring := r } .execTake =
      some { s.core.setHand op .held with ring := r, pc := .exec f op linked true } := by
    simp [coreMachine, Core.step, Core.execTake, hpc, Core.setHand]
  exact hwrite.next (show Keeps _ .execTake from trivial) hstep

theorem pending_eq {s : Posix} (hpc : s.core.pc = .exec f op linked true)
    (hs : s.inCore .execPending b = some p) :
    p = ([], { s with
      core := { s.core with
        ring := { s.core.ring with blocking := if linked then some op else s.core.ring.blocking }
        pc := .queue f }
      back := b }) := by
  obtain ⟨c, hc, hev, hp⟩ := inCore_eq hs
  simp only [Core.step, Core.execPending, hpc] at hc
  cases hc
  exact Prod.ext hev hp

/-- Taken and pending at once. -/
theorem takes_pending (hpc : s.core.pc = .exec f op linked false) (hk : BackendWrites s.core r)
    (hs : andThen (s.takeOp op linked r) (·.inCore .execPending .core) = some p) :
    Run coreMachine Keeps s.core (coreEvents p.1) p.2.core ∧
      ∃ seq, p.2 = { s with
        core := { s.core.setHand op .held with
          ring := { r with blocking := if linked then some op else r.blocking }
          pc := .queue f }
        back := .core
        blockSeq := seq } := by
  obtain ⟨q, t, hq, ht, rfl⟩ := andThen_eq hs
  obtain ⟨seq, rfl⟩ := takeOp_eq hpc hq
  have hrun := inCore_run (show Keeps _ .execPending from trivial) ht
  obtain rfl := pending_eq rfl ht
  exact ⟨(takeOp_run hpc hk).append hrun, seq, rfl⟩

theorem executes_park (h : s.Inv wq) (hg : s.core.Sound) (hback : s.back = .core)
    (hpc : s.core.pc = .exec f op linked false) (hp : s.core.ring.park op armed links = (r, true))
    (hs : andThen (s.takeOp op linked r) (·.inCore .execPending .core) = some p) : s.Goes p := by
  have hop : Tries s op := .inl (by rw [hpc]; rfl)
  obtain ⟨hrun, seq, hp2⟩ := takes_pending hpc (h.park_writes hop hp) hs
  refine ⟨hrun, wq, ?_⟩
  rw [hp2]
  have hself : ∀ x ∈ s.back.own, x = op := by
    rw [hback]
    exact fun x hx => absurd hx List.not_mem_nil
  refine h.parks hg hop hself hp rfl ⟨rfl, rfl, rfl, rfl⟩ rfl rfl rfl ?_ (fun x => ?_) (fun x hx => ?_) trivial
  · rw [hback]
  · simp [Core.setHand]
  · cases hx

/-- The op goes to a place of the backend's own. -/
theorem executes_away (h : s.Inv wq) (hg : s.core.Sound) (hback : s.back = .core)
    (hpc : s.core.pc = .exec f op linked false) (hm : (s.core.ring.opPool op).multishot = false)
    (hs : andThen (Posix.takeOp { s with away := s.away ++ [op] } op linked s.core.ring)
      (·.inCore .execPending .core) = some p) : s.Goes p := by
  have hexec : s.core.pc.executing = some op := by rw [hpc]; rfl
  have hnone := hg.executing hexec
  have hnone' : Ring.Relinks (fun _ => False) s.core.ring s.core.ring := .refl _
  have hsame : BackendWrites s.core s.core.ring := hnone'.backend fun _ hx => hx.elim
  obtain ⟨hrun, seq, hp2⟩ := takes_pending (s := { s with away := s.away ++ [op] }) hpc hsame hs
  refine ⟨hrun, wq, ?_⟩
  rw [hp2]
  refine ⟨⟨h.queues, h.bagged, fun x => ?_, fun x res => ?_, h.marked, ?_, ?_, fun x hx => ?_⟩, trivial⟩
  · have hplace := h.places x
    simp only [holders, List.count_append, hback, BackPc.own, Core.setHand] at hplace ⊢
    by_cases hx : x = op
    · subst hx
      rw [hnone, if_neg (by decide)] at hplace
      simp only [List.count_singleton_self, if_true]
      omega
    · have hzero : [op].count x = 0 := List.count_eq_zero.mpr (by simpa using hx)
      simpa [hx, hzero] using hplace
  · show (s.core.setHand op .held).hands x = .off res ↔ _
    rw [← h.off x res]
    simp only [Core.setHand]
    split
    · next hx => simp [hx, hnone]
    · rfl
  · intro x hx
    simp only [BackPc.unlinked, List.append_nil, List.mem_append, List.mem_singleton] at hx
    show (s.core.ring.opPool x).multishot = false
    by_cases hxo : x = op
    · rw [hxo]
      exact hm
    · apply h.single x
      simp only [List.mem_append]
      tauto
  · have hmarks := h.live
    unfold Marks at hmarks ⊢
    rw [hback] at hmarks
    exact hmarks
  · cases hx

/-- The worker queue gets an op that is in no list of the backend. -/
theorem file_writes (h : s.Inv wq) (hg : s.core.Sound) (hexec : s.core.pc.executing = some op) :
    BackendWrites s.core (s.core.ring.slipPosixHandToWorker op) := by
  have hwq := (h.outside hg (.inl hexec)).2.2.1
  obtain ⟨-, -, hcore, hothers, hpool⟩ :=
    handToWorker_spec (r := s.core.ring) h.queues hwq (h.alone op hexec)
  refine ⟨fun x hh hx => ?_, fun x => by rw [hpool x], fun x => by rw [hpool x],
    congrArg (·.opPoolN) hcore, congrArg (·.opFree) hcore, congrArg (·.cqEntries) hcore,
    congrArg (·.cq) hcore, congrArg (·.backlogHead) hcore, congrArg (·.backlogTail) hcore,
    congrArg (·.queueHead) hcore, congrArg (·.queueTail) hcore, congrArg (·.chainFailed) hcore,
    congrArg (·.blocking) hcore, congrArg (·.blockedDone) hcore, congrArg (·.blockedFailed) hcore⟩
  apply hothers x
  · intro hxw
    exact hh ((h.held x).mpr (by simp [holders, hxw]))
  · rintro rfl
    exact hx hexec

/-- The op goes behind the worker queue. -/
theorem executes_file (h : s.Inv wq) (hg : s.core.Sound) (hback : s.back = .core)
    (hpc : s.core.pc = .exec f op linked false) (hm : (s.core.ring.opPool op).multishot = false)
    (hs : s.takeOp op linked (s.core.ring.slipPosixHandToWorker op) = some p) : s.Goes p := by
  have hexec : s.core.pc.executing = some op := by rw [hpc]; rfl
  have hnone := hg.executing hexec
  have hop : Tries s op := .inl hexec
  obtain ⟨hwait, haway, hwq, hruns⟩ := h.outside hg hop
  obtain ⟨hq, hwaiting, -, -, hpool⟩ :=
    handToWorker_spec (r := s.core.ring) h.queues hwq (h.alone op hexec)
  have hk := h.file_writes hg hexec
  generalize hr : s.core.ring.slipPosixHandToWorker op = r at hs hk hq hwaiting hpool
  obtain ⟨seq, rfl⟩ := takeOp_eq hpc hs
  refine ⟨takeOp_run hpc hk, wq ++ [op], ?_⟩
  have hunmarked : (s.core.ring.opPool op).stallsQueue = false := by
    rw [← Bool.not_eq_true]
    intro hst
    obtain ⟨a, free, backlog, queue, batch, -, hrep⟩ := hg
    obtain ⟨hf, hb, -⟩ := hrep.placed.apart (.inr hexec)
    have hmem := (h.live.mem hrep.placed.vault hf hb).2 hst
    rw [hback] at hmem
    simp only [BackPc.unlinked, List.append_nil, List.mem_append, hwq, false_or] at hmem
    cases hw : s.worker with
    | idle | posted => simp [hw, WorkerPc.touches] at hmem
    | running x =>
      apply hruns
      simpa [hw, WorkerPc.touches, WorkerPc.runs] using hmem
    | finished x res =>
      have hoff := (h.off x res).mpr hw
      simp only [hw, WorkerPc.touches, List.mem_singleton] at hmem
      rw [← hmem, hnone] at hoff
      cases hoff
  refine ⟨⟨hq, ?_, fun x => ?_, fun x res => ?_, ?_, ?_, ?_, fun x hx => ?_⟩, trivial⟩
  · intro i x hi
    show (r.opPool x).waitSlot = i
    rw [hpool x]
    apply h.bagged i x
    rw [← hwaiting]
    exact hi
  · have hplace := h.places x
    simp only [holders, List.count_append, hback, BackPc.own, Core.setHand, hwaiting] at hplace ⊢
    by_cases hx : x = op
    · subst hx
      rw [hnone, if_neg (by decide)] at hplace
      simp only [List.count_singleton_self, if_true]
      omega
    · have hzero : [op].count x = 0 := List.count_eq_zero.mpr (by simpa using hx)
      simpa [hx, hzero] using hplace
  · show (s.core.setHand op .held).hands x = .off res ↔ _
    rw [← h.off x res]
    simp only [Core.setHand]
    split
    · next hx => simp [hx, hnone]
    · rfl
  · intro x hx
    show (r.opPool x).stallsQueue = r.linked x
    unfold Ring.linked
    rw [hpool x]
    dsimp only
    by_cases hxo : x = op
    · rw [hxo, hunmarked]
      simp [Ring.linked]
    · rw [if_neg (by simp [hxo])]
      apply h.marked x
      simp only [List.mem_append, List.mem_singleton] at hx ⊢
      tauto
  · intro x hx
    show (r.opPool x).multishot = false
    rw [hpool x]
    by_cases hxo : x = op
    · rw [hxo]
      exact hm
    · apply h.single x
      simp only [BackPc.unlinked, List.append_nil, List.mem_append, List.mem_singleton] at hx ⊢
      tauto
  · show r.toVault.Live _
    have hmore : s.core.ring.toVault.Live fun x o => o.cqeFlags &&& ioringCqeFMore = 0 ∧
        (o.stallsQueue = true → x ∈ (wq ++ [op]) ++ s.worker.touches ++ BackPc.core.unlinked) := by
      apply h.live.imp
      intro x o hmk
      refine ⟨hmk.1, fun hst => ?_⟩
      have hmem := hmk.2 hst
      rw [hback] at hmem
      simp only [List.mem_append] at hmem ⊢
      tauto
    apply hg.live_write hmore hk
    intro x hx hmk
    rw [hpool x]
    refine ⟨hmk.1, fun hst => ?_⟩
    dsimp only at hst
    split at hst
    · next hxo => simp [hxo.1]
    · exact hmk.2 hst
  · cases hx

theorem execute (h : s.Inv wq) (hg : s.core.Sound) (hback : s.back = .core) {a : OsAnswer}
    {reads : List ℕ} (hs : s.execute a armed links reads = some p) : s.Goes p := by
  unfold Posix.execute at hs
  split at hs
  swap
  · cases hs
  next f op linked hpc =>
  split at hs
  · cases hs
  obtain ⟨q, t, hq, ht, rfl⟩ := andThen_eq hs
  cases hq
  have hop : Tries s op := .inl (by rw [hpc]; rfl)
  obtain ⟨r, hr, hwriting, hinv, hpool⟩ := h.turn hg hop a reads
  have hrun := hwriting.mono fun _ _ h => h.keeps
  have hturn := (s.core.ring.opPool op).slipPosixTry_turn a
  have hg' : (s.setRing r).core.Sound := hg.run hrun
  have hmulti : ((s.core.ring.opPool op).slipPosixTry a).verdict = some .file →
      ((s.setRing r).core.ring.opPool op).multishot = false := by
    intro hv
    show (r.opPool op).multishot = false
    rw [hpool, ← hturn.file hv]
    unfold EngOp.multishot
    rw [hturn.tried.sqe]
  apply goes_after (by rw [hr]; exact hrun)
  rw [hr] at ht ⊢
  split at ht
  · exact goes_quiet hinv rfl ht
  · exact hinv.execDone hpc (by rw [show (s.setRing r).back = s.back from rfl, hback]; rfl) ht
  · dsimp only at ht
    split at ht
    · next r' hp => exact hinv.executes_park hg' hback hpc hp ht
    · next r' hp =>
      have hrun' := setRing_run (hinv.park_writes hop hp)
      have hdone := inCore_run (show Keeps _ (.execDone (-ebusy)) from trivial) ht
      obtain ⟨c, hc, -, hp2⟩ := inCore_eq ht
      simp only [Core.step, Core.execDone, setRing, hpc] at hc
      cases hc
      refine ⟨hrun'.append hdone, wq, ?_⟩
      rw [hp2]
      refine hinv.parks hg' hop ?_ hp rfl ⟨rfl, rfl, rfl, rfl⟩ rfl rfl ?_ ?_ (fun x => ?_)
        (fun x hx => ?_) trivial
      · rw [show (s.setRing r).back = s.back from rfl, hback]
        exact fun x hx => absurd hx List.not_mem_nil
      · rw [show (s.setRing r).back = s.back from rfl, hback]
        rfl
      · rw [show (s.setRing r).back = s.back from rfl, hback]
      · simp [setRing]
      · cases hx
  · next hv =>
    split at ht
    · exact hinv.executes_away hg' hback hpc (hmulti hv) ht
    · exact hinv.executes_file hg' hback hpc (hmulti hv) ht

end Execute

/-- An op leaves `waiting[]` for the submitter's own hand. -/
theorem unparks (h : s.Inv wq) (hg : s.core.Sound) (hown : s.back.own = [])
    (hop : op ∈ s.core.ring.waiting) (links : List (Slot × Option Slot))
    (hown' : b.own = [op]) (hunl' : b.unlinked = []) :
    BackendWrites s.core (s.core.ring.unpark op links) ∧
      Posix.Holds { s.setRing (s.core.ring.unpark op links) with back := b } wq := by
  obtain ⟨hlink, hqh, hqt, hwaiting, hbag⟩ := unpark_spec h.bagged hop links
  generalize s.core.ring.unpark op links = r at *
  have hk : BackendWrites s.core r := by
    apply hlink.backend
    intro x hx
    exact .inl ((h.held x).mpr (by simp [holders, hx]))
  have halike (x : Slot) : (r.opPool x).stallsQueue = (s.core.ring.opPool x).stallsQueue ∧
      (r.opPool x).sqe = (s.core.ring.opPool x).sqe := by
    rw [hlink.alike x]
    exact ⟨rfl, rfl⟩
  have hmem (x : Slot) : x ∈ r.waiting ↔ x ∈ s.core.ring.waiting ∧ x ≠ op := by
    rw [hwaiting]
    exact mem_swapRemove h.bagged (h.bagged.mem_iff.mp hop)
  have hcount (x : Slot) : s.core.ring.waiting.count x = r.waiting.count x + [op].count x := by
    rw [h.bagged.nodup.count, hbag.nodup.count]
    by_cases hx : x = op
    · subst hx
      simp [hmem, hop]
    · have hnone : [op].count x = 0 := List.count_eq_zero.mpr (by simpa using hx)
      simp [hmem, hx, hnone]
  have hdisj {x : Slot} (hx : x ∈ wq) : x ∉ s.core.ring.waiting := by
    have hplace := h.places x
    have hpos := List.count_pos_iff.mpr hx
    simp only [holders, List.count_append] at hplace
    rw [← List.count_eq_zero]
    split at hplace <;> omega
  refine ⟨hk, ?_, hbag, fun x => ?_, h.off, ?_, ?_, ?_, fun x hx => ?_⟩
  · exact Ring.Queues.congr h.queues hqh hqt fun x hx => hlink.others x (hdisj hx)
  · have hplace := h.places x
    simp only [holders, List.count_append, hown, hcount x, List.count_nil] at hplace
    show (Posix.holders _ wq).count x = if s.core.hands x = .held then 1 else 0
    rw [← hplace]
    simp only [holders, List.count_append, hown', setRing]
    omega
  · exact h.known (fun x hx => hx) fun x _ => halike x
  · refine h.known_single (fun x hx => ?_) fun x _ => (halike x).2
    simp only [hunl', List.append_nil, setRing] at hx
    exact List.mem_append_left _ hx
  · apply (hg.live_write h.live hk _).imp
    · intro x o hm
      refine ⟨hm.1, fun hst => ?_⟩
      have hmm := hm.2 hst
      rw [BackPc.unlinked_of_own hown, List.append_nil] at hmm
      exact List.mem_append_left _ hmm
    · intro x _ hm
      rw [hlink.alike x]
      exact hm
  · show r.next x = none
    rw [Vault.next, hlink.others x, ← h.alone x hx]
    · rfl
    · intro hxw
      have hheld : s.core.hands x = .held := (h.held x).mpr (by simp [holders, hxw])
      rw [hg.executing hx] at hheld
      cases hheld

end Posix.Inv

/-- A cancel takes the op the submitter has in hand. -/
theorem Posix.Holds.cancels {t : Slot} {reads : List ℕ} (h : s.Holds wq) (hg : s.core.Sound)
    (hown : s.back.own = [t])
    (hcancel : s.core.cancelling) (hb : b.own = []) (hs : s.inCore (.cancelHeld t reads) b = some p)
    (hfits : ∀ c : Core, c.pc = s.core.pc → c.ring.waiting = s.core.ring.waiting →
      (∀ x, s.core.pc.executing = some x ∨ x ∈ s.core.ring.waiting ++ wq →
        (c.ring.opPool x).sqe = (s.core.ring.opPool x).sqe) →
      (∀ queue, Threads s.core.ring.next s.core.ring.queueHead queue →
        Threads c.ring.next c.ring.queueHead queue) → c.ring.opPoolN = s.core.ring.opPoolN →
      Posix.Fits { s with core := c, back := b } wq) : s.Goes p := by
  have hheld : s.core.hands t = .held := (h.held t).mpr (by simp [holders, hown])
  have hk : Keeps s.core (.cancelHeld t reads) := ⟨hheld, hcancel⟩
  have hhas : s.core.has t := .inl (by simp [hheld])
  have hrun := inCore_run hk hs
  refine ⟨hrun, wq, ?_⟩
  obtain ⟨c, hc, -, hp⟩ := inCore_eq hs
  have hothers (x : Slot) (hx : s.core.has x) (hne : x ≠ t) :
      c.ring.opPool x = s.core.ring.opPool x := by
    apply hg.others hk hc _ hx
    · intro he
      exact hne (Option.some.inj he).symm
    · intro r hr
      cases hr
  simp only [Core.step, Core.cancelHeld] at hc
  split at hc
  swap
  · cases hc
  next f cancel linked hpc =>
  cases hc
  have hexec (x : Slot) (hx : s.core.pc.executing = some x) : x ≠ t := by
    rintro rfl
    rw [hg.executing hx] at hheld
    cases hheld
  have hback := cancelTarget_sameBackend s.core.ring t reads
  have hvault : (s.core.ring.cancelTarget t reads).toVault =
      s.core.ring.toVault.slipEnginePost t (-ecanceled) reads := by rw [cancelTarget_eq]
  have hqh : (s.core.ring.cancelTarget t reads).queueHead = s.core.ring.queueHead := by
    rw [cancelTarget_eq]
  have hn : (s.core.ring.cancelTarget t reads).opPoolN = s.core.ring.opPoolN := by
    rw [hvault]
    exact slipEnginePost_opPoolN _ _ _ _
  rw [hp]
  generalize s.core.ring.cancelTarget t reads = r at hback hvault hqh hn hothers ⊢
  have hnot : t ∉ s.core.ring.waiting ++ s.away ++ wq ++ s.worker.runs := fun ht =>
    (List.nodup_append.mp h.nodup).2.2 t ht t (by simp [hown]) rfl
  have hheldOthers {x : Slot} (hx : x ∈ s.core.ring.waiting ++ s.away ++ wq ++ s.worker.runs) :
      r.opPool x = s.core.ring.opPool x := by
    have hxh : s.core.hands x = .held := (h.held x).mpr (List.mem_append_left _ hx)
    apply hothers x (.inl (by simp [hxh]))
    rintro rfl
    exact hnot hx
  refine ⟨⟨?_, ?_, fun x => ?_, fun x res => ?_, ?_, ?_, ?_, fun x hx => ?_⟩, ?_⟩
  · show r.Queues wq
    exact h.queues.congr hback.wqHead hback.wqTail fun x hx => hheldOthers (by simp [hx])
  · intro i x hi
    rw [show r.waiting = s.core.ring.waiting from hback.waiting] at hi
    show (r.opPool x).waitSlot = i
    rw [hheldOthers (by simp [List.mem_of_getElem? hi])]
    exact h.bagged i x hi
  · have hplace := h.places x
    simp only [holders, List.count_append, hown, hb, Core.setHand, List.count_nil] at hplace ⊢
    rw [hback.waiting]
    by_cases hx : x = t
    · subst hx
      simp only [hheld, List.count_singleton_self, if_true] at hplace
      simp only [if_true, reduceCtorEq, if_false]
      omega
    · have hnone : [t].count x = 0 := List.count_eq_zero.mpr (by simpa using hx)
      simpa [hx, hnone] using hplace
  · show (s.core.setHand t .none).hands x = .off res ↔ _
    rw [← h.off x res]
    simp only [Core.setHand]
    split
    · next hx => simp [hx, hheld]
    · rfl
  · apply h.known (fun x hx => hx)
    intro x hx
    rw [hheldOthers (by simp only [List.mem_append] at hx ⊢; tauto)]
    exact ⟨rfl, rfl⟩
  · have hunl : b.unlinked = [] := BackPc.unlinked_of_own hb
    refine h.known_single (fun x hx => ?_) fun x hx => ?_
    · simp only [hunl, List.append_nil] at hx
      exact List.mem_append_left _ hx
    · simp only [hunl, List.append_nil] at hx
      rw [hothers x (.inl (h.has_single (List.mem_append_left _ hx)))]
      rintro rfl
      simp only [List.mem_append] at hx
      obtain (hx | hx) | hx := hx
      · exact hnot (by simp [hx])
      · cases hw : s.worker with
        | idle | posted => simp [hw, WorkerPc.touches] at hx
        | running y =>
          simp only [hw, WorkerPc.touches] at hx
          exact hnot (by simp [hw, WorkerPc.runs, List.mem_singleton.mp hx])
        | finished y res =>
          simp only [hw, WorkerPc.touches, List.mem_singleton] at hx
          have hoff := (h.off y res).mpr hw
          rw [← hx, hheld] at hoff
          cases hoff
      · exact hnot (by simp [hx])
  · have hlive := hg.live_post h.live hhas (-ecanceled) reads
    rw [← hvault] at hlive
    apply hlive.imp
    intro x o hm
    refine ⟨hm.1.1, fun hst => ?_⟩
    have hmm := hm.1.2 hst
    have hunl : x ∉ s.back.unlinked := by
      intro hx
      apply hm.2
      cases hbk : s.back <;> simp [hbk, BackPc.own, BackPc.unlinked] at hown hx
      rw [hx, hown]
    simp only [List.mem_append] at hmm ⊢
    tauto
  · show r.next x = none
    rw [Vault.next, hothers x (.inr hx) (hexec x hx)]
    exact h.alone x hx
  · refine hfits { s.core.setHand t .none with ring := r } rfl hback.waiting (fun x hx => ?_)
      (fun queue hq => ?_) hn
    · show (r.opPool x).sqe = _
      obtain hx | hx := hx
      · rw [hothers x (.inr hx) (hexec x hx)]
      · rw [hheldOthers (by simp only [List.mem_append] at hx ⊢; tauto)]
    · have hqueue := hg.queue_post hhas (-ecanceled) reads hq
      rw [← hvault] at hqueue
      show Threads r.next r.queueHead queue
      rw [hqh]
      exact hqueue

end Posix

end SlipstreamIO.Engine
