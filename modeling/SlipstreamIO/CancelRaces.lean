import SlipstreamIO.PosixSteps

/-! A cancel and the worker: what the cancel's next step reaches, and that none of it is free. -/
namespace SlipstreamIO.Engine

open ThreadedList Runs IndexedBag

/-- The op whose `next` field a link is. -/
def slotOf : Link Slot → List Slot
  | .head => []
  | .nextOf x => [x]

theorem mem_slotOf_after {x : Slot} {pre : List Slot} (hx : x ∈ slotOf (Link.after pre)) : x ∈ pre := by
  cases hlast : pre.getLast? with
  | none =>
    rw [Link.after, hlast] at hx
    exact absurd hx List.not_mem_nil
  | some y =>
    rw [Link.after, hlast] at hx
    rw [List.mem_singleton.mp hx]
    exact List.mem_of_getLast? hlast

/-- The ops the cancel's walk of the worker queue looks at, from the cell `p` to the op it takes. -/
def Ring.scanned (r : Ring) (c : Slot) : ℕ → Link Slot → List Slot
  | 0, _ => []
  | fuel + 1, p =>
    match p.read r.next r.wqHead with
    | none => []
    | some t =>
      t :: if cancelNames (r.opPool c).sqe (r.opPool t).sqe then [] else r.scanned c fuel (.nextOf t)

/-- The walk stays in the queue. -/
theorem mem_scanned {r : Ring} {c x : Slot} {pre suf : List Slot} {fuel : ℕ}
    (h : Threads r.next r.wqHead (pre ++ suf)) (hx : x ∈ r.scanned c fuel (Link.after pre)) :
    x ∈ suf := by
  induction suf generalizing pre fuel with
  | nil =>
    cases fuel with
    | zero => exact hx
    | succ fuel =>
      rw [List.append_nil] at h
      rw [Ring.scanned, h.read_after] at hx
      exact hx
  | cons t suf ih =>
    cases fuel with
    | zero => exact absurd hx List.not_mem_nil
    | succ fuel =>
      obtain ⟨p, hpre, hp, -⟩ := seg_append.mp h
      have hread : (Link.after pre).read r.next r.wqHead = some t := hpre.read_after.trans hp
      rw [Ring.scanned, hread] at hx
      rcases List.mem_cons.mp hx with rfl | hrest
      · exact List.mem_cons_self
      · apply List.mem_cons_of_mem
        -- the op in front was not the one to take, so the walk went on behind it
        split at hrest
        · exact absurd hrest List.not_mem_nil
        · rw [← link_after_concat pre t] at hrest
          exact ih (by simpa using h) hrest

/-- What is in the queue or with the backend is not free. -/
theorem Conserves.not_free {s : Core} {tr : List Event} {free backlog queue batch : List Slot} {x : Slot}
    (h : Conserves s tr free backlog queue batch) (hx : x ∈ queue ∨ 0 < s.inBackend x) : x ∉ free := by
  intro hfree
  have hplaces := h.places x
  have hpos := List.count_pos_iff.mpr hfree
  have hle : (if x < s.ring.opPoolN then 1 else 0) ≤ 1 := by split <;> omega
  rcases hx with hx | hx
  · have hqueue := List.count_pos_iff.mpr hx
    omega
  · omega

namespace Posix

/-- What the next step of the cancel inside execute looks at, unlinks or posts, and the ops whose `next`
fields it goes through to it. -/
def cancelReaches (s : Posix) : List Slot :=
  let r := s.core.ring
  match s.core.pc.executing with
  | none => []
  | some c =>
    match s.back with
    | .cancelWaiting i _ => r.waiting[i]?.toList
    | .cancelQueue p _ => slotOf p ++ (p.read r.next r.queueHead).toList
    | .cancelLock p _ => slotOf p ++ r.scanned c (r.opPoolN + 1) p
    | .cancelTaken p t _ => slotOf p ++ [t]
    | _ => []

/-- The worker queue `wq` is a list, with its tail, of exactly the ops the backend has that are not parked,
not with a place of its own for blocking ops, not taken by the worker and not cancelled; the cancel's next
step reaches nothing that is free; and every accepted SQE is completed at most once. -/
structure RacesSafely (s : Posix) (tr : List PosixEvent) (wq free backlog : List Slot) : Prop where
  freeList : Threads s.core.ring.next s.core.ring.opFree free
  backlogList : IsQueue s.core.ring.next s.core.ring.backlogHead s.core.ring.backlogTail backlog
  queue : s.core.ring.Queues wq
  nodup : wq.Nodup
  untaken : ∀ x, x ∈ wq ↔ s.core.hands x = .held ∧
    x ∉ s.core.ring.waiting ++ s.away ++ s.worker.runs ++ s.back.own
  spared : ∀ x ∈ s.cancelReaches, x ∉ free
  once : ∀ i sqe, .accept i sqe ∈ coreEvents tr → (finishes (coreEvents tr) i).length ≤ 1 ∧
    (s.core.completionsOf backlog i).length ≤ 1

variable {s : Posix} {wq free backlog queue batch : List Slot} {tr : List PosixEvent} {x : Slot}

/-- What the cancel reaches is with the backend, or in the engine's queue. -/
theorem Inv.reaches (h : s.Inv wq) (hx : x ∈ s.cancelReaches) :
    s.core.hands x = .held ∨
      ∃ queue, Threads s.core.ring.next s.core.ring.queueHead queue ∧ x ∈ queue := by
  have hheld {x : Slot} (hx : x ∈ s.holders wq) : s.core.hands x = .held ∨
      ∃ queue, Threads s.core.ring.next s.core.ring.queueHead queue ∧ x ∈ queue :=
    .inl ((h.held x).mpr hx)
  have hfits := h.fits
  unfold cancelReaches at hx
  unfold Fits at hfits
  dsimp only at hx
  split at hx
  · exact absurd hx List.not_mem_nil
  next c hc =>
  split at hx
  · next i count hback =>
    apply hheld
    have hmem : x ∈ s.core.ring.waiting := List.mem_of_getElem? (Option.mem_toList.mp hx)
    simp [holders, hmem]
  · next p count hback =>
    rw [hback] at hfits
    obtain ⟨-, -, queue, hqueue, hp⟩ := hfits
    refine .inr ⟨queue, hqueue, ?_⟩
    rcases List.mem_append.mp hx with hcell | hread
    · rcases hp with rfl | ⟨y, hy, rfl⟩
      · exact absurd hcell List.not_mem_nil
      · rwa [List.mem_singleton.mp hcell]
    · obtain ⟨pre, suf, rfl, -⟩ := hqueue.split_at_cell hp (Option.mem_toList.mp hread)
      exact List.mem_append_right _ List.mem_cons_self
  · next p count hback =>
    rw [hback] at hfits
    obtain ⟨-, pre, suf, rfl, rfl, -⟩ := hfits
    apply hheld
    rcases List.mem_append.mp hx with hcell | hscan
    · have hpre := mem_slotOf_after hcell
      simp [holders, hpre]
    · have hsuf := mem_scanned h.queues.threads hscan
      simp [holders, hsuf]
  · next p t count hback =>
    rw [hback] at hfits
    obtain ⟨-, -, pre, suf, rfl, rfl, -⟩ := hfits
    apply hheld
    rcases List.mem_append.mp hx with hcell | ht
    · have hpre := mem_slotOf_after hcell
      simp [holders, hpre]
    · rw [List.mem_singleton.mp ht]
      simp [holders, hback, BackPc.own]
  · exact absurd hx List.not_mem_nil

/-- What waits for the worker is what the backend has and no other place of it has. -/
theorem Inv.mem_wq (h : s.Inv wq) : x ∈ wq ↔ s.core.hands x = .held ∧
    x ∉ s.core.ring.waiting ++ s.away ++ s.worker.runs ++ s.back.own := by
  constructor
  · intro hx
    refine ⟨(h.held x).mpr (by simp [holders, hx]), fun hother => ?_⟩
    -- no op is at two places of the backend
    have hplace := h.places x
    have hwq := List.count_pos_iff.mpr hx
    have hother := List.count_pos_iff.mpr hother
    simp only [holders, List.count_append] at hplace hother
    split at hplace <;> omega
  · rintro ⟨hheld, hother⟩
    have hmem := (h.held x).mp hheld
    simp only [holders, List.mem_append] at hmem hother
    tauto

/-- In every run in which the worker does not take the op a CANCEL_ALL has its saved pointer in. -/
theorem cancel_races_safely {n : ℕ} {e : UInt32} {b : Bool} {k : ℕ} {hk : 0 < k}
    (hr : Run posixMachine Posix.Spares (setupPosix n e b k hk) tr s) :
    ∃ wq free backlog, s.RacesSafely tr wq free backlog := by
  obtain ⟨hrun, wq, hinv⟩ := posix_refines hr
  obtain ⟨-, free, backlog, queue, batch, hcons⟩ := core_conserves_ops hrun
  obtain ⟨a, -, -, -, -, -, hist, -⟩ :=
    core_run_refines (C := fun _ _ => True) (fun _ _ h => h) (fun _ _ _ _ _ _ _ _ _ _ _ _ => trivial) hrun
  refine ⟨wq, free, backlog, hcons.freeList, hcons.backlogList, hinv.queues,
    threads_nodup hinv.queues.threads, fun x => hinv.mem_wq, fun x hx hfree => ?_, fun i sqe hi => ?_⟩
  · rcases hinv.reaches hx with hheld | ⟨queue', hqueue', hx'⟩
    · refine hcons.not_free (.inr ?_) hfree
      simp only [Core.inBackend, Core.holds, hheld]
      exact Nat.lt_add_right _ Nat.one_pos
    · rw [threads_unique hqueue' hcons.queueList.threads] at hx'
      exact hcons.not_free (.inl hx') hfree
  · refine ⟨hist.finished_once i, ?_⟩
    rcases hcons.answers i sqe hi with ⟨hnone, -⟩ | ⟨how, -, hanswers⟩
    · rw [hnone]
      exact Nat.zero_le 1
    · exact hanswers.length_le

/-- The worker runs the first OPENAT, and a cancel has unlinked the second and not posted it yet. -/
theorem cancel_races_safely_three : ∃ tr s wq free backlog,
    Run posixMachine Posix.Spares (setupPosix 6 8 false 4 (by decide)) tr s ∧
      s.back = .cancelTaken .head 1 0 ∧ s.worker = .running 0 ∧ s.core.ring.wqHead = some 2 ∧
      s.RacesSafely tr wq free backlog := by
  obtain ⟨tr, s, hr, hback, hworker, hhead⟩ := Run.of_exec posixMachine Posix.Spares
    (setupPosix 6 8 false 4 (by decide))
    (fun _ s => s.back = .cancelTaken .head 1 0 ∧ s.worker = .running 0 ∧ s.core.ring.wqHead = some 2)
    [.engine (.enter { entries := [some { opcode := .openat, userData := 1 },
        some { opcode := .openat, userData := 9 }, some { opcode := .openat, userData := 1 },
        some { opcode := .asyncCancel, addr := 9, opFlags := ioringAsyncCancelAll }] }),
      .engine .takeSqe, .engine .takeSqe, .engine .takeSqe, .engine .takeSqe, .engine .append,
      .engine (.queueStep .own []), .tries .again false [] [], .pending, .workerTake,
      .engine (.queueStep .own []), .tries .again false [] [], .pending,
      .engine (.queueStep .own []), .tries .again false [] [], .pending,
      .engine (.queueStep .own []), .cancel [] [], .cancel [] [], .cancel [] [], .cancel [] []]
    (by decide +kernel)
  obtain ⟨wq, free, backlog, hraces⟩ := cancel_races_safely hr
  exact ⟨tr, s, wq, free, backlog, hr, hback, hworker, hhead, hraces⟩

/-- The worker takes the first OPENAT while the cancel has its saved pointer there. What the cancel then
unlinks and frees stays the worker's queue, and is completed again. -/
theorem cancel_completes_twice : ∃ tr s,
    Run posixMachine (fun _ _ => True) (setupPosix 6 8 false 4 (by decide)) tr s ∧
      ¬ ∃ wq free backlog, s.RacesSafely tr wq free backlog := by
  obtain ⟨tr, s, hr, haccept, htwice⟩ := Run.of_exec posixMachine (fun _ _ => True)
    (setupPosix 6 8 false 4 (by decide))
    (fun tr _ => .accept 2 { opcode := .openat, userData := 9 } ∈ coreEvents tr ∧
      (finishes (coreEvents tr) 2).length = 2)
    [.engine (.enter { entries := [some { opcode := .openat, userData := 1 },
        some { opcode := .openat, userData := 9 }, some { opcode := .openat, userData := 9 },
        some { opcode := .asyncCancel, addr := 9, opFlags := ioringAsyncCancelAll }] }),
      .engine .takeSqe, .engine .takeSqe, .engine .takeSqe, .engine .takeSqe, .engine .append,
      .engine (.queueStep .own []), .tries .again false [] [], .pending,
      .engine (.queueStep .own []), .tries .again false [] [], .pending,
      .engine (.queueStep .own []), .tries .again false [] [], .pending,
      .engine (.queueStep .own []), .cancel [] [], .cancel [] [], .cancel [] [], .cancel [] [],
      .cancel [] [], .workerTake, .cancel [] [], .cancel [] [], .cancel [] [], .cancel [] [],
      .workerFinish 0, .workerPost [], .workerPoke, .workerTake, .workerFinish 0, .workerPost []]
    (by decide +kernel)
  refine ⟨tr, s, hr, ?_⟩
  rintro ⟨wq, free, backlog, hraces⟩
  have honce := (hraces.once 2 _ haccept).1
  omega

end Posix

end SlipstreamIO.Engine
