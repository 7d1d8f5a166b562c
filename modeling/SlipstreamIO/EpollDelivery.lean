import SlipstreamIO.ParkedGather
import Mathlib.Data.List.Pairwise

/-! What a pass of epoll hands to the retry: the ops behind the sides that were reported, each once. -/
namespace SlipstreamIO.Engine

open ThreadedList Runs IndexedBag

/-- Whether a report is about a side. -/
def EpollEvent.fired (ev : EpollEvent) : Side → Bool
  | .input => ev.events &&& epollIn ≠ 0
  | .output => ev.events &&& epollOut ≠ 0

/-- An event that reaches an op: about its descriptor, and its side or both sides. -/
def EpollEvent.reaches (ctlR : Int32) (ev : EpollEvent) (o : EngOp) : Prop :=
  o.sqe.fd = ev.fd ∧ ev.fd ≠ ctlR ∧ (ev.fired o.side = true ∨ ev.broken = true)

section Event
variable {s : Parking UInt32 EpollSet} {ready : List Slot}

/-- An event adds the parked ops it reaches. -/
theorem epollEvent_ready (ctlR : Int32) {ev : EpollEvent} (h : InStep s) (hnd : ready.Nodup)
    (hready : ∀ x ∈ ready, x ∈ s.ring.waiting ∧ (s.ring.opPool x).sqe.fd ≠ ev.fd) :
    (epollEvent ctlR s ev ready).2.Nodup ∧ ∀ x, x ∈ (epollEvent ctlR s ev ready).2 ↔
      x ∈ ready ∨ (x ∈ s.ring.waiting ∧ ev.reaches ctlR (s.ring.opPool x)) := by
  unfold epollEvent
  by_cases hctl : ev.fd = ctlR
  · rw [if_pos hctl]
    exact ⟨hnd, by simp [EpollEvent.reaches, hctl]⟩
  rw [if_neg hctl]
  cases hslot : s.st.slot 0 ev.fd true with
  | none =>
    -- a negative descriptor has no entry, and no op is parked on it
    refine ⟨hnd, fun x => ⟨Or.inl, ?_⟩⟩
    rintro (hx | ⟨hx, hfd, -⟩)
    · exact hx
    · exact absurd hfd (h.slot_none hslot hx)
  | some st =>
    have hspec := FdTable.slot_spec hslot
    have hin : (st.fds ev.fdIndex).inOps = s.st.head ev.fd.toInt.toNat .input :=
      FdTable.slot_side hslot .input
    have hout : (st.fds ev.fdIndex).outOps = s.st.head ev.fd.toInt.toNat .output :=
      FdTable.slot_side hslot .output
    dsimp only
    rw [hin, hout]
    obtain ⟨hnd₁, hmem₁⟩ := h.gather_if_spec hspec.nonneg .input
      (ev.events &&& epollIn ≠ 0 ∨ ev.broken = true) hnd
      (fun x hx => ⟨(hready x hx).1, fun hb => (hready x hx).2 hb.1⟩)
    obtain ⟨hnd₂, hmem₂⟩ := h.gather_if_spec hspec.nonneg .output
      (ev.events &&& epollOut ≠ 0 ∨ ev.broken = true) hnd₁ (by
        intro x hx
        rcases (hmem₁ x).mp hx with hx | ⟨hx, hb, -⟩
        · exact ⟨(hready x hx).1, fun hb => (hready x hx).2 hb.1⟩
        · refine ⟨hx, fun hb' => ?_⟩
          have := hb.2.symm.trans hb'.2
          cases this)
    have hall : ∀ x, x ∈ ready ∨ (x ∈ s.ring.waiting ∧ (s.ring.opPool x).behind ev.fd .input ∧
          (ev.events &&& epollIn ≠ 0 ∨ ev.broken = true)) ∨ (x ∈ s.ring.waiting ∧
          (s.ring.opPool x).behind ev.fd .output ∧ (ev.events &&& epollOut ≠ 0 ∨ ev.broken = true)) ↔
        x ∈ ready ∨ (x ∈ s.ring.waiting ∧ ev.reaches ctlR (s.ring.opPool x)) := by
      intro x
      unfold EpollEvent.reaches EngOp.behind EpollEvent.fired
      cases (s.ring.opPool x).side <;> simp [hctl]
    split
    · refine ⟨hnd₂, fun x => ?_⟩
      rw [hmem₂, hmem₁, or_assoc]
      exact hall x
    · refine ⟨hnd₂, fun x => ?_⟩
      rw [hmem₂, hmem₁, or_assoc]
      exact hall x

/-- A pass hands over the parked ops its events reach, each once. -/
theorem epollWaitReady_ready (ctlR : Int32) {evs : List EpollEvent} (h : InStep s)
    (hevs : evs.Pairwise (fun a b => a.fd ≠ b.fd)) :
    (epollWaitReady ctlR s evs).2.Nodup ∧ ∀ x, x ∈ (epollWaitReady ctlR s evs).2 ↔
      x ∈ s.ring.waiting ∧ ∃ ev ∈ evs, ev.reaches ctlR (s.ring.opPool x) := by
  have hfold : ∀ (evs : List EpollEvent) (s : Parking UInt32 EpollSet) (ready : List Slot),
      InStep s → evs.Pairwise (fun a b => a.fd ≠ b.fd) → ready.Nodup →
      (∀ x ∈ ready, x ∈ s.ring.waiting ∧ ∀ ev ∈ evs, (s.ring.opPool x).sqe.fd ≠ ev.fd) →
      (evs.foldl (fun p ev => epollEvent ctlR p.1 ev p.2) (s, ready)).2.Nodup ∧
        ∀ x, x ∈ (evs.foldl (fun p ev => epollEvent ctlR p.1 ev p.2) (s, ready)).2 ↔
          x ∈ ready ∨ (x ∈ s.ring.waiting ∧ ∃ ev ∈ evs, ev.reaches ctlR (s.ring.opPool x)) := by
    intro evs
    induction evs with
    | nil =>
      intro s ready _ _ hnd _
      exact ⟨hnd, by simp⟩
    | cons ev evs ih =>
      intro s ready h hevs hnd hready
      obtain ⟨hfirst, hrest⟩ := List.pairwise_cons.mp hevs
      obtain ⟨hnd₁, hmem₁⟩ := epollEvent_ready ctlR h hnd
        (fun x hx => ⟨(hready x hx).1, (hready x hx).2 ev List.mem_cons_self⟩)
      have hc := epollEvent_collectsOnly ctlR s ev ready
      have hsame : ∀ x, ((epollEvent ctlR s ev ready).1.ring.opPool x).sqe.fd =
          (s.ring.opPool x).sqe.fd := fun x => (hc.opPool x).1.fd
      rw [List.foldl_cons]
      obtain ⟨hnd₂, hmem₂⟩ := ih _ (epollEvent ctlR s ev ready).2 (h.collects hc) hrest hnd₁ (by
        intro x hx
        rw [hc.waiting, hsame]
        rcases (hmem₁ x).mp hx with hx | ⟨hx, hreach⟩
        · exact ⟨(hready x hx).1, fun e he => (hready x hx).2 e (List.mem_cons_of_mem _ he)⟩
        · refine ⟨hx, fun e he => ?_⟩
          rw [hreach.1]
          exact hfirst e he)
      refine ⟨hnd₂, fun x => ?_⟩
      have hreach : ∀ e : EpollEvent,
          e.reaches ctlR ((epollEvent ctlR s ev ready).1.ring.opPool x) ↔
            e.reaches ctlR (s.ring.opPool x) := by
        intro e
        unfold EpollEvent.reaches
        rw [hsame, (hc.opPool x).1.side]
      rw [hmem₂, hmem₁, hc.waiting]
      simp only [hreach, List.mem_cons, exists_eq_or_imp]
      tauto
  obtain ⟨hnd, hmem⟩ := hfold evs s [] h hevs List.nodup_nil (by simp)
  exact ⟨hnd, fun x => (hmem x).trans (by simp)⟩

end Event

/-- What a report holds for an op: a bit of what it waits for, or an error. -/
def EpollEvent.tells (ev : EpollEvent) (o : EngOp) : Prop :=
  ev.events &&& epEventsOf o.waitEvents ≠ 0 ∨ ev.broken = true

instance (ev : EpollEvent) (o : EngOp) : Decidable (ev.tells o) :=
  inferInstanceAs (Decidable (_ ∨ _))

theorem epoll_delivers_iff {ctlR : Int32} {n : ℕ} {e : UInt32} {k : EpollSet} {tr : List Empty}
    {s : Parking UInt32 EpollSet}
    (hr : Run (epollBackend ctlR).parking ParksOnce ((epollBackend ctlR).setupParking n e k) tr s)
    (hm : Mirrored s) {evs : List EpollEvent} (hevs : evs.Pairwise (fun a b => a.fd ≠ b.fd))
    {x : Slot} (hx : x ∈ s.ring.waiting) {ev : EpollEvent} (hev : ev ∈ evs)
    (hfd : (s.ring.opPool x).sqe.fd = ev.fd) :
    (ev.tells (s.ring.opPool x) → (epollWaitReady ctlR s evs).2.count x = 1) ↔
      (ev.tells (s.ring.opPool x) →
        ev.fd ≠ ctlR ∧ (ev.fired (s.ring.opPool x).side = true ∨ ev.broken = true)) := by
  have h : InStep s := ⟨parking_run_bagged (epollBackend_lawful ctlR) hr, hm.1, hm.2⟩
  obtain ⟨hnd, hmem⟩ := epollWaitReady_ready ctlR h hevs
  have hone : (epollWaitReady ctlR s evs).2.count x = 1 ↔
      ev.fd ≠ ctlR ∧ (ev.fired (s.ring.opPool x).side = true ∨ ev.broken = true) := by
    have hcount : (epollWaitReady ctlR s evs).2.count x = 1 ↔ x ∈ (epollWaitReady ctlR s evs).2 :=
      ⟨fun hc => List.count_pos_iff.mp (by omega), List.count_eq_one_of_mem hnd⟩
    rw [hcount, hmem]
    constructor
    · rintro ⟨-, ev', hev', hreach⟩
      -- the events name each descriptor once, so the one that reached the op is `ev`
      have hsame : ev' = ev := by
        by_contra hne
        have : Std.Symm (fun a b : EpollEvent => a.fd ≠ b.fd) := ⟨fun _ _ h => h.symm⟩
        exact hevs.forall hev' hev hne (hreach.1.symm.trans hfd)
      rw [← hsame]
      exact hreach.2
    · intro hcond
      exact ⟨hx, ev, hev, hfd, hcond⟩
  rw [hone]

/-- Two ops on the two sides of a descriptor, both reported. -/
theorem epoll_delivers_two : ∃ s : Parking UInt32 EpollSet, s.ring.waiting = [0, 1] ∧
    ∀ x ∈ s.ring.waiting,
      (epollWaitReady 3 s [{ fd := 5, events := epollIn ||| epollOut }]).2.count x = 1 := by
  obtain ⟨tr, s, hr, hw, hin, hout⟩ := Run.of_exec (epollBackend 3).parking
    (fun s l => ParksOnce s l ∧ ClosesIdle s l) ((epollBackend 3).setupParking 2 4 fun _ => none)
    (fun _ s => s.ring.waiting = [0, 1] ∧ ((s.ring.opPool 0).sqe.fd = 5 ∧
      (s.ring.opPool 0).waitEvents = pollIn) ∧ (s.ring.opPool 1).sqe.fd = 5 ∧
        (s.ring.opPool 1).waitEvents = pollOut)
    [.other 0 { sqe := { opcode := .recv, fd := 5 } }, .other 1 { sqe := { opcode := .send, fd := 5 } },
      .park 0 pollIn true {}, .park 1 pollOut true {}] (by decide +kernel)
  have hm : Mirrored s := by
    have h := parking_run_inStep (epollBackend_lawful 3) hr
    exact ⟨h.lists, h.fd⟩
  refine ⟨s, hw, fun x hx => ?_⟩
  have hiff := epoll_delivers_iff (hr.mono (fun _ _ h => h.1)) hm (List.pairwise_singleton _ _) hx
    (List.mem_singleton_self { fd := 5, events := epollIn ||| epollOut })
  rw [hw] at hx
  rcases List.mem_cons.mp hx with rfl | hx
  · refine (hiff hin.1).mpr (fun _ => ?_) (Or.inl ?_)
    · refine ⟨by decide, Or.inl ?_⟩
      unfold EngOp.side
      rw [hin.2]
      rfl
    · rw [hin.2]
      decide
  · rw [List.mem_singleton.mp hx] at hiff ⊢
    refine (hiff hout.1).mpr (fun _ => ?_) (Or.inl ?_)
    · refine ⟨by decide, Or.inl ?_⟩
      unfold EngOp.side
      rw [hout.2]
      rfl
    · rw [hout.2]
      decide

/-- A poll for out-of-band data alone, and a poll for both directions: the report of what they wait for
reaches neither. -/
theorem epoll_misses_reported :
    (∃ tr s, Run (epollBackend 3).parking (fun s l => ParksOnce s l)
      ((epollBackend 3).setupParking 2 4 fun _ => none) tr s ∧ Mirrored s ∧ 0 ∈ s.ring.waiting ∧
      (s.ring.opPool 0).sqe.fd = 5 ∧ EpollEvent.tells ⟨5, epollPri, none⟩ (s.ring.opPool 0) ∧
      (epollWaitReady 3 s [⟨5, epollPri, none⟩]).2.count 0 = 0) ∧
    ∃ tr s, Run (epollBackend 3).parking (fun s l => ParksOnce s l)
      ((epollBackend 3).setupParking 2 4 fun _ => none) tr s ∧ Mirrored s ∧ 0 ∈ s.ring.waiting ∧
      (s.ring.opPool 0).sqe.fd = 5 ∧ EpollEvent.tells ⟨5, epollIn, none⟩ (s.ring.opPool 0) ∧
      (epollWaitReady 3 s [⟨5, epollIn, none⟩]).2.count 0 = 0 := by
  have hpoll (we : UInt16) (ev : EpollEvent)
      (hrun : ((epollBackend 3).parking.exec (fun s l => ParksOnce s l ∧ ClosesIdle s l) []
        ((epollBackend 3).setupParking 2 4 fun _ => none)
        [.other 0 { sqe := { opcode := .pollAdd, fd := 5 } }, .park 0 we true {}]).any
        (fun p => decide (0 ∈ p.2.ring.waiting ∧ (p.2.ring.opPool 0).sqe.fd = 5 ∧
          ev.tells (p.2.ring.opPool 0) ∧ (epollWaitReady 3 p.2 [ev]).2.count 0 = 0)) = true) :
      ∃ tr s, Run (epollBackend 3).parking (fun s l => ParksOnce s l)
        ((epollBackend 3).setupParking 2 4 fun _ => none) tr s ∧ Mirrored s ∧ 0 ∈ s.ring.waiting ∧
        (s.ring.opPool 0).sqe.fd = 5 ∧ ev.tells (s.ring.opPool 0) ∧
        (epollWaitReady 3 s [ev]).2.count 0 = 0 := by
    obtain ⟨tr, s, hr, hs⟩ := Run.of_exec (epollBackend 3).parking
      (fun s l => ParksOnce s l ∧ ClosesIdle s l) ((epollBackend 3).setupParking 2 4 fun _ => none)
      (fun _ s => 0 ∈ s.ring.waiting ∧ (s.ring.opPool 0).sqe.fd = 5 ∧
        ev.tells (s.ring.opPool 0) ∧ (epollWaitReady 3 s [ev]).2.count 0 = 0) _ hrun
    have h := parking_run_inStep (epollBackend_lawful 3) hr
    exact ⟨tr, s, hr.mono (fun _ _ h => h.1), ⟨h.lists, h.fd⟩, hs⟩
  exact ⟨hpoll pollPri _ (by decide +kernel), hpoll (pollIn ||| pollOut) _ (by decide +kernel)⟩

end SlipstreamIO.Engine
