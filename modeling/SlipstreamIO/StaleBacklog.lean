import SlipstreamIO.Conservation

/-! When a submit finds no op: the pool shares its slots with the backlog, and the backlog is
drained only by who posts, emits or settles. The caller makes room in the CQ without a word. -/
namespace SlipstreamIO.Engine

open ThreadedList Runs

namespace Vault

/-- Finished ops stand in the backlog although the CQ has room for them. -/
def Stale (v : Vault) : Prop := v.backlogHead ≠ none ∧ v.cqRoom = true

instance (v : Vault) : Decidable v.Stale := inferInstanceAs (Decidable (_ ∧ _))

def freeCount (v : Vault) : ℕ := (walk v.next v.opPoolN v.opFree).length

section Stale
variable {v w : Vault} {free backlog : List Slot} {op : Slot} {res : Int32} {reads : List ℕ}

theorem Stale.of_same (hb : w.backlogHead = v.backlogHead) (he : w.cqEntries = v.cqEntries)
    (hh : w.cq.head = v.cq.head) (ht : w.cq.tail = v.cq.tail) (h : w.Stale) : v.Stale := by
  refine ⟨hb ▸ h.1, ?_⟩
  have hroom := h.2
  rw [cqRoom, cqAvail, he, hh, ht] at hroom
  exact hroom

theorem callerReads_zero (v : Vault) : v.callerReads 0 = v := by
  have hhead : v.cq.head + UInt32.ofNat (min 0 v.cqAvail.toNat) = v.cq.head := by simp
  simp [callerReads]

/-- No read of the caller falls between the looks at the room. -/
def NoReads (reads : List ℕ) : Prop := ∀ k ∈ reads, k = 0

instance (reads : List ℕ) : Decidable (NoReads reads) :=
  inferInstanceAs (Decidable (∀ k ∈ reads, k = 0))

theorem NoReads.headD (h : NoReads reads) : reads.headD 0 = 0 := by
  cases reads with
  | nil => rfl
  | cons k reads => exact h k List.mem_cons_self

theorem NoReads.tail (h : NoReads reads) : NoReads reads.tail :=
  fun k hk => h k (List.mem_of_mem_tail hk)

theorem NoReads.drain (h : NoReads reads) (fuel : ℕ) (v : Vault) :
    NoReads (drainBacklogLoop fuel v reads).2 := by
  induction fuel generalizing v reads with
  | zero => exact h
  | succ fuel ih =>
    unfold drainBacklogLoop
    split
    · exact h
    · dsimp only
      split
      · exact ih h.tail _
      · exact h.tail

theorem freeCount_eq (hf : Threads v.next v.opFree free) (hn : free.length ≤ v.opPoolN) :
    v.freeCount = free.length := by
  rw [freeCount, walk_eq hf _ hn]

/-- After a drain the backlog is empty or the CQ is full. -/
theorem drain_fresh (hr : v.Rep free backlog) (hnd : (free ++ backlog).Nodup)
    (hn : backlog.length ≤ v.opPoolN) (reads : List ℕ) :
    (v.drainBacklogLocked reads).1.backlogHead = none ∨
      (v.drainBacklogLocked reads).1.cqRoom = false := by
  obtain ⟨free', backlog', hd, hstop⟩ := Completes.drain hr hnd hn reads
  rcases hstop with rfl | hroom
  · exact Or.inl hd.rep.backlog.threads
  · exact Or.inr hroom

/-- A post drains first, so unless the caller reads in the middle of it nothing stale is left. -/
theorem slipEnginePost_fresh (hr : v.Rep free backlog) (hnd : (free ++ backlog).Nodup)
    (hn : backlog.length ≤ v.opPoolN) (hreads : NoReads reads) :
    ¬ (v.slipEnginePost op res reads).Stale := by
  have hdrain := drain_fresh hr hnd hn reads
  have hrest : NoReads (v.drainBacklogLocked reads).2 := hreads.drain _ _
  unfold slipEnginePost
  dsimp only
  generalize (v.drainBacklogLocked reads).1 = w at hdrain ⊢
  rw [hrest.headD, callerReads_zero]
  intro hstale
  split at hstale
  · -- the op succeeded quietly: its slot is released, and that is all
    rcases hdrain with hb | hroom
    · exact hstale.1 hb
    · exact Bool.false_ne_true (hroom.symm.trans hstale.2)
  · split at hstale
    · next hroom =>
      rcases hdrain with hb | hfull
      · exact hstale.1 hb
      · exact Bool.false_ne_true (hfull.symm.trans hroom)
    · next hfull =>
      apply hfull
      have hroom := hstale.2
      rwa [cqRoom, cqAvail, backlogLocked_cq, backlogLocked_cqEntries] at hroom

theorem slipEngineEmit_fresh {u : UInt64} {fl : UInt32} (hr : v.Rep free backlog)
    (hnd : (free ++ backlog).Nodup) (hn : backlog.length ≤ v.opPoolN) (hreads : NoReads reads) :
    ¬ (v.slipEngineEmit u res fl reads).Stale := by
  have hdrain := drain_fresh hr hnd hn reads
  have hrest : NoReads (v.drainBacklogLocked reads).2 := hreads.drain _ _
  unfold slipEngineEmit
  dsimp only
  generalize (v.drainBacklogLocked reads).1 = w at hdrain ⊢
  rw [hrest.headD, callerReads_zero]
  intro hstale
  split at hstale
  · next hroom =>
    rcases hdrain with hb | hfull
    · exact hstale.1 hb
    · exact Bool.false_ne_true (hfull.symm.trans hroom)
  · next hfull =>
    apply hfull
    have hroom := hstale.2
    unfold opAllocLocked at hroom
    cases hf : w.opFree with
    | none =>
      rw [hf] at hroom
      exact hroom
    | some carrier =>
      rw [hf] at hroom
      dsimp only at hroom
      rw [cqRoom, cqAvail, backlogLocked_cq, backlogLocked_cqEntries] at hroom
      exact hroom

end Stale

end Vault

/-- How many of the entries need an op; an index past the array needs none. -/
def needed (entries : List (Option Sqe)) : ℕ := entries.countP Option.isSome

/-- The SQEs enter has still to take. -/
def Pc.toTake : Pc → List (Option Sqe)
  | .take _ rest _ _ _ => rest
  | _ => []

namespace Core

/-- A submission that stops for lack of an op stops with an empty backlog or a full CQ. -/
def RefusesWhenFull (s : Core) : Prop :=
  ∀ call sqe rest submitted h t, s.pc = .take call (some sqe :: rest) submitted h t →
    s.ring.opFree = none → s.ring.backlogHead = none ∨ s.ring.cqRoom = false

/-- The pool has an op for every SQE that is still to be taken, unless nothing is stale. -/
def Supplied (s : Core) : Prop := s.ring.Stale → needed s.pc.toTake ≤ s.ring.freeCount

instance (s : Core) : Decidable s.Supplied := inferInstanceAs (Decidable (_ → _))

end Core

/-- The steps in which the caller calls enter, or moves `khead` while enter may be taking SQEs. -/
def CoreLabel.callerActs : CoreLabel → Bool
  | .enter _ | .read _ => true
  | .offPost _ reads | .emit _ _ _ reads => !decide (Vault.NoReads reads)
  | _ => false

/-- The caller leaves an op for every SQE that enter has still to take, or nothing stale. -/
def Core.CallerSupplies (s : Core) (l : CoreLabel) : Prop :=
  l.callerActs = true → ∀ s', s.step l = some s' → s'.Supplied

section Step
variable {s s' : Core} {a : Chains} {free backlog queue batch : List Slot} {l : CoreLabel}

theorem Core.Supplied.refuses (h : s.Supplied) : s.RefusesWhenFull := by
  intro call sqe rest submitted bh bt hpc hfree
  by_contra hnot
  rw [not_or, Bool.not_eq_false] at hnot
  have hneed := h hnot
  -- an empty free list supplies no one, and the SQE at hand needs an op
  have hcount : s.ring.freeCount = 0 := by
    rw [Vault.freeCount, hfree]
    cases s.ring.opPoolN <;> rfl
  rw [hpc, hcount] at hneed
  simp [Pc.toTake, needed] at hneed

theorem Core.supplied_of_toTake (h : s.pc.toTake = []) : s.Supplied := by
  intro _
  rw [h]
  exact Nat.zero_le _

theorem afterQueue_toTake (f : Frame) : (Core.afterQueue f).toTake = [] := by
  unfold Core.afterQueue
  split <;> rfl

theorem queueStep_toTake {target : MsgTarget} {reads : List ℕ}
    (hs : s.queueStep target reads = some s') : s'.pc.toTake = [] := by
  unfold Core.queueStep at hs
  split at hs
  · next f hpc =>
    have hstay : s.pc.toTake = [] := by rw [hpc]; rfl
    split at hs
    · cases hs
      exact afterQueue_toTake f
    · split at hs
      · cases hs
        exact afterQueue_toTake f
      · dsimp only at hs
        repeat' split at hs
        all_goals cases hs
        all_goals first | rfl | exact hstay
  · cases hs

/-- Taking an SQE uses one op of the pool and leaves the CQ and the backlog alone. -/
theorem Rep.takeSqe_op {call : Call} {sqe : Sqe} {rest : List (Option Sqe)} {submitted : ℕ}
    {bh bt : Option Slot} {x : Slot} (hr : Rep s a (x :: free) backlog queue batch)
    (hpc : s.pc = .take call (some sqe :: rest) submitted bh bt) (hs : s.takeSqe = some s') :
    (∃ bh' bt', s'.pc = .take call rest (submitted + 1) bh' bt') ∧
      (s'.ring.Stale ↔ s.ring.Stale) ∧ s'.ring.freeCount = free.length := by
  have hlen := hr.placed.length_le.1
  have hop : s.ring.opFree = some x := hr.placed.vault.free.1
  have hfree : x ∉ free := by
    have hnd := (List.nodup_append.mp hr.placed.nodup).1
    exact (List.nodup_cons.mp hnd).1
  have htail (t : Slot) (ht : bt = some t) : t ∉ free := by
    intro hmem
    have hb : t ∈ batch :=
      List.mem_of_getLast? (hr.placed.batchList.tail.symm.trans (by rw [hpc]; exact ht))
    have hplaces := hr.placed.places t
    have hf := List.count_pos_iff.mpr (List.mem_cons_of_mem x hmem)
    have hbc := List.count_pos_iff.mpr hb
    split at hplaces <;> omega
  simp only [Core.takeSqe, hpc] at hs
  rw [show s.ring.toVault.opAllocLocked = some (x, { s.ring.toVault with
    opFree := s.ring.next x }.setOp x {}) by simp [Vault.opAllocLocked, hop]] at hs
  cases hs
  refine ⟨⟨_, _, rfl⟩, ?_, ?_⟩
  · constructor <;> intro hstale <;> apply Vault.Stale.of_same _ _ _ _ hstale <;> cases bt <;> rfl
  · -- the rest of the free list stands as it did
    have hrest := hr.placed.vault.free.2
    apply Vault.freeCount_eq
    · cases bt with
      | none =>
        apply hrest.congr
        intro y hy
        have hyx : y ≠ x := fun he => hfree (he ▸ hy)
        simp [Vault.next, Ring.inVault, hyx]
      | some t =>
        apply hrest.congr
        intro y hy
        have hyx : y ≠ x := fun he => hfree (he ▸ hy)
        have hyt : y ≠ t := fun he => htail t rfl (he ▸ hy)
        simp [Vault.next, Vault.setNext, Ring.inVault, hyx, hyt]
    · have hN := Nat.le_of_succ_le hlen
      cases bt <;> exact hN

theorem needed_some (sqe : Sqe) (rest : List (Option Sqe)) :
    needed (some sqe :: rest) = needed rest + 1 := List.countP_cons_of_pos rfl

theorem needed_none (rest : List (Option Sqe)) : needed (none :: rest) = needed rest :=
  List.countP_cons_of_neg (by simp)

/-- The loop that takes SQEs uses one op for one SQE. -/
theorem Rep.supplied_takeSqe (hr : Rep s a free backlog queue batch) (h : s.Supplied)
    (hs : s.takeSqe = some s') : s'.Supplied := by
  have hs' := hs
  unfold Core.takeSqe at hs'
  split at hs'
  swap
  · cases hs'
  next call entry rest submitted batchHead batchTail hpc =>
  cases entry with
  | none =>
    cases hs'
    intro hstale
    have hneed := h hstale
    rwa [hpc, Pc.toTake, needed_none] at hneed
  | some sqe =>
    cases free with
    | nil =>
      rw [show s.ring.toVault.opAllocLocked = none from
        (Vault.opAllocLocked_none hr.placed.vault).mpr rfl] at hs'
      cases hs'
      exact Core.supplied_of_toTake rfl
    | cons x free =>
      obtain ⟨⟨bh, bt, hpc'⟩, hstale, hcount⟩ := hr.takeSqe_op hpc hs
      intro hst
      have hneed := h (hstale.mp hst)
      have hlen := Vault.freeCount_eq hr.placed.vault.free hr.placed.length_le.1
      rw [hpc, Pc.toTake, needed_some, hlen, List.length_cons] at hneed
      rw [hpc', hcount, Pc.toTake]
      exact Nat.le_of_succ_le_succ hneed

theorem Rep.supplied_write (hr : Rep s a free backlog queue batch) (h : s.Supplied) {r : Ring}
    (hk : BackendWrites s r) : Core.Supplied { s with ring := r } := by
  have hlen := hr.placed.length_le.1
  have hcount : s.ring.freeCount = free.length := Vault.freeCount_eq hr.placed.vault.free hlen
  intro hstale
  have hold : s.ring.Stale := .of_same hk.backlogHead hk.cqEntries (by rw [hk.cq]) (by rw [hk.cq]) hstale
  -- a backend writes no op of the free list
  have hthreads : Threads r.next r.opFree free := by
    rw [hk.opFree]
    apply hr.placed.vault.free.congr
    intro x hx
    have hplaces := hr.placed.places x
    have hcx := List.count_pos_iff.mpr hx
    have hin : s.pc.inEnter.count x = 0 ∧ s.holds x = 0 := by split at hplaces <;> omega
    have hhands : s.hands x ≠ .held := by
      intro hheld
      simp [Core.holds, hheld] at hin
    have hexec : s.pc.executing ≠ some x := by
      intro hx
      simp [Pc.inEnter, hx] at hin
    exact congrArg EngOp.next (hk.opPool x hhands hexec)
  refine (h hold).trans_eq ?_
  rw [hcount, Vault.freeCount_eq hthreads (hk.opPoolN ▸ hlen)]

/-- A step that is not the caller's keeps the pool supplied. -/
theorem Rep.supplied_step (hr : Rep s a free backlog queue batch) (hk : Keeps s l)
    (hl : l.callerActs = false) (h : s.Supplied) (hs : s.step l = some s') : s'.Supplied := by
  have hnd := hr.placed.nodup
  have hlen := hr.placed.length_le.2.1
  cases l with
  | enter call | read k => cases hl
  | takeSqe => exact hr.supplied_takeSqe h hs
  | write r =>
    cases hs
    exact hr.supplied_write h hk
  | offFinish op res ticket =>
    cases hs
    unfold Core.offFinish
    split <;> exact h
  | offPost op reads =>
    have hreads : Vault.NoReads reads := by simpa [CoreLabel.callerActs] using hl
    simp only [Core.step, Core.offPost] at hs
    split at hs <;> cases hs
    exact fun hstale => absurd hstale (Vault.slipEnginePost_fresh hr.placed.vault hnd hlen hreads)
  | emit u res fl reads =>
    have hreads : Vault.NoReads reads := by simpa [CoreLabel.callerActs] using hl
    cases hs
    exact fun hstale => absurd hstale (Vault.slipEngineEmit_fresh hr.placed.vault hnd hlen hreads)
  | append =>
    simp only [Core.step, Core.append] at hs
    split at hs
    · split at hs <;> cases hs
      · exact Core.supplied_of_toTake (afterQueue_toTake _)
      · exact Core.supplied_of_toTake rfl
    · cases hs
  | queueStep target reads => exact Core.supplied_of_toTake (queueStep_toTake hs)
  | check left =>
    simp only [Core.step, Core.check] at hs
    repeat' split at hs
    all_goals cases hs
    all_goals exact Core.supplied_of_toTake rfl
  | cancelHeld t reads =>
    simp only [Core.step, Core.cancelHeld] at hs
    split at hs <;> cases hs
    next hpc => exact Core.supplied_of_toTake (by rw [Core.setHand, hpc]; rfl)
  | cancelQueued p reads =>
    simp only [Core.step, Core.cancelQueued] at hs
    split at hs <;> cases hs
    next hpc _ => exact Core.supplied_of_toTake (by rw [hpc]; rfl)
  | post reads | settle reads | complete reads | execDone res | execTake | execPending
  | handBack op res | waitReturn | waitFail =>
    simp only [Core.step, Core.post, Core.settle, Core.complete, Core.execDone, Core.execTake,
      Core.execPending, Core.handBack, Core.waitReturn, Core.waitFail] at hs
    split at hs <;> cases hs <;> exact Core.supplied_of_toTake rfl

end Step

/-- A run over a backend that keeps its contract in which the caller minds the pool. -/
def MindsPool (s : Core) (l : CoreLabel) : Prop := Keeps s l ∧ s.CallerSupplies l

/-- Every run leaves the lists of the ring in order. -/
theorem reached_rep {n : ℕ} {e : UInt32} {tr : List Event} {s : Core}
    (hr : Run coreMachine Keeps (setupCore n e) tr s) :
    ∃ a free backlog queue batch, a.WellFormed ∧ Rep s a free backlog queue batch := by
  obtain ⟨a, free, backlog, queue, batch, given, hist, hrep, -⟩ :=
    core_run_refines (C := fun _ _ => True) (fun _ _ h => h) (fun _ _ _ _ _ _ _ _ _ _ _ _ => trivial) hr
  exact ⟨a, free, backlog, queue, batch, hist.accounts.1, hrep⟩

theorem submit_stops_only_when_full {n : ℕ} {e : UInt32} {tr : List Event} {s : Core}
    (hr : Run coreMachine MindsPool (setupCore n e) tr s) : s.RefusesWhenFull := by
  apply Core.Supplied.refuses
  refine hr.invariant (fun _ s => s.Supplied) (Core.supplied_of_toTake rfl) ?_
  intro tr s l s' hr h hc hs
  obtain ⟨a, free, backlog, queue, batch, -, hrep⟩ := reached_rep (hr.mono fun _ _ h => h.1)
  cases hl : l.callerActs with
  | true => exact hc.2 hl s' hs
  | false => exact hrep.supplied_step hc.1 hl h hs

section Undisturbed
variable {n : ℕ} {e : UInt32} {tr₀ : List Event} {s s' : Core} {call : Call}

/-- Runs in which enter takes its SQEs and nobody else does anything. -/
abbrev Alone (s : Core) : List Event → Core → Prop := Run coreMachine (fun _ l => l = .takeSqe) s

/-- An undisturbed call with more SQEs than the pool has ops stops on the stale backlog. -/
theorem stops_when_lacking {entries : List (Option Sqe)} {submitted : ℕ} {bh bt : Option Slot}
    (hrun : Run coreMachine Keeps (setupCore n e) tr₀ s)
    (hpc : s.pc = .take call entries submitted bh bt) (hstale : s.ring.Stale)
    (hlack : s.ring.freeCount < needed entries) :
    ∃ tr s', Alone s tr s' ∧ ¬ s'.RefusesWhenFull := by
  induction entries generalizing s tr₀ submitted bh bt with
  | nil => exact absurd hlack (Nat.not_lt_zero _)
  | cons entry rest ih =>
    obtain ⟨a, free, backlog, queue, batch, -, hr⟩ := reached_rep hrun
    cases entry with
    | none =>
      have hstep : s.step .takeSqe = some { s with
          ring := { s.ring with sqDropped := s.ring.sqDropped + 1 }
          pc := .take call rest (submitted + 1) bh bt } := by simp [Core.step, Core.takeSqe, hpc]
      rw [needed_none] at hlack
      obtain ⟨tr, s', hrun', hstop⟩ := ih (hrun.next (show Keeps s .takeSqe from trivial) hstep) rfl
        hstale hlack
      exact ⟨_, s', hrun'.cons rfl hstep, hstop⟩
    | some sqe =>
      cases free with
      | nil =>
        refine ⟨[], s, .start, fun h => ?_⟩
        rcases h call sqe rest submitted bh bt hpc hr.placed.vault.free with hb | hroom
        · exact hstale.1 hb
        · exact Bool.false_ne_true (hroom.symm.trans hstale.2)
      | cons x free =>
        have hop : s.ring.opFree = some x := hr.placed.vault.free.1
        have hlen := Vault.freeCount_eq hr.placed.vault.free hr.placed.length_le.1
        obtain ⟨s₁, hstep⟩ : ∃ s₁, s.step .takeSqe = some s₁ := by
          simp [Core.step, Core.takeSqe, hpc, Vault.opAllocLocked, hop]
        obtain ⟨⟨bh', bt', hpc'⟩, hst, hcount⟩ := hr.takeSqe_op hpc hstep
        rw [needed_some, hlen, List.length_cons] at hlack
        have hlack' : s₁.ring.freeCount < needed rest :=
          hcount.trans_lt (Nat.lt_of_succ_lt_succ hlack)
        obtain ⟨tr, s', hrun', hstop⟩ := ih (hrun.next (show Keeps s .takeSqe from trivial) hstep)
          hpc' (hst.mpr hstale) hlack'
        exact ⟨_, s', hrun'.cons rfl hstep, hstop⟩

/-- The condition is exact for a call that nobody disturbs while it takes its SQEs. -/
theorem undisturbed_submit_iff (hrun : Run coreMachine Keeps (setupCore n e) tr₀ s)
    (hs : s.step (.enter call) = some s') :
    (∀ tr s'', Alone s' tr s'' → s''.RefusesWhenFull) ↔ s.CallerSupplies (.enter call) := by
  have hrun' := hrun.next (show Keeps s (.enter call) from trivial) hs
  have hpc : s'.pc = .take call call.entries 0 none none := by
    simp only [Core.step] at hs
    split at hs <;> cases hs
    rfl
  constructor
  · intro hall _ s₁ hs₁
    cases hs.symm.trans hs₁
    intro hstale
    by_contra hlack
    rw [hpc] at hlack
    obtain ⟨tr, s'', halone, hstop⟩ := stops_when_lacking hrun' hpc hstale (Nat.lt_of_not_le hlack)
    exact hstop (hall tr s'' halone)
  · intro hc tr s'' halone
    suffices h : s''.Supplied ∧ ∃ tr', Run coreMachine Keeps (setupCore n e) tr' s'' from h.1.refuses
    refine halone.invariant (fun _ s => s.Supplied ∧ ∃ tr', Run coreMachine Keeps (setupCore n e) tr' s)
      ⟨hc rfl s' hs, _, hrun'⟩ ?_
    intro tr s₁ l s₂ _ h hl hs₂
    subst hl
    obtain ⟨hsup, tr', hr⟩ := h
    obtain ⟨a, free, backlog, queue, batch, -, hrep⟩ := reached_rep hr
    have hk : Keeps s₁ .takeSqe := trivial
    exact ⟨hrep.supplied_step hk rfl hsup hs₂, _, hr.next hk hs₂⟩

end Undisturbed

/-- One enter with one NOP. -/
def submitNop : List CoreLabel :=
  [.enter { entries := [some {}] }, .takeSqe, .append, .queueStep .own [], .execDone 0, .post [],
    .queueStep .own []]

def submitNops (k : ℕ) : List CoreLabel := (List.replicate k submitNop).flatten

/-- Four NOPs on a ring with a CQ of two entries: two in the CQ, two in the backlog. The caller takes
the two, and its next enter takes nothing. -/
theorem submit_stops_on_empty_cq : ∃ tr s, Run coreMachine Keeps (setupCore 2 2) tr s ∧
    s.ring.cqAvail = 0 ∧ ¬ s.RefusesWhenFull := by
  obtain ⟨tr, s, hr, hpc, hfree, hstale, havail⟩ := Run.of_exec coreMachine
    (fun s l => keepsCheck s l = true) (setupCore 2 2)
    (fun _ s => s.pc = .take { entries := [some {}] } [some {}] 0 none none ∧
      s.ring.opFree = none ∧ s.ring.Stale ∧ s.ring.cqAvail = 0)
    (submitNops 4 ++ [.read 2, .enter { entries := [some {}] }]) (by decide +kernel)
  refine ⟨tr, s, hr.mono (fun _ _ h => keeps_of_check h), havail, fun h => ?_⟩
  rcases h _ _ _ _ _ _ hpc hfree with hb | hroom
  · exact hstale.1 hb
  · exact Bool.false_ne_true (hroom.symm.trans hstale.2)

/-- The same four NOPs, and the caller takes nothing: the ring is full. -/
theorem submit_stops_only_when_full_four : ∃ s : Core, s.ring.opFree = none ∧
    s.ring.backlogHead ≠ none ∧ s.ring.cqRoom = false ∧ s.RefusesWhenFull := by
  obtain ⟨tr, s, hr, hfree, hback, hroom⟩ := Run.of_exec coreMachine
    (fun s l => keepsCheck s l = true ∧ (s.step l).all (fun s' => decide s'.Supplied) = true)
    (setupCore 2 2)
    (fun _ s => s.ring.opFree = none ∧ s.ring.backlogHead ≠ none ∧ s.ring.cqRoom = false)
    (submitNops 4 ++ [.enter { entries := [some {}] }]) (by decide +kernel)
  have hr' : Run coreMachine MindsPool (setupCore 2 2) tr s := by
    apply hr.mono
    intro s l h
    refine ⟨keeps_of_check h.1, fun _ s' hs => ?_⟩
    simpa [hs] using h.2
  exact ⟨s, hfree, hback, hroom, submit_stops_only_when_full hr'⟩

end SlipstreamIO.Engine
