import SlipstreamIO.ParkedKeeps
import SlipstreamIO.ParkedGather
import Mathlib.Data.List.Nodup

/-! dispatch: a parked op has its source, a descriptor that was hit is on the chain, and the door of
the wait is open while there is something behind it. -/
namespace SlipstreamIO.Engine

open ThreadedList Runs IndexedBag

namespace DspReg
variable (reg : DspReg) (sd t : Side) (v : Bool)

@[simp] theorem setSource_source : (reg.setSource sd v).source t = if t = sd then v else reg.source t := by
  cases sd <;> cases t <;> rfl

@[simp] theorem setSource_hit : (reg.setSource sd v).hit t = reg.hit t := by
  cases sd <;> cases t <;> rfl

@[simp] theorem setSource_queued : (reg.setSource sd v).queued = reg.queued := by
  cases sd <;> rfl

@[simp] theorem setHit_source : (reg.setHit sd).source t = reg.source t := by
  cases sd <;> cases t <;> rfl

/-- A descriptor with its news answered. -/
def answered : DspReg := { reg with rdHit := false, wrHit := false, queued := false }

@[simp] theorem answered_source : reg.answered.source t = reg.source t := by
  cases t <;> rfl

@[simp] theorem answered_hit : reg.answered.hit t = false := by
  cases t <;> rfl

end DspReg

/-- The door's semaphore has one to give exactly while there was a knock, and whatever there is to
collect knocked. -/
structure Door (d : DspState) : Prop where
  chain : d.chain.Nodup
  sem : d.sem = if d.knocked then 1 else 0
  knocked : d.chain ≠ [] ∨ d.done ≠ [] → d.knocked = true

theorem Door.knock {d : DspState} (hsem : d.sem = if d.knocked then 1 else 0) (hchain : d.chain.Nodup) :
    Door d.knock := by
  unfold DspState.knock
  split
  · next hk => exact ⟨hchain, hsem, fun _ => hk⟩
  · next hk =>
    rw [if_neg hk] at hsem
    exact ⟨hchain, by simp [hsem], fun _ => rfl⟩

@[simp] theorem DspState.knock_chain (d : DspState) : d.knock.chain = d.chain := by
  unfold knock
  split <;> rfl

@[simp] theorem DspState.knock_done (d : DspState) : d.knock.done = d.done := by
  unfold knock
  split <;> rfl

/-- The side of a parked op has its source; of every descriptor, a hit put it on the chain. -/
def dispatchRegistration : Registration DspReg DspState where
  own reg waitEvents := reg.source (sideOf waitEvents) = true
  busy _ _ _ := True
  every f reg d := (reg.queued = true ↔ f ∈ d.chain) ∧ (∀ sd, reg.hit sd = true → reg.queued = true) ∧
    Door d

theorem dispatchBackend_keeps : dispatchBackend.Keeps dispatchRegistration (fun _ _ _ => True) where
  register := by
    intro e o started d ok r d' _ h hsides _ hevery
    have h : dspRegister e o started d = (ok, r, d') := h
    unfold dspRegister at h
    split at h
    · next hside =>
      cases h
      obtain ⟨we, hwe, hown⟩ := hsides _ hside
      refine ⟨fun _ => ?_, fun _ => trivial, hevery, fun _ _ h => h⟩
      have hown : DspReg.source _ (sideOf we) = true := hown
      rw [hwe] at hown
      exact hown
    · next hside =>
      cases h
      refine ⟨fun hs => ?_, fun _ => trivial, ?_, fun we hwe hown => ?_⟩
      · show DspReg.source _ o.side = true
        rw [DspReg.setSource_source, if_pos rfl]
        exact hs
      · simpa [dispatchRegistration] using hevery
      · show DspReg.source _ _ = true
        rw [DspReg.setSource_source, if_neg]
        · exact hown
        rintro hs
        rw [hs] at hwe
        exact hside hwe
  others := by
    intro e o started d ok r d' h g reg _
    have h : dspRegister e o started d = (ok, r, d') := h
    unfold dspRegister at h
    split at h <;> cases h <;> exact ⟨id, id⟩
  quit := by
    intro e sd f d
    show (∀ we, e.side (sideOf we) ≠ none → _ → DspReg.source (dspQuit e sd) (sideOf we) = true) ∧ _ ∧ _
    unfold dispatchBackend dspQuit
    dsimp only
    split
    · next hquit =>
      rw [Bool.and_eq_true, decide_eq_true_eq] at hquit
      refine ⟨fun we hwe hown => ?_, id, fun he => ?_⟩
      · rw [DspReg.setSource_source, if_neg]
        · exact hown
        rintro hs
        rw [hs] at hwe
        exact hwe hquit.1
      · simpa [dispatchRegistration] using he
    · exact ⟨fun _ _ h => h, id, id⟩
  forgotten := by
    intro f r d h
    refine ⟨h.1, fun sd hsd => ?_, h.2.2⟩
    cases sd <;> cases hsd
  closed := fun _ _ _ _ => ⟨fun _ => id, id⟩

section Hear
variable {s : Parking DspReg DspState}

theorem dspReport_regs (s : Parking DspReg DspState) (fd : ℕ) (sd : Side) (g : ℕ) :
    dispatchBackend.regOf (dspReport s fd sd) g =
      if fd < s.st.n ∧ g = fd then { (dispatchBackend.regOf s g).setHit sd with queued := true }
      else dispatchBackend.regOf s g := by
  unfold dspReport
  split
  · next hlt =>
    show ((s.st.set fd _).entry {} g).reg = _
    rw [FdTable.entry_set hlt]
    by_cases hg : g = fd
    · rw [if_pos hg, if_pos ⟨hlt, hg⟩, hg, ReadyBackend.regOf]
      show _ = { ((s.st.entry {} fd).reg).setHit sd with queued := true }
      rw [FdTable.entry_of_lt {} hlt]
    · rw [if_neg hg, if_neg (fun h => hg h.2)]
      rfl
  · next hlt => rw [if_neg (fun h => hlt h.1)]

theorem dspReport_keeps (h : Kept dispatchBackend dispatchRegistration s) (fd : ℕ) (sd : Side) :
    Kept dispatchBackend dispatchRegistration (dspReport s fd sd) := by
  have hregs := dspReport_regs s fd sd
  refine h.of_collects (dspReport_collectsOnly s fd sd) (fun x hx => ?_) (fun _ _ => trivial)
    (fun g => ?_)
  · have hown : DspReg.source _ _ = true := h.own x hx
    show DspReg.source _ _ = true
    rw [hregs]
    split
    · show DspReg.source (DspReg.setHit _ sd) _ = true
      rw [DspReg.setHit_source]
      exact hown
    · exact hown
  · obtain ⟨hqueued, hhit, hdoor⟩ := h.every g
    by_cases hlt : fd < s.st.n
    swap
    · have hval : dspReport s fd sd = s := by
        unfold dspReport
        rw [if_neg hlt]
      rw [hval]
      exact h.every g
    -- the descriptor goes on the chain unless it is there
    have hfd := (h.every fd).1
    have hreg : dispatchBackend.regOf s fd = (s.st.fds fd).reg := by
      show (s.st.entry {} fd).reg = _
      rw [FdTable.entry_of_lt {} hlt]
    have henv : (dspReport s fd sd).env = (if (s.st.fds fd).reg.queued then s.env
        else { s.env with chain := fd :: s.env.chain }).knock := by
      unfold dspReport
      rw [if_pos hlt]
    have hmem : ∀ f, f ∈ (dspReport s fd sd).env.chain ↔ f = fd ∨ f ∈ s.env.chain := by
      intro f
      rw [henv, DspState.knock_chain]
      split
      · next hq =>
        rw [← hreg] at hq
        constructor
        · exact Or.inr
        · rintro (rfl | hf)
          · exact hfd.mp hq
          · exact hf
      · exact List.mem_cons
    have hdoor' : Door (dspReport s fd sd).env := by
      rw [henv]
      split
      · exact Door.knock hdoor.sem hdoor.chain
      · next hq =>
        rw [← hreg] at hq
        exact Door.knock (d := { s.env with chain := fd :: s.env.chain }) hdoor.sem
          (List.nodup_cons.mpr ⟨fun hin => hq (hfd.mpr hin), hdoor.chain⟩)
    refine ⟨?_, ?_, hdoor'⟩
    · rw [hregs, hmem]
      split
      · next hg => simp [hg.2]
      · next hg =>
        rw [hqueued]
        constructor
        · exact Or.inr
        · rintro (hf | hf)
          · exact absurd ⟨hlt, hf⟩ hg
          · exact hf
    · intro t ht
      rw [hregs] at ht ⊢
      split
      · rfl
      · next hg =>
        rw [if_neg hg] at ht
        exact hhit t ht

/-- What changes neither the table nor the chain. -/
theorem dispatch_env_keeps (h : Kept dispatchBackend dispatchRegistration s) {d : DspState}
    (hchain : d.chain = s.env.chain) (hdoor : Door d) :
    Kept dispatchBackend dispatchRegistration { s with env := d } := by
  refine h.of_collects (collectsOnly_env s d) h.own (fun _ _ => trivial) (fun f => ?_)
  obtain ⟨hqueued, hhit, -⟩ := h.every f
  refine ⟨?_, hhit, hdoor⟩
  rw [hchain]
  exact hqueued

theorem dspHear_keeps (h : Kept dispatchBackend dispatchRegistration s) (news : List DspNews) :
    Kept dispatchBackend dispatchRegistration (dspHear s news) := by
  induction news generalizing s with
  | nil => exact h
  | cons n news ih =>
    unfold dspHear
    rw [List.foldl_cons]
    have hdoor := (h.every 0).2.2
    cases n with
    | report fd sd => exact ih (dspReport_keeps h fd sd)
    | done op res =>
      apply ih
      apply dispatch_env_keeps h
      · rw [DspState.knock_chain]
        split <;> rfl
      · split
        · exact Door.knock (d := { s.env with done := s.env.done ++ [(op, res)] }) hdoor.sem hdoor.chain
        · exact Door.knock hdoor.sem hdoor.chain
    | poke => exact ih (dispatch_env_keeps h (DspState.knock_chain _) (Door.knock hdoor.sem hdoor.chain))

end Hear

/-! ### The wait -/

/-- The walk of the chain answers a first part of it, as long as the waiters fit, and leaves the rest. -/
theorem dspChain_spec (s : Parking DspReg DspState) {chain : List ℕ} (hnd : chain.Nodup)
    (ready : List Slot) :
    ∃ pre post, chain = pre ++ post ∧
      (dspChain s chain ready).1.env = { s.env with chain := post } ∧
      (dspChain s chain ready).1.ring = s.ring ∧
      (∀ g, dispatchBackend.regOf (dspChain s chain ready).1 g =
        if g ∈ pre then (dispatchBackend.regOf s g).answered else dispatchBackend.regOf s g) ∧
      (dspChain s chain ready).2 = ready ++ pre.flatMap (fun f => dspBehind s.ring (s.st.fds f)) ∧
      (post = [] ∨ ∃ f rest, post = f :: rest ∧ s.ring.opPoolN <
        (dspChain s chain ready).2.length + (dspBehind s.ring (s.st.fds f)).length) := by
  induction chain generalizing s ready with
  | nil => exact ⟨[], [], rfl, rfl, rfl, fun g => rfl, by simp [dspChain], Or.inl rfl⟩
  | cons fd chain ih =>
    unfold dspChain
    dsimp only
    split
    · next hfull =>
      refine ⟨[], fd :: chain, rfl, rfl, rfl, fun g => rfl, by simp, Or.inr ⟨fd, chain, rfl, hfull⟩⟩
    · next hroom =>
      obtain ⟨hnot, hnd⟩ := List.nodup_cons.mp hnd
      set s₁ : Parking DspReg DspState := { s with st := s.st.set fd { s.st.fds fd with
        reg := (s.st.fds fd).reg.answered } } with hs₁
      obtain ⟨pre, post, hchain, henv, hring, hreg, hready, hpost⟩ :=
        ih s₁ hnd (ready ++ dspBehind s.ring (s.st.fds fd))
      have hfds : ∀ f, f ∈ chain → s₁.st.fds f = s.st.fds f := by
        intro f hf
        have hne : f ≠ fd := by
          rintro rfl
          exact hnot hf
        exact if_neg hne
      have hregs : ∀ g, dispatchBackend.regOf s₁ g =
          if g = fd then (dispatchBackend.regOf s g).answered else dispatchBackend.regOf s g := by
        intro g
        show ((s.st.set fd _).entry {} g).reg = _
        unfold FdTable.entry FdTable.set
        by_cases hg : g = fd
        · subst hg
          rw [if_pos rfl]
          show _ = DspReg.answered ((s.st.entry {} g).reg)
          unfold FdTable.entry
          dsimp only
          split
          · rw [if_pos rfl]
          · rfl
        · rw [if_neg hg]
          show _ = (s.st.entry {} g).reg
          unfold FdTable.entry
          dsimp only
          rw [if_neg hg]
      refine ⟨fd :: pre, post, by rw [hchain]; rfl, henv, hring, fun g => ?_, ?_, ?_⟩
      · show dispatchBackend.regOf (dspChain s₁ chain _).1 g = _
        rw [hreg, hregs]
        by_cases hg : g = fd
        · subst hg
          have hpre : g ∉ pre := fun hin => hnot (by rw [hchain]; exact List.mem_append_left _ hin)
          rw [if_neg hpre, if_pos rfl, if_pos List.mem_cons_self]
        · rw [if_neg hg]
          simp [hg]
      · show (dspChain s₁ chain _).2 = _
        rw [hready, List.flatMap_cons, List.append_assoc]
        congr 2
        apply List.flatMap_congr
        intro f hf
        rw [hfds f (by rw [hchain]; exact List.mem_append_left _ hf)]
      · rcases hpost with hpost | ⟨f, rest, hpost, hfull⟩
        · exact Or.inl hpost
        · refine Or.inr ⟨f, rest, hpost, ?_⟩
          rw [hfds f (by rw [hchain, hpost]; simp)] at hfull
          exact hfull

section Collect
variable {s : Parking DspReg DspState}

/-- The collection answers a first part of the chain. -/
theorem dspCollect_spec (hnd : s.env.chain.Nodup) : ∃ pre post, s.env.chain = pre ++ post ∧
    (dspCollect s).1.env = DspState.shut { s.env with chain := post, done := [] } ∧
    (dspCollect s).1.ring = s.ring ∧
    (∀ g, dispatchBackend.regOf (dspCollect s).1 g =
      if g ∈ pre then (dispatchBackend.regOf s g).answered else dispatchBackend.regOf s g) ∧
    (dspCollect s).2.2 = pre.flatMap (fun f => dspBehind s.ring (s.st.fds f)) ∧
    (s.env.done.length < s.ring.opPoolN → post = [] ∨ ∃ f rest, post = f :: rest ∧ s.ring.opPoolN <
      (dspCollect s).2.2.length + (dspBehind s.ring (s.st.fds f)).length) := by
  unfold dspCollect
  dsimp only
  rw [List.length_reverse]
  split
  · obtain ⟨pre, post, hchain, henv, hring, hreg, hready, hpost⟩ :=
      dspChain_spec { s with env := { s.env with done := [] } } hnd []
    refine ⟨pre, post, hchain, by rw [henv], hring, hreg, ?_, fun _ => hpost⟩
    rw [hready]
    rfl
  · next hfull =>
    exact ⟨[], s.env.chain, rfl, rfl, rfl, fun _ => rfl, rfl, fun h => absurd h hfull⟩

theorem dspCollect_keeps (h : Kept dispatchBackend dispatchRegistration s) (hsem : s.env.sem ≠ 0) :
    Kept dispatchBackend dispatchRegistration
      (dspCollect { s with env := { s.env with sem := s.env.sem - 1 } }).1 := by
  obtain ⟨-, -, hdoor⟩ := h.every 0
  set s₁ : Parking DspReg DspState := { s with env := { s.env with sem := s.env.sem - 1 } } with hs₁
  have hnd : s₁.env.chain.Nodup := hdoor.chain
  obtain ⟨pre, post, hchain, henv, -, hreg, -, -⟩ := dspCollect_spec hnd
  have hchain : s.env.chain = pre ++ post := hchain
  have hknocked : s.env.knocked = true ∧ s.env.sem = 1 := by
    have := hdoor.sem
    split at this
    · exact ⟨‹_›, this⟩
    · exact absurd this hsem
  have hc : CollectsOnly s (dspCollect s₁).1 :=
    (collectsOnly_env s _).trans (dspCollect_collectsOnly s₁)
  have hpost : post.Nodup := by
    rw [hchain] at hnd
    exact (List.nodup_append.mp (hchain ▸ hdoor.chain)).2.1
  have hshut : (dspCollect s₁).1.env.chain = post ∧ Door (dspCollect s₁).1.env := by
    rw [henv]
    unfold DspState.shut
    dsimp only
    split
    · next hempty =>
      refine ⟨rfl, hpost, ?_, fun hne => ?_⟩
      · simp [hs₁, hknocked.2]
      · rcases hne with hne | hne
        · exact absurd hempty.1 hne
        · exact absurd rfl hne
    · refine ⟨rfl, hpost, ?_, fun _ => hknocked.1⟩
      simp [hs₁, hknocked.1, hknocked.2]
  refine h.of_collects hc (fun x hx => ?_) (fun _ _ => trivial) (fun g => ?_)
  · have hown : DspReg.source _ _ = true := h.own x hx
    show DspReg.source _ _ = true
    rw [hreg]
    split
    · rw [DspReg.answered_source]
      exact hown
    · exact hown
  · obtain ⟨hqueued, hhit, -⟩ := h.every g
    refine ⟨?_, fun sd hsd => ?_, hshut.2⟩
    · rw [hreg, hshut.1]
      split
      · next hg =>
        -- an answered descriptor is not on the chain twice
        have hnot : g ∉ post := by
          intro hg'
          exact (List.nodup_append.mp (hchain ▸ hdoor.chain)).2.2 g hg g hg' rfl
        exact ⟨fun hq => (by cases hq), fun hg' => absurd hg' hnot⟩
      · next hg =>
        have hq : (dispatchBackend.regOf s g).queued = true ↔ g ∈ pre ++ post := hchain ▸ hqueued
        rw [List.mem_append] at hq
        exact hq.trans ⟨fun h => h.resolve_left hg, Or.inr⟩
    · rw [hreg] at hsd ⊢
      split
      · next hg =>
        rw [if_pos hg, DspReg.answered_hit] at hsd
        cases hsd
      · next hg =>
        rw [if_neg hg] at hsd
        exact hhit sd hsd

end Collect

theorem dispatchBackend_collects (C : Parking DspReg DspState → List DspNews → Prop) :
    Kept.Collects dispatchBackend dispatchRegistration C where
  hear := fun h _ => dspHear_keeps h _
  collect := by
    intro s news h _
    show Kept _ _ (dspWait s news).1
    have hheard := dspHear_keeps h news
    unfold dspWait
    dsimp only
    split
    · exact hheard
    · next hsem => exact dspCollect_keeps hheard hsem

/-! ### What the wait hands over -/

section Ready
variable {s : Parking DspReg DspState}

/-- The waiters of a descriptor are the parked ops behind its sides that were hit. -/
theorem InStep.behind_spec (h : InStep s) {f : ℕ} (hf : f < s.st.n) :
    (dspBehind s.ring (s.st.fds f)).Nodup ∧ ∀ x, x ∈ dspBehind s.ring (s.st.fds f) ↔
      x ∈ s.ring.waiting ∧ (s.ring.opPool x).fdIndex = f ∧
        (s.st.fds f).reg.hit (s.ring.opPool x).side = true := by
  have hwalk (sd : Side) : ∃ l, walk s.ring.next s.ring.opPoolN ((s.st.fds f).side sd) = l ∧
      l.Nodup ∧ ∀ x, x ∈ l ↔ x ∈ s.ring.waiting ∧ (s.ring.opPool x).fdIndex = f ∧
        (s.ring.opPool x).side = sd := by
    obtain ⟨l, hl, hmem⟩ := h.lists f sd
    rw [FdTable.head, if_pos hf] at hl
    have hshort := h.lists_short l (threads_nodup hl) (fun x hx => ((hmem x).mp hx).1)
    refine ⟨l, walk_eq hl _ hshort, threads_nodup hl, fun x => (hmem x).trans ?_⟩
    constructor
    · rintro ⟨hx, hxf, hs⟩
      refine ⟨hx, ?_, hs⟩
      unfold EngOp.fdIndex
      omega
    · rintro ⟨hx, hxf, hs⟩
      have hfd := h.fd x hx
      refine ⟨hx, ?_, hs⟩
      unfold EngOp.fdIndex at hxf
      omega
  obtain ⟨lin, hin, hndin, hmemin⟩ := hwalk .input
  obtain ⟨lout, hout, hndout, hmemout⟩ := hwalk .output
  unfold dspBehind
  rw [show (s.st.fds f).inOps = (s.st.fds f).side .input from rfl,
    show (s.st.fds f).outOps = (s.st.fds f).side .output from rfl, hin, hout]
  constructor
  · rw [List.nodup_append]
    refine ⟨by split <;> simp [hndin], by split <;> simp [hndout], ?_⟩
    intro x hx y hy hxy
    subst hxy
    have hx : x ∈ lin := by
      split at hx
      · exact hx
      · cases hx
    have hy : x ∈ lout := by
      split at hy
      · exact hy
      · cases hy
    have := ((hmemin x).mp hx).2.2.symm.trans ((hmemout x).mp hy).2.2
    cases this
  · intro x
    rw [List.mem_append]
    have hpick (c : Bool) (l : List Slot) : x ∈ (if c = true then l else []) ↔ c = true ∧ x ∈ l := by
      split <;> simp_all
    rw [hpick, hpick, hmemin, hmemout]
    cases hs : (s.ring.opPool x).side <;> simp [DspReg.hit] <;> tauto

/-- A descriptor on the chain has an entry, and its waiters are parked ops. -/
theorem InStep.chain_behind (h : InStep s)
    (hchained : ∀ f, (dispatchBackend.regOf s f).queued = true ↔ f ∈ s.env.chain) {f : ℕ}
    (hf : f ∈ s.env.chain) :
    (dspBehind s.ring (s.st.fds f)).Nodup ∧
      ∀ x, x ∈ dspBehind s.ring (s.st.fds f) ↔
        x ∈ s.ring.waiting ∧ (s.ring.opPool x).fdIndex = f ∧
          (dispatchBackend.regOf s f).hit (s.ring.opPool x).side = true := by
  have hq := (hchained f).mpr hf
  obtain ⟨hfn, hreg⟩ : f < s.st.n ∧ dispatchBackend.regOf s f = (s.st.fds f).reg := by
    unfold ReadyBackend.regOf FdTable.entry at hq ⊢
    split at hq
    · next hfn => exact ⟨hfn, by rw [if_pos hfn]⟩
    · cases hq
  rw [hreg]
  exact h.behind_spec hfn

/-- With room for one more completion, the wait hands over every parked op whose side was hit. -/
theorem dspCollect_ready (h : InStep s) (hnd : s.env.chain.Nodup)
    (hchained : ∀ f, ((dispatchBackend.regOf s f).queued = true ↔ f ∈ s.env.chain) ∧
      ∀ sd, (dispatchBackend.regOf s f).hit sd = true → (dispatchBackend.regOf s f).queued = true)
    (hroom : s.env.done.length < s.ring.opPoolN) (x : Slot) :
    x ∈ (dspCollect s).2.2 ↔ x ∈ s.ring.waiting ∧
      (dispatchBackend.regOf s (s.ring.opPool x).fdIndex).hit (s.ring.opPool x).side = true := by
  obtain ⟨pre, post, hchain, -, -, -, hready, hpost⟩ := dspCollect_spec hnd
  have hbehind {f : ℕ} (hf : f ∈ s.env.chain) := h.chain_behind (fun f => (hchained f).1) hf
  have hmem : ∀ f, f ∈ s.env.chain → ∀ x, x ∈ dspBehind s.ring (s.st.fds f) ↔
      x ∈ s.ring.waiting ∧ (s.ring.opPool x).fdIndex = f ∧
        (dispatchBackend.regOf s f).hit (s.ring.opPool x).side = true := fun f hf => (hbehind hf).2
  -- the waiters of the whole chain are parked, each once, so there was room for all of them
  have hnodup : ∀ l : List ℕ, l.Nodup → (∀ f ∈ l, f ∈ s.env.chain) →
      (l.flatMap (fun f => dspBehind s.ring (s.st.fds f))).Nodup := by
    intro l hnd hl
    rw [List.nodup_flatMap]
    refine ⟨fun f hf => (hbehind (hl f hf)).1, ?_⟩
    apply List.Pairwise.imp_of_mem _ hnd
    intro f g hf hg hne y hyf hyg
    have hy := ((hmem f (hl f hf) y).mp hyf).2.1
    have hy' := ((hmem g (hl g hg) y).mp hyg).2.1
    exact hne (hy.symm.trans hy')
  have hall : post = [] := by
    rcases hpost hroom with hnil | ⟨f, rest, hpost, hfull⟩
    · exact hnil
    · exfalso
      have hsub : ∀ g ∈ pre ++ [f], g ∈ s.env.chain := by
        intro g hg
        rw [hchain, hpost]
        simp only [List.mem_append, List.mem_cons] at hg ⊢
        tauto
      have hfirst : (pre ++ [f]).Nodup := by
        rw [hchain, hpost] at hnd
        exact hnd.sublist (by simp)
      have hshort := h.lists_short _ (hnodup _ hfirst hsub) (by
        intro y hy
        obtain ⟨g, hg, hy⟩ := List.mem_flatMap.mp hy
        exact ((hmem g (hsub g hg) y).mp hy).1)
      rw [List.flatMap_append, List.length_append, ← hready] at hshort
      simp at hshort
      omega
  have hpre : s.env.chain = pre := by rw [hchain, hall, List.append_nil]
  rw [hready, ← hpre, List.mem_flatMap]
  constructor
  · rintro ⟨f, hf, hx⟩
    obtain ⟨hwaiting, rfl, hhit⟩ := (hmem f hf x).mp hx
    exact ⟨hwaiting, hhit⟩
  · rintro ⟨hx, hhit⟩
    obtain ⟨hq, hh⟩ := hchained (s.ring.opPool x).fdIndex
    have hf := hq.mp (hh _ hhit)
    exact ⟨_, hf, (hmem _ hf x).mpr ⟨hx, rfl, hhit⟩⟩

/-- The wait hands over the parked ops whose side was hit: its door is open when there is one. -/
theorem dspWait_ready (h : Kept dispatchBackend dispatchRegistration s) (news : List DspNews)
    (hroom : (dspHear s news).env.done.length < s.ring.opPoolN) (x : Slot) :
    x ∈ (dspWait s news).2.2 ↔ x ∈ s.ring.waiting ∧
      (dispatchBackend.regOf (dspHear s news) (s.ring.opPool x).fdIndex).hit
        (s.ring.opPool x).side = true := by
  have hheard := dspHear_keeps h news
  have hc := dspHear_collectsOnly s news
  have hindex : ((dspHear s news).ring.opPool x).fdIndex = (s.ring.opPool x).fdIndex := by
    unfold EngOp.fdIndex
    rw [(hc.opPool x).1.fd]
  obtain ⟨hq, hh, hdoor⟩ := hheard.every (s.ring.opPool x).fdIndex
  unfold dspWait
  dsimp only
  split
  · next hsem =>
    constructor
    · intro hx
      cases hx
    · rintro ⟨-, hhit⟩
      have hchain := hq.mp (hh _ hhit)
      have hknocked := hdoor.knocked (Or.inl (List.ne_nil_of_mem hchain))
      have hone := hdoor.sem
      rw [hknocked, hsem] at hone
      cases hone
  · -- taking the signal changes nothing the chain depends on
    rw [dspCollect_ready (s := { dspHear s news with
        env := { (dspHear s news).env with sem := (dspHear s news).env.sem - 1 } })
      (hheard.inStep.collects (collectsOnly_env _ _)) hdoor.chain
      (fun f => ⟨(hheard.every f).1, (hheard.every f).2.1⟩) (by rw [← hc.opPoolN] at hroom; exact hroom)]
    show _ ∧ DspReg.hit (dispatchBackend.regOf (dspHear s news) _) _ = true ↔ _
    dsimp only
    rw [hc.waiting, hindex, (hc.opPool x).1.side]

end Ready

end SlipstreamIO.Engine
