import SlipstreamIO.ParkedKeeps
import SlipstreamIO.ParkedGather

/-! kqueue: a parked op has its knote, and a pass hands over the ops behind the filters that fired. -/
namespace SlipstreamIO.Engine

open ThreadedList Runs IndexedBag

theorem KqReg.armed_setArmed (reg : KqReg) (sd t : Side) (v : Bool) :
    (reg.setArmed sd v).armed t = if t = sd then v else reg.armed t := by
  cases sd <;> cases t <;> rfl

theorem KnoteSet.put_apply (k : KnoteSet) (f g : ℕ) (sd t : Side) (v : Bool) :
    k.put f sd v g t = if g = f ∧ t = sd then v else k g t := rfl

/-- The side of a parked op is armed, and what is armed has its knote. -/
def kqueueRegistration : Registration KqReg KnoteSet where
  own reg waitEvents := reg.armed (sideOf waitEvents) = true
  busy f reg k := ∀ sd, reg.armed sd = true → k f sd = true
  every _ _ _ := True

/-- The three ends of an arm, from the flags as the idle check leaves them. -/
theorem kqueueRegister_cases {e : FdEntry KqReg} {o : EngOp} {a : KqAnswers} {k k' : KnoteSet}
    {ok : Bool} {r : KqReg} (h : kqueueRegister e o a k = (ok, r, k')) :
    ((if e.idle then {} else e.reg).armed o.side = true ∧ ok = true ∧
      r = (if e.idle then {} else e.reg) ∧ k' = k) ∨
    (ok = true ∧ r = (if e.idle then {} else e.reg).setArmed o.side true ∧
      ∀ f sd, k' f sd = if f = o.fdIndex ∧ sd = o.side then true else k f sd) ∨
    ((if e.idle then {} else e.reg).armed o.side = false ∧ ok = false ∧
      r = (if e.idle then {} else e.reg) ∧
      ∀ f sd, ¬ (f = o.fdIndex ∧ sd = o.side) → k' f sd = k f sd) := by
  unfold kqueueRegister at h
  dsimp only at h
  generalize hreg : (if e.idle then {} else e.reg : KqReg) = reg at *
  split at h
  · next harmed =>
    cases h
    exact Or.inl ⟨harmed, rfl, rfl, rfl⟩
  next harmed =>
  split at h
  · cases h
    exact Or.inr (Or.inl ⟨rfl, rfl, fun _ _ => rfl⟩)
  split at h
  · cases h
    refine Or.inr (Or.inl ⟨rfl, rfl, fun f sd => ?_⟩)
    rw [KnoteSet.put_apply]
    split
    · rfl
    · next hne =>
      split
      · rw [KnoteSet.put_apply, if_neg hne]
      · rfl
  · cases h
    refine Or.inr (Or.inr ⟨by simpa using harmed, rfl, rfl, fun f sd hne => ?_⟩)
    split
    · rw [KnoteSet.put_apply, if_neg hne]
    · rfl

theorem kqueueBackend_keeps (ctlR : Int32) :
    (kqueueBackend ctlR).Keeps kqueueRegistration (fun _ _ _ => True) where
  register := by
    intro e o a k ok r k' _ h _ hbusy _
    have h : kqueueRegister e o a k = (ok, r, k') := h
    -- an entry nobody is parked on starts with no flag set
    have hflags : ∀ sd, (if e.idle then {} else e.reg : KqReg).armed sd = true →
        e.idle = false ∧ e.reg.armed sd = true := by
      intro sd hsd
      cases hidle : e.idle with
      | true =>
        rw [hidle] at hsd
        cases sd <;> cases hsd
      | false =>
        rw [hidle] at hsd
        exact ⟨rfl, hsd⟩
    have hkept : e.idle = false → (if e.idle then {} else e.reg : KqReg) = e.reg := by
      intro hidle
      rw [hidle]
      rfl
    rcases kqueueRegister_cases h with ⟨harmed, rfl, rfl, rfl⟩ | ⟨rfl, rfl, hk⟩ | ⟨harmed, rfl, rfl, hk⟩
    · refine ⟨fun _ => harmed, fun _ sd hsd => ?_, trivial, fun we hwe hown => ?_⟩
      · exact hbusy (hflags sd hsd).1 sd (hflags sd hsd).2
      · rw [hkept (FdEntry.not_idle hwe)]
        exact hown
    · refine ⟨fun _ => ?_, fun _ sd hsd => ?_, trivial, fun we hwe hown => ?_⟩
      · show KqReg.armed _ o.side = true
        rw [KqReg.armed_setArmed, if_pos rfl]
      · rw [hk]
        split
        · rfl
        · next hne =>
          rw [KqReg.armed_setArmed, if_neg (fun hs => hne ⟨rfl, hs⟩)] at hsd
          exact hbusy (hflags sd hsd).1 sd (hflags sd hsd).2
      · show KqReg.armed _ (sideOf we) = true
        rw [KqReg.armed_setArmed, hkept (FdEntry.not_idle hwe)]
        split
        · rfl
        · exact hown
    · refine ⟨by simp, fun _ sd hsd => ?_, trivial, fun we hwe hown => ?_⟩
      · have hne : ¬ (o.fdIndex = o.fdIndex ∧ sd = o.side) := by
          rintro ⟨-, rfl⟩
          rw [harmed] at hsd
          cases hsd
        rw [hk _ _ hne]
        exact hbusy (hflags sd hsd).1 sd (hflags sd hsd).2
      · rw [hkept (FdEntry.not_idle hwe)]
        exact hown
  others := by
    intro e o a k ok r k' h g reg hg
    refine ⟨fun hb sd hsd => ?_, id⟩
    have h : kqueueRegister e o a k = (ok, r, k') := h
    rcases kqueueRegister_cases h with ⟨-, -, -, rfl⟩ | ⟨-, -, hk⟩ | ⟨-, -, -, hk⟩
    · exact hb sd hsd
    · rw [hk, if_neg (fun hs => hg hs.1)]
      exact hb sd hsd
    · rw [hk _ _ (fun hs => hg hs.1)]
      exact hb sd hsd
  quit := fun _ _ _ _ => ⟨fun _ _ h => h, id, id⟩
  forgotten := fun _ _ _ _ => trivial
  closed := by
    intro f g r k
    refine ⟨fun hg hb sd hsd => ?_, id⟩
    show ((k.put f .input false).put f .output false) g sd = true
    rw [KnoteSet.put_apply, if_neg (fun hs => hg hs.1), KnoteSet.put_apply, if_neg (fun hs => hg hs.1)]
    exact hb sd hsd

/-- An event that reaches an op: its descriptor and its filter, but not the control pipe's. -/
def KqEvent.reaches (ctlR : Int32) (ev : KqEvent) (o : EngOp) : Prop :=
  o.behind ev.fd ev.filter ∧ ¬ (ev.fd = ctlR ∧ ev.filter = .input)

/-- The system reports each knote once. -/
def EachKnoteOnce (evs : List KqEvent) : Prop :=
  evs.Pairwise (fun a b => ¬ (a.fd = b.fd ∧ a.filter = b.filter))

instance (evs : List KqEvent) : Decidable (EachKnoteOnce evs) :=
  inferInstanceAs (Decidable (evs.Pairwise _))

section Event
variable {ctlR : Int32} {s : Parking KqReg KnoteSet} {ready : List Slot}

/-- An event adds the parked ops behind its filter. -/
theorem kqueueEvent_ready (ctlR : Int32) {ev : KqEvent} (h : InStep s) (hnd : ready.Nodup)
    (hready : ∀ x ∈ ready, x ∈ s.ring.waiting ∧ ¬ (s.ring.opPool x).behind ev.fd ev.filter) :
    (kqueueEvent ctlR s ev ready).2.Nodup ∧ ∀ x, x ∈ (kqueueEvent ctlR s ev ready).2 ↔
      x ∈ ready ∨ (x ∈ s.ring.waiting ∧ ev.reaches ctlR (s.ring.opPool x)) := by
  unfold kqueueEvent
  by_cases hctl : ev.fd = ctlR ∧ ev.filter = .input
  · rw [if_pos hctl]
    exact ⟨hnd, by simp [KqEvent.reaches, hctl]⟩
  rw [if_neg hctl]
  cases hslot : s.st.slot {} ev.fd true with
  | none =>
    refine ⟨hnd, fun x => ⟨Or.inl, ?_⟩⟩
    rintro (hx | ⟨hx, hreach⟩)
    · exact hx
    · exact absurd hreach.1.1 (h.slot_none hslot hx)
  | some st =>
    have hside : (st.fds ev.fdIndex).side ev.filter = s.st.head ev.fd.toInt.toNat ev.filter :=
      FdTable.slot_side hslot _
    obtain ⟨l, hval, hboth, hmem⟩ :=
      h.gather_spec (FdTable.slot_spec hslot).nonneg ev.filter hnd hready
    have hreaches : ∀ x, x ∈ ready ++ l ↔
        x ∈ ready ∨ (x ∈ s.ring.waiting ∧ ev.reaches ctlR (s.ring.opPool x)) := by
      intro x
      rw [List.mem_append, hmem]
      simp [KqEvent.reaches, hctl]
    dsimp only
    rw [hside, hval]
    split
    · exact ⟨hboth, hreaches⟩
    · exact ⟨hboth, hreaches⟩

/-- An event nobody is behind takes its flag and its knote; any other leaves the registrations. -/
theorem kqueueEvent_regs (ctlR : Int32) (s : Parking KqReg KnoteSet) (ev : KqEvent)
    (ready : List Slot) :
    ((∀ g, (kqueueBackend ctlR).regOf (kqueueEvent ctlR s ev ready).1 g =
        (kqueueBackend ctlR).regOf s g) ∧ (kqueueEvent ctlR s ev ready).1.env = s.env) ∨
    (¬ (ev.fd = ctlR ∧ ev.filter = .input) ∧ 0 ≤ ev.fd.toInt ∧
      (kqueueEvent ctlR s ev ready).2.length = ready.length ∧
      (∀ g, (kqueueBackend ctlR).regOf (kqueueEvent ctlR s ev ready).1 g =
        if g = ev.fdIndex then ((kqueueBackend ctlR).regOf s g).setArmed ev.filter false
        else (kqueueBackend ctlR).regOf s g) ∧
      ∀ g sd, ¬ (g = ev.fdIndex ∧ sd = ev.filter) →
        (kqueueEvent ctlR s ev ready).1.env g sd = s.env g sd) := by
  unfold kqueueEvent
  by_cases hctl : ev.fd = ctlR ∧ ev.filter = .input
  · rw [if_pos hctl]
    exact Or.inl ⟨fun _ => rfl, rfl⟩
  rw [if_neg hctl]
  cases hslot : s.st.slot {} ev.fd true with
  | none => exact Or.inl ⟨fun _ => rfl, rfl⟩
  | some st =>
    have hspec := FdTable.slot_spec hslot
    have hlt : ev.fdIndex < st.n := hspec.lt
    have hentry : ∀ g, st.entry {} g = s.st.entry {} g := FdTable.entry_slot hslot
    dsimp only
    split
    · next hnone =>
      refine Or.inr ⟨hctl, hspec.nonneg, hnone, fun g => ?_, fun g sd hne => ?_⟩
      · show ((st.set ev.fdIndex _).entry {} g).reg = _
        rw [FdTable.entry_set hlt]
        split
        · next hg =>
          rw [hg, ← FdTable.entry_of_lt {} hlt, hentry]
          rfl
        · rw [hentry]
          rfl
      · show (if ev.deleted = true then s.env.put ev.fdIndex ev.filter false else s.env) g sd = _
        split
        · rw [KnoteSet.put_apply, if_neg hne]
        · rfl
    · left
      refine ⟨fun g => ?_, rfl⟩
      show (st.entry {} g).reg = (s.st.entry {} g).reg
      rw [hentry]

theorem kqueueEvent_keeps {ev : KqEvent} (h : Kept (kqueueBackend ctlR) kqueueRegistration s)
    (hnd : ready.Nodup)
    (hready : ∀ x ∈ ready, x ∈ s.ring.waiting ∧ ¬ (s.ring.opPool x).behind ev.fd ev.filter) :
    Kept (kqueueBackend ctlR) kqueueRegistration (kqueueEvent ctlR s ev ready).1 := by
  obtain ⟨hnd', hmem⟩ := kqueueEvent_ready ctlR h.inStep hnd hready
  refine h.of_collects (kqueueEvent_collectsOnly ctlR s ev ready) (fun x hx => ?_) (fun x hx => ?_)
    (fun _ => trivial)
  all_goals rcases kqueueEvent_regs ctlR s ev ready with ⟨hreg, henv⟩ | ⟨hctl, hfd, hlen, hreg, henv⟩
  · rw [hreg]
    exact h.own x hx
  · rw [hreg]
    have hown : KqReg.armed _ (s.ring.opPool x).side = true := h.own x hx
    show KqReg.armed _ (s.ring.opPool x).side = true
    split
    · next hf =>
      rw [KqReg.armed_setArmed, if_neg]
      · exact hown
      -- an op behind the side would have been added
      intro hs
      have hbehind : (s.ring.opPool x).behind ev.fd ev.filter := by
        refine ⟨?_, hs⟩
        by_contra hne
        exact fdIndex_ne (h.inStep.fd x hx) hfd hne hf
      have hold : ready ⊆ (kqueueEvent ctlR s ev ready).2 := fun y hy => (hmem y).mpr (Or.inl hy)
      have hperm := (List.subperm_of_subset hnd hold).perm_of_length_le hlen.le
      have hin : x ∈ ready := hperm.mem_iff.mpr ((hmem x).mpr (Or.inr ⟨hx, hbehind, hctl⟩))
      exact (hready x hin).2 hbehind
    · exact hown
  · rw [hreg, henv]
    exact h.busy x hx
  · intro sd hsd
    have hbusy := h.busy x hx sd
    rw [hreg] at hsd
    by_cases hf : (s.ring.opPool x).fdIndex = ev.fdIndex
    · rw [if_pos hf, KqReg.armed_setArmed] at hsd
      by_cases hs : sd = ev.filter
      · rw [if_pos hs] at hsd
        cases hsd
      · rw [if_neg hs] at hsd
        rw [henv _ _ (fun h => hs h.2)]
        exact hbusy hsd
    · rw [if_neg hf] at hsd
      rw [henv _ _ (fun h => hf h.1)]
      exact hbusy hsd

/-- A pass hands over the parked ops its events reach, and keeps the registrations of the parked. -/
theorem kqueueWait_spec {evs : List KqEvent}
    (h : Kept (kqueueBackend ctlR) kqueueRegistration s) (hevs : EachKnoteOnce evs) :
    Kept (kqueueBackend ctlR) kqueueRegistration (kqueueWait ctlR s evs).1 ∧
      ∀ x, x ∈ (kqueueWait ctlR s evs).2 ↔
        x ∈ s.ring.waiting ∧ ∃ ev ∈ evs, ev.reaches ctlR (s.ring.opPool x) := by
  have hfold : ∀ (evs : List KqEvent) (s : Parking KqReg KnoteSet) (ready : List Slot),
      Kept (kqueueBackend ctlR) kqueueRegistration s → EachKnoteOnce evs → ready.Nodup →
      (∀ x ∈ ready, x ∈ s.ring.waiting ∧
        ∀ ev ∈ evs, ¬ (s.ring.opPool x).behind ev.fd ev.filter) →
      Kept (kqueueBackend ctlR) kqueueRegistration
          (evs.foldl (fun p ev => kqueueEvent ctlR p.1 ev p.2) (s, ready)).1 ∧
        ∀ x, x ∈ (evs.foldl (fun p ev => kqueueEvent ctlR p.1 ev p.2) (s, ready)).2 ↔
          x ∈ ready ∨ (x ∈ s.ring.waiting ∧ ∃ ev ∈ evs, ev.reaches ctlR (s.ring.opPool x)) := by
    intro evs
    induction evs with
    | nil =>
      intro s ready h _ hnd _
      exact ⟨h, by simp⟩
    | cons ev evs ih =>
      intro s ready h hevs hnd hready
      obtain ⟨hfirst, hrest⟩ := List.pairwise_cons.mp hevs
      have hready₁ : ∀ x ∈ ready, x ∈ s.ring.waiting ∧
          ¬ (s.ring.opPool x).behind ev.fd ev.filter :=
        fun x hx => ⟨(hready x hx).1, (hready x hx).2 ev List.mem_cons_self⟩
      obtain ⟨hnd₁, hmem₁⟩ := kqueueEvent_ready ctlR h.inStep hnd hready₁
      have hc := kqueueEvent_collectsOnly ctlR s ev ready
      have hsame : ∀ x fd sd, ((kqueueEvent ctlR s ev ready).1.ring.opPool x).behind fd sd ↔
          (s.ring.opPool x).behind fd sd := by
        intro x fd sd
        unfold EngOp.behind
        rw [(hc.opPool x).1.fd, (hc.opPool x).1.side]
      rw [List.foldl_cons]
      obtain ⟨hkept, hmem₂⟩ := ih _ (kqueueEvent ctlR s ev ready).2
        (kqueueEvent_keeps h hnd hready₁) hrest hnd₁ (by
          intro x hx
          rw [hc.waiting]
          simp only [hsame]
          rcases (hmem₁ x).mp hx with hx | ⟨hx, hreach⟩
          · exact ⟨(hready x hx).1, fun e he => (hready x hx).2 e (List.mem_cons_of_mem _ he)⟩
          · refine ⟨hx, fun e he hb => hfirst e he ?_⟩
            exact ⟨hreach.1.1.symm.trans hb.1, hreach.1.2.symm.trans hb.2⟩)
      refine ⟨hkept, fun x => ?_⟩
      have hreach : ∀ e : KqEvent,
          e.reaches ctlR ((kqueueEvent ctlR s ev ready).1.ring.opPool x) ↔
            e.reaches ctlR (s.ring.opPool x) := by
        intro e
        unfold KqEvent.reaches
        rw [hsame]
      rw [hmem₂, hmem₁, hc.waiting]
      simp only [hreach, List.mem_cons, exists_eq_or_imp]
      tauto
  obtain ⟨hkept, hmem⟩ := hfold evs s [] h hevs List.nodup_nil (by simp)
  exact ⟨hkept, fun x => (hmem x).trans (by simp)⟩

end Event

theorem kqueueBackend_collects (ctlR : Int32) :
    Kept.Collects (kqueueBackend ctlR) kqueueRegistration (fun _ evs => EachKnoteOnce evs) where
  hear := fun h _ => h
  collect := fun h hevs => (kqueueWait_spec h hevs).1

end SlipstreamIO.Engine
