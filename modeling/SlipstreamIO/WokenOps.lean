import SlipstreamIO.KqueueWakes
import SlipstreamIO.DispatchPool

/-! kqueue and dispatch beside the floor: which of the ops that select wakes they hand to the retry. -/
namespace SlipstreamIO.Engine

open ThreadedList Runs IndexedBag

/-- Which directions of which descriptors are ready. -/
abbrev Readiness := ℕ → Side → Bool

/-- What select answers, with nothing in the exception set. -/
def Readiness.sets (ready : Readiness) : FdSets where
  rd f := ready f .input
  wr f := ready f .output
  ex _ := false

/-- An op that waits for both directions of a descriptor that is ready for the in side alone. -/
def OneSided (ready : Readiness) (o : EngOp) : Prop :=
  o.waitEvents &&& pollOut ≠ 0 ∧ o.waitEvents &&& (pollIn ||| pollPri) ≠ 0 ∧
    ready o.fdIndex .input = true ∧ ready o.fdIndex .output = false

instance (ready : Readiness) (o : EngOp) : Decidable (OneSided ready o) :=
  inferInstanceAs (Decidable (_ ∧ _ ∧ _ ∧ _))

/-- Of an op that select wakes, the side it is parked on is ready unless only the other one is. -/
theorem side_ready_iff {ready : Readiness} {r : Ring} {x : Slot} (h : x ∈ selectReady r ready.sets) :
    ready (r.opPool x).fdIndex (r.opPool x).side = true ↔ ¬ OneSided ready (r.opPool x) := by
  unfold selectReady selectWoke Readiness.sets at h
  simp only [List.mem_filter, Bool.and_eq_true, Bool.or_eq_true, decide_eq_true_eq,
    Bool.or_false] at h
  obtain ⟨-, -, hwoke⟩ := h
  unfold OneSided EngOp.side sideOf
  by_cases hout : (r.opPool x).waitEvents &&& pollOut ≠ 0
  · rw [if_pos hout]
    constructor
    · rintro hready ⟨-, -, -, hnot⟩
      rw [hready] at hnot
      cases hnot
    · intro hnot
      rcases hwoke with ⟨hin, hrd⟩ | ⟨-, hwr⟩
      · by_contra hwr
        exact hnot ⟨hout, hin, hrd, by simpa using hwr⟩
      · exact hwr
  · rw [if_neg hout]
    constructor
    · rintro - ⟨h, -⟩
      exact hout h
    · intro _
      rcases hwoke with ⟨-, hrd⟩ | ⟨h, -⟩
      · exact hrd
      · exact absurd h hout

/-- The report holds every knote whose direction is ready. -/
def KqTold (k : KnoteSet) (ready : Readiness) (evs : List KqEvent) : Prop :=
  ∀ f sd, k f sd = true → ready f sd = true → ∃ ev ∈ evs, ev.fd.toInt = f ∧ ev.filter = sd

/-- After the handlers ran, every source whose direction is ready has its hit. -/
def DspTold (s : Parking DspReg DspState) (ready : Readiness) : Prop :=
  ∀ f sd, (dispatchBackend.regOf s f).source sd = true → ready f sd = true →
    (dispatchBackend.regOf s f).hit sd = true

section Handed
variable {ctlR : Int32}

/-- kqueue hands over a parked op when its own side is ready. -/
theorem kqueueWait_handed {s : Parking KqReg KnoteSet}
    (h : Kept (kqueueBackend ctlR) kqueueRegistration s) {ready : Readiness} {evs : List KqEvent}
    (hevs : EachKnoteOnce evs) (htold : KqTold s.env ready evs) {x : Slot}
    (hx : x ∈ s.ring.waiting) :
    (ready (s.ring.opPool x).fdIndex (s.ring.opPool x).side = true ∧
        ¬ ((s.ring.opPool x).sqe.fd = ctlR ∧ (s.ring.opPool x).side = .input) →
      x ∈ (kqueueWait ctlR s evs).2) ∧
    ((∀ ev ∈ evs, ready ev.fdIndex ev.filter = true) → x ∈ (kqueueWait ctlR s evs).2 →
      ready (s.ring.opPool x).fdIndex (s.ring.opPool x).side = true ∧
        ¬ ((s.ring.opPool x).sqe.fd = ctlR ∧ (s.ring.opPool x).side = .input)) := by
  rw [(kqueueWait_spec h hevs).2]
  constructor
  · rintro ⟨hready, hctl⟩
    have hknote := h.busy x hx _ (h.own x hx)
    obtain ⟨ev, hev, hfd, hfilter⟩ := htold _ _ hknote hready
    have hnonneg := h.inStep.fd x hx
    have hsame : (s.ring.opPool x).sqe.fd = ev.fd := by
      apply Int32.toInt_inj.mp
      unfold EngOp.fdIndex at hfd
      omega
    have hside : (s.ring.opPool x).side = ev.filter := hfilter.symm
    refine ⟨hx, ev, hev, ⟨hsame, hside⟩, ?_⟩
    rwa [← hsame, ← hside]
  · rintro hexact ⟨-, ev, hev, ⟨hsame, hside⟩, hctl⟩
    constructor
    · have hev := hexact ev hev
      unfold KqEvent.fdIndex at hev
      rwa [← hsame, ← hside] at hev
    · rwa [hsame, hside]

/-- dispatch hands over a parked op when its own side is ready. -/
theorem dspWait_handed {s : Parking DspReg DspState}
    (h : Kept dispatchBackend dispatchRegistration s) {news : List DspNews} {ready : Readiness}
    (hroom : (dspHear s news).env.done.length < s.ring.opPoolN)
    (htold : DspTold (dspHear s news) ready) {x : Slot} (hx : x ∈ s.ring.waiting) :
    (ready (s.ring.opPool x).fdIndex (s.ring.opPool x).side = true → x ∈ (dspWait s news).2.2) ∧
    ((∀ f sd, (dispatchBackend.regOf (dspHear s news) f).hit sd = true → ready f sd = true) →
      x ∈ (dspWait s news).2.2 →
      ready (s.ring.opPool x).fdIndex (s.ring.opPool x).side = true) := by
  rw [dspWait_ready h news hroom]
  have hheard := dspHear_keeps h news
  have hc := dspHear_collectsOnly s news
  constructor
  · intro hready
    have hown := hheard.own x (by rw [hc.waiting]; exact hx)
    have hindex : ((dspHear s news).ring.opPool x).fdIndex = (s.ring.opPool x).fdIndex := by
      unfold EngOp.fdIndex
      rw [(hc.opPool x).1.fd]
    rw [hindex, (hc.opPool x).1.waitEvents] at hown
    exact ⟨hx, htold _ _ hown hready⟩
  · rintro hexact ⟨-, hhit⟩
    exact hexact _ _ hhit

end Handed

theorem wakes_as_select_iff (ctlR : Int32) {n : ℕ} {e : UInt32} {tr : List Empty}
    {ready : Readiness} :
    (∀ {k : KnoteSet} {s : Parking KqReg KnoteSet} {evs : List KqEvent} {x : Slot},
      Run (kqueueBackend ctlR).parking (fun s l => ParksOnce s l ∧ ClosesIdle s l ∧
        (kqueueBackend ctlR).Meets (fun _ _ _ => True) (fun _ evs => EachKnoteOnce evs) s l)
        ((kqueueBackend ctlR).setupParking n e k) tr s →
      EachKnoteOnce evs → KqTold s.env ready evs →
      ((x ∈ selectReady s.ring ready.sets → ¬ OneSided ready (s.ring.opPool x) ∧
          ¬ ((s.ring.opPool x).sqe.fd = ctlR ∧ (s.ring.opPool x).side = .input)) →
        x ∈ selectReady s.ring ready.sets → x ∈ (kqueueWait ctlR s evs).2) ∧
      ((∀ ev ∈ evs, ready ev.fdIndex ev.filter = true) →
        (x ∈ selectReady s.ring ready.sets → x ∈ (kqueueWait ctlR s evs).2) →
        x ∈ selectReady s.ring ready.sets → ¬ OneSided ready (s.ring.opPool x) ∧
          ¬ ((s.ring.opPool x).sqe.fd = ctlR ∧ (s.ring.opPool x).side = .input))) ∧
    ∀ {s : Parking DspReg DspState} {news : List DspNews} {x : Slot},
      Run dispatchBackend.parking (fun s l => ParksOnce s l ∧ ClosesIdle s l ∧ OnePlace s l)
        (dispatchBackend.setupParking n e {}) tr s →
      ComesBack s.ring (s.env.done.map Prod.fst) news → DspTold (dspHear s news) ready →
      ((x ∈ selectReady s.ring ready.sets → ¬ OneSided ready (s.ring.opPool x)) →
        x ∈ selectReady s.ring ready.sets → x ∈ (dspWait s news).2.2) ∧
      ((∀ f sd, (dispatchBackend.regOf (dspHear s news) f).hit sd = true → ready f sd = true) →
        (x ∈ selectReady s.ring ready.sets → x ∈ (dspWait s news).2.2) →
        x ∈ selectReady s.ring ready.sets → ¬ OneSided ready (s.ring.opPool x)) := by
  have hparked {r : Ring} {x : Slot} (hx : x ∈ selectReady r ready.sets) : x ∈ r.waiting :=
    List.mem_of_mem_filter hx
  constructor
  · intro k s evs x hr hevs htold
    have h := Kept.run (kqueueBackend_keeps ctlR) (kqueueBackend_collects ctlR) (fun _ => trivial) hr
    constructor
    · intro hcond hx
      obtain ⟨hside, hctl⟩ := hcond hx
      exact (kqueueWait_handed h hevs htold (hparked hx)).1 ⟨(side_ready_iff hx).mpr hside, hctl⟩
    · intro hexact hhanded hx
      obtain ⟨hside, hctl⟩ :=
        (kqueueWait_handed h hevs htold (hparked hx)).2 hexact (hhanded hx)
      exact ⟨(side_ready_iff hx).mp hside, hctl⟩
  · intro s news x hr hnews htold
    obtain ⟨h, hp⟩ := dispatch_run hr
    have hroom {x : Slot} (hx : x ∈ s.ring.waiting) :
        (dspHear s news).env.done.length < s.ring.opPoolN := by
      have hc := dspHear_collectsOnly s news
      rw [← hc.opPoolN]
      apply (hp.hear (fun _ h => h) hnews).room (x := x)
      rwa [hc.waiting]
    constructor
    · intro hcond hx
      exact (dspWait_handed h (hroom (hparked hx)) htold (hparked hx)).1
        ((side_ready_iff hx).mpr (hcond hx))
    · intro hexact hhanded hx
      exact (side_ready_iff hx).mp
        ((dspWait_handed h (hroom (hparked hx)) htold (hparked hx)).2 hexact (hhanded hx))

/-- Descriptor 5, ready on the sides that are named. -/
def fiveReady (sides : Side → Bool) : Readiness := fun f sd => decide (f = 5) && sides sd

theorem fiveReady_iff {sides : Side → Bool} {f : ℕ} {sd : Side} :
    fiveReady sides f sd = true ↔ f = 5 ∧ sides sd = true := by
  unfold fiveReady
  rw [Bool.and_eq_true, decide_eq_true_eq]

/-- A recv and a send on one descriptor, ready for both: both are woken by both. -/
theorem wakes_two_as_select :
    (∃ s : Parking KqReg KnoteSet, ∀ x ∈ ([0, 1] : List Slot),
      x ∈ (kqueueWait 3 s [{ fd := 5, filter := .input }, { fd := 5, filter := .output }]).2) ∧
    ∃ s : Parking DspReg DspState, ∀ x ∈ ([0, 1] : List Slot),
      x ∈ (dspWait s [.report 5 .input, .report 5 .output]).2.2 := by
  constructor
  · obtain ⟨tr, s, hr, hs⟩ := Run.of_exec (kqueueBackend 3).parking
      (fun s l => ParksOnce s l ∧ ClosesIdle s l ∧
        (kqueueBackend 3).Meets (fun _ _ _ => True) (fun _ evs => EachKnoteOnce evs) s l)
      ((kqueueBackend 3).setupParking 2 4 fun _ _ => false)
      (fun _ s => ∀ x ∈ ([0, 1] : List Slot), x ∈ selectReady s.ring (fiveReady fun _ => true).sets ∧
        (s.ring.opPool x).sqe.fd ≠ 3 ∧ ¬ OneSided (fiveReady fun _ => true) (s.ring.opPool x))
      [.other 0 { sqe := { opcode := .recv, fd := 5 } }, .other 1 { sqe := { opcode := .send, fd := 5 } },
        .park 0 pollIn true {}, .park 1 pollOut true { add := false }] (by decide +kernel)
    refine ⟨s, fun x hx => ?_⟩
    have htold : KqTold s.env (fiveReady fun _ => true)
        [{ fd := 5, filter := .input }, { fd := 5, filter := .output }] := by
      intro f sd _ hready
      rw [(fiveReady_iff.mp hready).1]
      cases sd with
      | input => exact ⟨_, List.mem_cons_self, by decide, rfl⟩
      | output => exact ⟨_, List.mem_cons_of_mem _ List.mem_cons_self, by decide, rfl⟩
    obtain ⟨hsel, hfd, hside⟩ := hs x hx
    exact ((wakes_as_select_iff 3).1 hr (by decide) htold).1
      (fun _ => ⟨hside, fun hctl => hfd hctl.1⟩) hsel
  · obtain ⟨tr, s, hr, hs⟩ := Run.of_exec dispatchBackend.parking
      (fun s l => ParksOnce s l ∧ ClosesIdle s l ∧ OnePlace s l) (dispatchBackend.setupParking 2 4 {})
      (fun _ s => (∀ x ∈ ([0, 1] : List Slot), x ∈ selectReady s.ring (fiveReady fun _ => true).sets ∧
        ¬ OneSided (fiveReady fun _ => true) (s.ring.opPool x)) ∧
        (dispatchBackend.regOf (dspHear s [.report 5 .input, .report 5 .output]) 5).hit .input = true ∧
        (dispatchBackend.regOf (dspHear s [.report 5 .input, .report 5 .output]) 5).hit .output = true)
      [.other 0 { sqe := { opcode := .recv, fd := 5 } }, .other 1 { sqe := { opcode := .send, fd := 5 } },
        .park 0 pollIn true true, .park 1 pollOut true true] (by decide +kernel)
    obtain ⟨hs, hin, hout⟩ := hs
    refine ⟨s, fun x hx => ?_⟩
    have htold : DspTold (dspHear s [.report 5 .input, .report 5 .output])
        (fiveReady fun _ => true) := by
      intro f sd _ hready
      rw [(fiveReady_iff.mp hready).1]
      cases sd with
      | input => exact hin
      | output => exact hout
    obtain ⟨hsel, hside⟩ := hs x hx
    have hnews : ComesBack s.ring (s.env.done.map Prod.fst)
        [.report 5 .input, .report 5 .output] := trivial
    exact ((wakes_as_select_iff 3).2 hr hnews htold).1 (fun _ => hside) hsel

/-- A poll for both directions of a descriptor that is readable and not writable: select wakes it, and
kqueue and dispatch have no registration that would. -/
theorem kqueue_and_dispatch_miss_poll :
    (∃ tr s, Run (kqueueBackend 3).parking (fun s l => ParksOnce s l ∧ ClosesIdle s l)
      ((kqueueBackend 3).setupParking 2 4 fun _ _ => false) tr s ∧
      KqTold s.env (fiveReady (· = .input)) [] ∧
      0 ∈ selectReady s.ring (Readiness.sets (fiveReady (· = .input))) ∧ 0 ∉ (kqueueWait 3 s []).2) ∧
    ∃ tr s, Run dispatchBackend.parking (fun s l => ParksOnce s l ∧ ClosesIdle s l)
      (dispatchBackend.setupParking 2 4 {}) tr s ∧ DspTold (dspHear s []) (fiveReady (· = .input)) ∧
      0 ∈ selectReady s.ring (Readiness.sets (fiveReady (· = .input))) ∧ 0 ∉ (dspWait s []).2.2 := by
  constructor
  · obtain ⟨tr, s, hr, hknote, hs⟩ := Run.of_exec (kqueueBackend 3).parking
      (fun s l => ParksOnce s l ∧ ClosesIdle s l) ((kqueueBackend 3).setupParking 2 4 fun _ _ => false)
      (fun _ s => s.env 5 .input = false ∧
        0 ∈ selectReady s.ring (Readiness.sets (fiveReady (· = .input))) ∧ 0 ∉ (kqueueWait 3 s []).2)
      [.other 0 { sqe := { opcode := .pollAdd, fd := 5 } }, .park 0 (pollIn ||| pollOut) true {}]
      (by decide +kernel)
    refine ⟨tr, s, hr, fun f sd hk hready => ?_, hs⟩
    obtain ⟨rfl, hsd⟩ := fiveReady_iff.mp hready
    rw [of_decide_eq_true hsd, hknote] at hk
    cases hk
  · obtain ⟨tr, s, hr, hsource, hs⟩ := Run.of_exec dispatchBackend.parking
      (fun s l => ParksOnce s l ∧ ClosesIdle s l) (dispatchBackend.setupParking 2 4 {})
      (fun _ s => (dispatchBackend.regOf s 5).source .input = false ∧
        0 ∈ selectReady s.ring (Readiness.sets (fiveReady (· = .input))) ∧ 0 ∉ (dspWait s []).2.2)
      [.other 0 { sqe := { opcode := .pollAdd, fd := 5 } }, .park 0 (pollIn ||| pollOut) true true]
      (by decide +kernel)
    refine ⟨tr, s, hr, fun f sd hk hready => ?_, hs⟩
    obtain ⟨rfl, hsd⟩ := fiveReady_iff.mp hready
    have hk : (dispatchBackend.regOf s 5).source sd = true := hk
    rw [of_decide_eq_true hsd, hsource] at hk
    cases hk

end SlipstreamIO.Engine
