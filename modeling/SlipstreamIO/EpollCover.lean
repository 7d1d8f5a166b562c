import SlipstreamIO.ParkedKeeps

/-! The epoll backend's cache of interest: what the kernel was told covers what the parked ops wait
for. -/
namespace SlipstreamIO.Engine

open ThreadedList Runs

/-- Every bit of `want` is set in `mask`. -/
def Covers (mask want : UInt32) : Prop := mask &&& want = want

instance (mask want : UInt32) : Decidable (Covers mask want) := inferInstanceAs (Decidable (_ = _))

theorem covers_iff {mask want : UInt32} : Covers mask want ↔
    ∀ i : ℕ, want.toBitVec.getLsbD i = true → mask.toBitVec.getLsbD i = true := by
  unfold Covers
  rw [← UInt32.toBitVec_inj, UInt32.toBitVec_and]
  constructor
  · intro h i hi
    rw [← h, BitVec.getLsbD_and] at hi
    exact (Bool.and_eq_true _ _ ▸ hi).1
  · intro h
    apply BitVec.eq_of_getLsbD_eq
    intro i _
    rw [BitVec.getLsbD_and]
    have hi := h i
    cases hw : want.toBitVec.getLsbD i with
    | false => rw [Bool.and_false]
    | true => rw [hi hw, Bool.and_true]

theorem covers_zero (mask : UInt32) : Covers mask 0 := UInt32.and_zero

theorem covers_self (mask : UInt32) : Covers mask mask := UInt32.and_self

namespace Covers
variable {m m' w w' : UInt32}

theorem trans (h : Covers m m') (h' : Covers m' w) : Covers m w := by
  rw [covers_iff] at *
  exact fun i hi => h i (h' i hi)

theorem or_left (h : Covers m w) (m' : UInt32) : Covers (m ||| m') w := by
  rw [covers_iff] at *
  intro i hi
  rw [UInt32.toBitVec_or, BitVec.getLsbD_or, h i hi, Bool.true_or]

theorem or_right (h : Covers m w) (m' : UInt32) : Covers (m' ||| m) w := by
  rw [covers_iff] at *
  intro i hi
  rw [UInt32.toBitVec_or, BitVec.getLsbD_or, h i hi, Bool.or_true]

/-- Bits nobody wants can be taken out. -/
theorem sdiff (h : Covers m w) (hw : w &&& m' = 0) : Covers (m &&& ~~~m') w := by
  rw [covers_iff] at *
  intro i hi
  have hnone : (w &&& m').toBitVec.getLsbD i = false := by
    rw [hw]
    simp
  rw [UInt32.toBitVec_and, BitVec.getLsbD_and, hi, Bool.true_and] at hnone
  have hlt : i < 32 := by
    by_contra hge
    rw [BitVec.getLsbD_of_ge _ _ (by omega)] at hi
    cases hi
  rw [UInt32.toBitVec_and, BitVec.getLsbD_and, UInt32.toBitVec_not, BitVec.getLsbD_not, h i hi, hnone]
  simp [hlt]

/-- What is covered by nothing is nothing. -/
theorem eq_zero (h : Covers 0 w) : w = 0 := by
  unfold Covers at h
  rw [← h, UInt32.zero_and]

end Covers

/-- What a call that adds or changes does: it writes the mask, or changes nothing. -/
theorem epollCtl_cases {k k' : EpollSet} {op : EpollOp} {fd : ℕ} {events : UInt32}
    {refused errno : Option Int32} (hop : op ≠ .del)
    (h : epollCtl k op fd events refused = (k', errno)) :
    (errno = none ∧ k' = Function.update k fd (some events)) ∨ (errno ≠ none ∧ k' = k) := by
  unfold epollCtl at h
  cases refused with
  | some e =>
    cases h
    exact Or.inr ⟨by simp, rfl⟩
  | none =>
    cases op with
    | del => exact absurd rfl hop
    | add =>
      cases hk : k fd with
      | none =>
        rw [hk] at h
        cases h
        exact Or.inl ⟨rfl, rfl⟩
      | some m =>
        rw [hk] at h
        cases h
        exact Or.inr ⟨by simp, rfl⟩
    | mod =>
      cases hk : k fd with
      | none =>
        rw [hk] at h
        cases h
        exact Or.inr ⟨by simp, rfl⟩
      | some m =>
        rw [hk] at h
        cases h
        exact Or.inl ⟨rfl, rfl⟩

/-- The three ends of an arm: nothing to do, the mask is written, or both calls failed. -/
theorem epollRegister_cases {e : FdEntry UInt32} {o : EngOp} {a : EpollAnswers} {k k' : EpollSet}
    {ok : Bool} {r : UInt32} (h : epollRegister e o a k = (ok, r, k')) :
    (e.idle = false ∧ Covers e.reg (epEventsOf o.waitEvents) ∧ ok = true ∧ r = e.reg ∧ k' = k) ∨
    (ok = true ∧ r = (if e.idle then 0 else e.reg) ||| epEventsOf o.waitEvents ∧
      k' = Function.update k o.fdIndex (some r)) ∨
    (ok = false ∧ r = 0 ∧ k' = k ∧ (e.idle = false → e.reg ≠ 0 → a.first = none →
      k o.fdIndex = none)) := by
  unfold epollRegister at h
  dsimp only at h
  split at h
  · next hearly =>
    cases h
    simp only [Bool.and_eq_true, Bool.not_eq_true', decide_eq_true_eq] at hearly
    exact Or.inl ⟨hearly.1.1, hearly.2, rfl, rfl, rfl⟩
  right
  set interest := if e.idle = true then 0 else e.reg with hi
  have hfirst : (if interest = 0 then EpollOp.add else .mod) ≠ .del := by split <;> simp
  have hother : (if (if interest = 0 then EpollOp.add else .mod) = .add then EpollOp.mod else .add)
      ≠ .del := by split <;> simp
  split at h
  · next k₁ hc =>
    cases h
    left
    rcases epollCtl_cases hfirst hc with ⟨-, rfl⟩ | ⟨hne, -⟩
    · exact ⟨rfl, rfl, rfl⟩
    · exact absurd rfl hne
  next k₁ errno hc =>
  have hk : k₁ = k := by
    rcases epollCtl_cases hfirst hc with ⟨hne, -⟩ | ⟨-, hk⟩
    · cases hne
    · exact hk
  -- a MOD that is not refused fails only on a descriptor that is not in the set
  have hmod : e.idle = false → e.reg ≠ 0 → a.first = none → k o.fdIndex = none := by
    intro hidle hreg hnone
    have hinterest : interest = e.reg := by rw [hi, hidle]; rfl
    rw [hinterest, if_neg hreg, hnone] at hc
    unfold epollCtl at hc
    cases hkf : k o.fdIndex with
    | none => rfl
    | some m =>
      rw [hkf] at hc
      cases hc
  split at h
  · split at h
    · next k₂ hc₂ =>
      cases h
      left
      rcases epollCtl_cases hother hc₂ with ⟨-, hk₂⟩ | ⟨hne, -⟩
      · exact ⟨rfl, rfl, by rw [hk₂, hk]⟩
      · exact absurd rfl hne
    · next k₂ errno₂ hc₂ =>
      cases h
      right
      rcases epollCtl_cases hother hc₂ with ⟨hne, -⟩ | ⟨-, hk₂⟩
      · cases hne
      · exact ⟨rfl, rfl, by rw [hk₂, hk], hmod⟩
  · cases h
    exact Or.inr ⟨rfl, rfl, hk, hmod⟩

/-- The cache covers what the parked ops wait for, and the kernel's mask covers the cache. -/
def epollRegistration : Registration UInt32 EpollSet where
  own reg waitEvents := Covers reg (epEventsOf waitEvents)
  busy f reg k := Covers ((k f).getD 0) reg
  every _ _ _ := True

/-- An arm that has to widen the interest of a descriptor with ops parked on it is not refused. -/
def WidensInterest (e : FdEntry UInt32) (o : EngOp) (a : EpollAnswers) : Prop :=
  a.first = none ∨ e.idle = true ∨ e.reg = 0 ∨ Covers e.reg (epEventsOf o.waitEvents)

/-- No pass quiets the in side of a descriptor while an op on its out side waits for more than
POLLOUT. -/
def QuietsNobody (ctlR : Int32) (s : Parking UInt32 EpollSet) (evs : List EpollEvent) : Prop :=
  ∀ ev ∈ evs, ev.fd ≠ ctlR → ev.refused = none → ev.events &&& epollIn ≠ 0 →
    s.st.head ev.fdIndex .input = none → ∀ x ∈ s.ring.waiting, (s.ring.opPool x).sqe.fd = ev.fd →
      (s.ring.opPool x).waitEvents &&& (pollIn ||| pollPri) = 0

instance (e : FdEntry UInt32) (o : EngOp) (a : EpollAnswers) : Decidable (WidensInterest e o a) :=
  inferInstanceAs (Decidable (_ ∨ _ ∨ _ ∨ _))

instance (ctlR : Int32) (s : Parking UInt32 EpollSet) (evs : List EpollEvent) :
    Decidable (QuietsNobody ctlR s evs) :=
  inferInstanceAs (Decidable (∀ ev ∈ evs, _))

theorem epollBackend_keeps (ctlR : Int32) :
    (epollBackend ctlR).Keeps epollRegistration WidensInterest where
  register := by
    intro e o a k ok r k' hQ h _ hbusy _
    have h : epollRegister e o a k = (ok, r, k') := h
    rcases epollRegister_cases h with ⟨hidle, hcov, rfl, rfl, rfl⟩ | ⟨rfl, hr, rfl⟩ | ⟨rfl, rfl, rfl, hmod⟩
    · exact ⟨fun _ => hcov, fun _ => hbusy hidle, trivial, fun _ _ h => h⟩
    · refine ⟨fun _ => ?_, fun _ => ?_, trivial, fun we hwe hown => ?_⟩
      · show Covers r _
        rw [hr]
        exact (covers_self _).or_right _
      · show Covers ((Function.update k o.fdIndex (some r) o.fdIndex).getD 0) r
        rw [Function.update_self]
        exact covers_self r
      · show Covers r _
        rw [hr, FdEntry.not_idle hwe]
        exact hown.or_left _
    · refine ⟨by simp, fun _ => covers_zero _, trivial, fun we hwe hown => ?_⟩
      have hidle := FdEntry.not_idle hwe
      have hzero : e.reg = 0 := by
        by_contra hreg
        rcases hQ with hfirst | hidle' | hzero | hcov
        · have hnone := hmod hidle hreg hfirst
          have hcov : Covers _ e.reg := hbusy hidle
          rw [hnone] at hcov
          exact hreg hcov.eq_zero
        · rw [hidle] at hidle'
          cases hidle'
        · exact hreg hzero
        · -- the cache had said yes: the arm would not have asked at all
          have hcov : e.reg &&& epEventsOf o.waitEvents = epEventsOf o.waitEvents := hcov
          unfold epollRegister at h
          simp [hidle, hreg, hcov] at h
      rw [hzero] at hown
      exact hown
  others := by
    intro e o a k ok r k' h g reg hg
    refine ⟨fun hb => ?_, id⟩
    have h : epollRegister e o a k = (ok, r, k') := h
    rcases epollRegister_cases h with ⟨-, -, -, -, rfl⟩ | ⟨-, -, rfl⟩ | ⟨-, -, rfl, -⟩
    · exact hb
    · show Covers ((Function.update k o.fdIndex (some r) g).getD 0) reg
      rw [Function.update_of_ne hg]
      exact hb
    · exact hb
  quit := fun _ _ _ _ => ⟨fun _ _ h => h, id, id⟩
  forgotten := fun _ _ _ _ => trivial
  closed := by
    intro f g r k
    refine ⟨fun hg hb => ?_, id⟩
    show Covers ((Function.update k f none g).getD 0) r
    rw [Function.update_of_ne hg]
    exact hb

/-! ### The wait -/

theorem wants_nothing {we : UInt16} (h : we &&& (pollIn ||| pollPri) = 0) :
    epEventsOf we &&& (epollIn ||| epollPri) = 0 := by
  have hin : we &&& pollIn = 0 := by
    calc we &&& pollIn = we &&& ((pollIn ||| pollPri) &&& pollIn) := rfl
      _ = 0 := by rw [← UInt16.and_assoc, h, UInt16.zero_and]
  have hpri : we &&& pollPri = 0 := by
    calc we &&& pollPri = we &&& ((pollIn ||| pollPri) &&& pollPri) := rfl
      _ = 0 := by rw [← UInt16.and_assoc, h, UInt16.zero_and]
  unfold epEventsOf
  simp only [hin, hpri, ne_eq, not_true_eq_false, if_false]
  split <;> rfl

theorem output_wants {we : UInt16} (h : sideOf we = .output) : Covers (epEventsOf we) epollOut := by
  unfold sideOf at h
  split at h
  · next hout =>
    unfold epEventsOf
    rw [if_pos hout]
    exact ((covers_self epollOut).or_right _).or_left _
  · cases h

theorem input_wants {we : UInt16} (h : sideOf we = .input) : epEventsOf we &&& epollOut = 0 := by
  unfold sideOf at h
  split at h
  · cases h
  · next hout =>
    unfold epEventsOf
    rw [if_neg hout]
    split <;> split <;> rfl

/-- Quieting a descriptor drops the unwanted bits from the cache, or changes nothing. -/
theorem epQuiet_spec {interest unwanted reg : UInt32} {k k' : EpollSet} {fd : ℕ}
    {refused : Option Int32} (h : epQuiet interest k fd unwanted refused = (reg, k')) :
    (∀ g, g ≠ fd → k' g = k g) ∧ ((reg = interest ∧ k' = k) ∨
      (reg = interest &&& ~~~unwanted ∧ Covers ((k' fd).getD 0) reg ∧ (reg = 0 ∨ refused = none))) := by
  unfold epQuiet at h
  dsimp only at h
  split at h
  · next hleft =>
    cases h
    refine ⟨fun g hg => ?_, Or.inr ⟨hleft.symm, covers_zero _, Or.inl rfl⟩⟩
    unfold epollCtl
    cases refused with
    | some errno => rfl
    | none =>
      cases k fd with
      | none => rfl
      | some m => exact Function.update_of_ne hg _ _
  · split at h
    · next k₁ hc =>
      cases h
      rcases epollCtl_cases (by simp) hc with ⟨-, hk⟩ | ⟨hne, -⟩
      · rw [hk]
        refine ⟨fun g hg => Function.update_of_ne hg _ _, Or.inr ⟨rfl, ?_, ?_⟩⟩
        · rw [Function.update_self]
          exact covers_self _
        · right
          cases refused with
          | none => rfl
          | some errno => cases hc
      · exact absurd rfl hne
    · next k₁ errno hc =>
      cases h
      rcases epollCtl_cases (by simp) hc with ⟨hne, -⟩ | ⟨-, hk⟩
      · cases hne
      · rw [hk]
        exact ⟨fun _ _ => rfl, Or.inl ⟨rfl, rfl⟩⟩

/-- An op behind the entry that is quieted keeps its bits, unless it waits on the out side for what
came in; and then it keeps at least POLLOUT. -/
theorem covers_quieted {e : FdEntry UInt32} (ev : EpollEvent) {we : UInt16}
    (hbehind : e.side (sideOf we) ≠ none) (hcov : Covers e.reg (epEventsOf we)) :
    Covers (e.reg &&& ~~~epUnwanted e ev) (epEventsOf we) ∨
      (ev.events &&& epollIn ≠ 0 ∧ e.inOps = none ∧ we &&& (pollIn ||| pollPri) ≠ 0 ∧
        e.reg &&& ~~~epUnwanted e ev ≠ 0) := by
  have hbroken : (ev.broken && e.idle) = false := by
    rw [FdEntry.not_idle hbehind, Bool.and_false]
  have hunwanted : epUnwanted e ev =
      (if ev.events &&& epollIn ≠ 0 ∧ e.inOps = none then epollIn ||| epollPri else 0) |||
        (if ev.events &&& epollOut ≠ 0 ∧ e.outOps = none then epollOut else 0) := by
    unfold epUnwanted
    rw [hbroken]
    rfl
  cases hside : sideOf we with
  | input =>
    rw [hside] at hbehind
    left
    apply hcov.sdiff
    rw [hunwanted, if_neg (fun h => hbehind h.2), UInt32.zero_or]
    split
    · exact input_wants hside
    · exact UInt32.and_zero
  | output =>
    rw [hside] at hbehind
    have hout : (if ev.events &&& epollOut ≠ 0 ∧ e.outOps = none then epollOut else 0) = 0 :=
      if_neg (fun h => hbehind h.2)
    rw [hout, UInt32.or_zero] at hunwanted
    by_cases hin : ev.events &&& epollIn ≠ 0 ∧ e.inOps = none
    · rw [if_pos hin] at hunwanted
      by_cases hwe : we &&& (pollIn ||| pollPri) = 0
      · left
        apply hcov.sdiff
        rw [hunwanted]
        exact wants_nothing hwe
      · refine Or.inr ⟨hin.1, hin.2, hwe, fun hzero => ?_⟩
        have hleft : Covers (e.reg &&& ~~~epUnwanted e ev) epollOut := by
          apply (hcov.trans (output_wants hside)).sdiff
          rw [hunwanted]
          rfl
        rw [hzero] at hleft
        exact absurd hleft.eq_zero (by decide)
    · left
      apply hcov.sdiff
      rw [hunwanted, if_neg hin]
      exact UInt32.and_zero

/-- One event, when it quiets nobody. -/
theorem epollEvent_keeps {ctlR : Int32} {s : Parking UInt32 EpollSet} {ev : EpollEvent}
    (ready : List Slot) (h : Kept (epollBackend ctlR) epollRegistration s)
    (hev : QuietsNobody ctlR s [ev]) :
    Kept (epollBackend ctlR) epollRegistration (epollEvent ctlR s ev ready).1 := by
  have hin := h.inStep.collects (epollEvent_collectsOnly ctlR s ev ready)
  unfold epollEvent at hin ⊢
  split at hin
  · rwa [if_pos ‹_›]
  next hctl =>
  rw [if_neg hctl]
  cases hslot : s.st.slot 0 ev.fd true with
  | none => exact h
  | some st =>
    rw [hslot] at hin
    dsimp only at hin ⊢
    have hlt : ev.fdIndex < st.n := (FdTable.slot_spec hslot).lt
    have hentry : ∀ g, st.entry 0 g = s.st.entry 0 g := FdTable.entry_slot hslot
    have he : st.fds ev.fdIndex = s.st.entry 0 ev.fdIndex := by
      rw [← hentry, FdTable.entry_of_lt 0 hlt]
    split
    · next hunwanted =>
      rw [if_pos hunwanted] at hin
      generalize hq : epQuiet (st.fds ev.fdIndex).reg s.env ev.fdIndex
        (epUnwanted (st.fds ev.fdIndex) ev) ev.refused = q at hin
      obtain ⟨reg, k⟩ := q
      dsimp only at hin ⊢
      obtain ⟨hother, hown⟩ := epQuiet_spec hq
      rw [he] at hown
      have hreg : ∀ g, (epollBackend ctlR).regOf { s with
          st := st.set ev.fdIndex { st.fds ev.fdIndex with reg := reg }, env := k } g =
          if g = ev.fdIndex then reg else (epollBackend ctlR).regOf s g := by
        intro g
        show ((st.set ev.fdIndex _).entry 0 g).reg = _
        rw [FdTable.entry_set hlt]
        split
        · rfl
        · rw [hentry]
          rfl
      refine ⟨hin, fun x hx => ?_, fun x hx => ?_, fun _ => trivial⟩
      · rw [hreg]
        split
        · next hxf =>
          have hxf : (s.ring.opPool x).fdIndex = ev.fdIndex := hxf
          have hxown := h.own x hx
          rw [hxf] at hxown
          rcases hown with ⟨rfl, -⟩ | ⟨rfl, -, hzero⟩
          · exact hxown
          have hbehind : (s.st.entry 0 ev.fdIndex).side (s.ring.opPool x).side ≠ none := by
            rw [FdTable.entry_side, ← hxf]
            exact h.inStep.head_ne_none hx
          rcases covers_quieted ev hbehind hxown with hcov | ⟨hfired, hnone, hwe, hleft⟩
          · exact hcov
          · exfalso
            have hrefused := hzero.resolve_left hleft
            apply hwe
            have hhead : s.st.head ev.fdIndex .input = none := by
              rw [← FdTable.entry_side 0]
              exact hnone
            have hsame : (s.ring.opPool x).sqe.fd = ev.fd := by
              by_contra hne
              exact fdIndex_ne (h.inStep.fd x hx) (FdTable.slot_spec hslot).nonneg hne hxf
            exact hev ev (List.mem_singleton.mpr rfl) hctl hrefused hfired hhead x hx hsame
        · exact h.own x hx
      · have hxbusy := h.busy x hx
        rw [hreg]
        split
        · next hxf =>
          have hxf : (s.ring.opPool x).fdIndex = ev.fdIndex := hxf
          rw [hxf] at hxbusy ⊢
          rcases hown with ⟨rfl, rfl⟩ | ⟨-, hcov, -⟩
          · exact hxbusy
          · exact hcov
        · next hxf =>
          show Covers ((k _).getD 0) _
          rw [hother _ hxf]
          exact hxbusy
    · next hunwanted =>
      rw [if_neg hunwanted] at hin
      refine h.congr hin (fun x hx => ⟨hx, rfl, rfl⟩) (fun g => ?_) rfl
      show (st.entry 0 g).reg = (s.st.entry 0 g).reg
      rw [hentry]

theorem QuietsNobody.collects {ctlR : Int32} {s s' : Parking UInt32 EpollSet} {evs : List EpollEvent}
    (h : QuietsNobody ctlR s evs) (hc : CollectsOnly s s') : QuietsNobody ctlR s' evs := by
  intro ev hev hctl hrefused hin hnone x hx hfd
  rw [hc.waiting] at hx
  rw [hc.head] at hnone
  rw [(hc.opPool x).1.fd] at hfd
  rw [(hc.opPool x).1.waitEvents]
  exact h ev hev hctl hrefused hin hnone x hx hfd

theorem epollBackend_collects (ctlR : Int32) :
    Kept.Collects (epollBackend ctlR) epollRegistration (QuietsNobody ctlR) where
  hear := fun h _ => h
  collect := by
    intro s evs h hc
    show Kept _ _ (epollWaitReady ctlR s evs).1
    unfold epollWaitReady
    generalize ([] : List Slot) = ready
    induction evs generalizing s ready with
    | nil => exact h
    | cons ev evs ih =>
      rw [List.foldl_cons]
      have hone : QuietsNobody ctlR s [ev] := fun e he => hc e (by
        rw [List.mem_singleton.mp he]
        exact List.mem_cons_self)
      have hrest : QuietsNobody ctlR s evs := fun e he => hc e (List.mem_cons_of_mem _ he)
      apply ih (epollEvent_keeps ready h hone)
      exact hrest.collects (epollEvent_collectsOnly ctlR s ev ready)

/-- The kernel's mask of each descriptor covers what the ops parked on it wait for. -/
def KernelCovers (s : Parking UInt32 EpollSet) : Prop :=
  ∀ x ∈ s.ring.waiting, Covers ((s.env (s.ring.opPool x).fdIndex).getD 0)
    (epEventsOf (s.ring.opPool x).waitEvents)

instance (s : Parking UInt32 EpollSet) : Decidable (KernelCovers s) :=
  inferInstanceAs (Decidable (∀ x ∈ s.ring.waiting, _))

theorem epoll_set_covers_parked {ctlR : Int32} {n : ℕ} {e : UInt32} {k : EpollSet} {tr : List Empty}
    {s : Parking UInt32 EpollSet}
    (hr : Run (epollBackend ctlR).parking (fun s l => ParksOnce s l ∧ ClosesIdle s l ∧
      (epollBackend ctlR).Meets WidensInterest (QuietsNobody ctlR) s l)
      ((epollBackend ctlR).setupParking n e k) tr s) : KernelCovers s := by
  have h := Kept.run (epollBackend_keeps ctlR) (epollBackend_collects ctlR) (fun _ => trivial) hr
  intro x hx
  exact (h.busy x hx).trans (h.own x hx)

/-- A recv and a send on one descriptor, a stale mask the first arm runs into, and a pass that reports
both sides. -/
theorem epoll_set_covers_two :
    ∃ s : Parking UInt32 EpollSet, s.ring.waiting = [0, 1] ∧ KernelCovers s := by
  obtain ⟨tr, s, hr, hw⟩ := Run.of_exec (epollBackend 3).parking
    (fun s l => ParksOnce s l ∧ ClosesIdle s l ∧
      (epollBackend 3).Meets WidensInterest (QuietsNobody 3) s l)
    ((epollBackend 3).setupParking 2 4 fun f => if f = 5 then some epollOut else none)
    (fun _ s => s.ring.waiting = [0, 1])
    [.other 0 { sqe := { opcode := .recv, fd := 5 } }, .other 1 { sqe := { opcode := .send, fd := 5 } },
      .park 0 pollIn true {}, .park 1 pollOut true {},
      .pass [{ fd := 5, events := epollIn ||| epollOut }] [⟨.ran 7, true, {}⟩] 1,
      .pass [{ fd := 5, events := epollIn }] [] 2,
      .unpark 1, .park 0 pollIn true {}, .park 1 pollOut true {}] (by decide +kernel)
  exact ⟨s, hw, epoll_set_covers_parked hr⟩

/-- A refused MOD empties the cache, and the next arm replaces the mask of the op that was there; and
an event on the in side is quieted although the op on the out side waits for it too. -/
theorem epoll_loses_waiter :
    (∃ tr s, Run (epollBackend 3).parking (fun s l => ParksOnce s l ∧ ClosesIdle s l)
      ((epollBackend 3).setupParking 3 4 fun _ => none) tr s ∧ ¬ KernelCovers s) ∧
    ∃ tr s, Run (epollBackend 3).parking (fun s l => ParksOnce s l ∧ ClosesIdle s l)
      ((epollBackend 3).setupParking 3 4 fun _ => none) tr s ∧ ¬ KernelCovers s := by
  constructor
  · exact Run.of_exec _ _ _ (fun _ s => ¬ KernelCovers s)
      [.other 0 { sqe := { opcode := .recv, fd := 5 } },
        .other 1 { sqe := { opcode := .send, fd := 5 } },
        .other 2 { sqe := { opcode := .send, fd := 5 } }, .park 0 pollIn true {},
        .park 1 pollOut true { first := some 12 }, .park 2 pollOut true {}] (by decide +kernel)
  · exact Run.of_exec _ _ _ (fun _ s => ¬ KernelCovers s)
      [.other 0 { sqe := { opcode := .pollAdd, fd := 5 } }, .park 0 (pollIn ||| pollOut) true {},
        .pass [{ fd := 5, events := epollIn }] [] 3] (by decide +kernel)

end SlipstreamIO.Engine
