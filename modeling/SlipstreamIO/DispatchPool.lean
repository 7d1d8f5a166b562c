import SlipstreamIO.DispatchWakes

/-! The pool behind the dispatch backend: an op is parked, or back from a queue, or with the core, so
a wait with a parked op always has room to answer it. -/
namespace SlipstreamIO.Engine

open ThreadedList Runs IndexedBag

/-- What comes back off the queues: ops of the pool that are not parked, each once. -/
def ComesBack (r : Ring) : List Slot → List DspNews → Prop
  | _, [] => True
  | back, .done op _ :: news =>
    op < r.opPoolN ∧ op ∉ r.waiting ∧ op ∉ back ∧ ComesBack r (op :: back) news
  | back, .report _ _ :: news | back, .poke :: news => ComesBack r back news

/-- An op of the pool is in one place: parked, back from a queue, or with the core. -/
def OnePlace (s : Parking DspReg DspState) : ParkLabel Bool (List DspNews) → Prop
  | .park op _ _ _ => op < s.ring.opPoolN ∧ op ∉ s.env.done.map Prod.fst
  | .hear news | .pass news _ _ => ComesBack s.ring (s.env.done.map Prod.fst) news
  | _ => True

def comesBackDecidable (r : Ring) : ∀ (back : List Slot) (news : List DspNews),
    Decidable (ComesBack r back news)
  | _, [] => isTrue trivial
  | back, .done op _ :: news =>
    have := comesBackDecidable r (op :: back) news
    inferInstanceAs (Decidable (op < r.opPoolN ∧ op ∉ r.waiting ∧ op ∉ back ∧ _))
  | back, .report _ _ :: news | back, .poke :: news => comesBackDecidable r back news

instance (s : Parking DspReg DspState) : ∀ l : ParkLabel Bool (List DspNews), Decidable (OnePlace s l)
  | .park op _ _ _ => inferInstanceAs (Decidable (op < _ ∧ op ∉ s.env.done.map Prod.fst))
  | .hear news => comesBackDecidable s.ring (s.env.done.map Prod.fst) news
  | .pass news _ _ => comesBackDecidable s.ring (s.env.done.map Prod.fst) news
  | .other _ _ | .fixed _ | .unpark _ | .close _ _ | .gone _ => isTrue trivial

structure PoolSlots (s : Parking DspReg DspState) : Prop extends Bagged s where
  back : (s.env.done.map Prod.fst).Nodup
  apart : ∀ op ∈ s.env.done.map Prod.fst, op < s.ring.opPoolN ∧ op ∉ s.ring.waiting
  parked : ∀ op ∈ s.ring.waiting, op < s.ring.opPoolN

namespace PoolSlots
variable {s s' : Parking DspReg DspState}

/-- While an op is parked there is room for one more completion. -/
theorem room (h : PoolSlots s) {x : Slot} (hx : x ∈ s.ring.waiting) :
    s.env.done.length < s.ring.opPoolN := by
  have hnd : (x :: s.env.done.map Prod.fst).Nodup :=
    List.nodup_cons.mpr ⟨fun hin => (h.apart x hin).2 hx, h.back⟩
  have hsub : x :: s.env.done.map Prod.fst ⊆ List.range s.ring.opPoolN := by
    intro y hy
    rw [List.mem_range]
    rcases List.mem_cons.mp hy with rfl | hy
    · exact h.parked y hx
    · exact (h.apart y hy).1
  have hlen := (List.subperm_of_subset hnd hsub).length_le
  rw [List.length_cons, List.length_map, List.length_range] at hlen
  omega

/-- Fewer ops parked, and the same ones back. -/
theorem mono (h : PoolSlots s) (hbag : Bagged s') (hn : s'.ring.opPoolN = s.ring.opPoolN)
    (hdone : s'.env.done = s.env.done) (hw : ∀ x ∈ s'.ring.waiting, x ∈ s.ring.waiting) :
    PoolSlots s' := by
  refine ⟨hbag, ?_, ?_, ?_⟩
  · rw [hdone]
    exact h.back
  · intro op hop
    rw [hdone] at hop
    rw [hn]
    exact ⟨(h.apart op hop).1, fun hin => (h.apart op hop).2 (hw op hin)⟩
  · intro op hop
    rw [hn]
    exact h.parked op (hw op hop)

theorem collects (h : PoolSlots s) (hc : CollectsOnly s s') (hdone : s'.env.done = s.env.done) :
    PoolSlots s' := by
  have hbag : Bagged s' := h.toBagged.congr hc.waiting hc.opPoolN (fun x _ => (hc.opPool x).2)
  refine h.mono hbag hc.opPoolN hdone (fun x hx => ?_)
  rwa [hc.waiting] at hx

theorem unpark (h : PoolSlots s) (op : Slot) : PoolSlots (dispatchBackend.unpark s op) := by
  obtain ⟨hbag, hmem⟩ := h.toBagged.unpark (b := dispatchBackend) op
  have henv := (ReadyBackend.unpark_registers dispatchBackend s op).1
  have hn : (dispatchBackend.unpark s op).ring.opPoolN = s.ring.opPoolN := by
    rcases ReadyBackend.unpark_spec dispatchBackend s op with ⟨-, hval⟩ | ⟨_, -, -, -, hn, -, -⟩
    · rw [hval]
    · exact hn
  exact h.mono hbag hn (by rw [henv]) (fun x hx => ((hmem x).mp hx).1)

theorem setOp (h : PoolSlots s) {op : Slot} (hop : op ∉ s.ring.waiting) (o : EngOp) :
    PoolSlots { s with ring := s.ring.inVault (·.setOp op o) } :=
  h.mono (h.toBagged.setOp hop o) rfl rfl (fun _ hx => hx)

theorem dspRegister_env {e : FdEntry DspReg} {o : EngOp} {a ok : Bool} {r : DspReg} {d d' : DspState}
    (h : dspRegister e o a d = (ok, r, d')) : d' = d := by
  unfold dspRegister at h
  split at h <;> cases h <;> rfl

theorem park (h : PoolSlots s) {op : Slot} (hop : op ∉ s.ring.waiting) (hn : op < s.ring.opPoolN)
    (hback : op ∉ s.env.done.map Prod.fst) {grown ok : Bool} {a : Bool}
    (hpark : dispatchBackend.park s op grown a = (s', ok)) : PoolSlots s' := by
  obtain ⟨hbag, hmem⟩ := h.toBagged.park hop hpark
  obtain ⟨hpn, -, -, -⟩ := ReadyBackend.park_spec hpark
  have henv : s'.env = s.env := by
    rcases ReadyBackend.park_registers hpark with ⟨-, henv, -⟩ | ⟨hreg, -⟩
    · exact henv
    · exact dspRegister_env hreg
  refine ⟨hbag, ?_, ?_, ?_⟩
  · rw [henv]
    exact h.back
  · intro y hy
    rw [henv] at hy
    rw [hpn]
    refine ⟨(h.apart y hy).1, fun hin => ?_⟩
    rcases (hmem y).mp hin with hin | ⟨-, rfl⟩
    · exact (h.apart y hy).2 hin
    · exact hback hy
  · intro y hy
    rw [hpn]
    rcases (hmem y).mp hy with hy | ⟨-, rfl⟩
    · exact h.parked y hy
    · exact hn

theorem hear (h : PoolSlots s) {news : List DspNews} {back : List Slot}
    (hback : ∀ op ∈ s.env.done.map Prod.fst, op ∈ back) (hnews : ComesBack s.ring back news) :
    PoolSlots (dspHear s news) := by
  induction news generalizing s back with
  | nil => exact h
  | cons n news ih =>
    unfold dspHear
    rw [List.foldl_cons]
    have hframe {r r' : Ring} (hn : r'.opPoolN = r.opPoolN) (hw : r'.waiting = r.waiting) :
        ∀ back, ComesBack r back news → ComesBack r' back news := by
      clear ih hnews
      induction news with
      | nil => exact fun _ _ => trivial
      | cons n news ih =>
        intro back hc
        cases n with
        | report fd sd => exact ih back hc
        | poke => exact ih back hc
        | done op res =>
          obtain ⟨hlt, hnw, hnb, hrest⟩ := hc
          exact ⟨by rwa [hn], by rwa [hw], hnb, ih _ hrest⟩
    cases n with
    | report fd sd =>
      have hdone : (dspReport s fd sd).env.done = s.env.done := by
        unfold dspReport
        split
        · rw [DspState.knock_done]
          split <;> rfl
        · rfl
      have hc := dspReport_collectsOnly s fd sd
      refine @ih _ (h.collects hc hdone) back ?_ (hframe hc.opPoolN hc.waiting back hnews)
      show ∀ op ∈ (dspReport s fd sd).env.done.map Prod.fst, op ∈ back
      rwa [hdone]
    | poke =>
      have hdone : (dspPoke s).env.done = s.env.done := DspState.knock_done _
      refine @ih _ (h.collects (collectsOnly_env s _) hdone) back ?_ hnews
      show ∀ op ∈ (dspPoke s).env.done.map Prod.fst, op ∈ back
      rwa [hdone]
    | done op res =>
      obtain ⟨hlt, hnw, hnb, hrest⟩ := hnews
      have hdone : (dspDone s op res).env.done = s.env.done ∨
          (dspDone s op res).env.done = s.env.done ++ [(op, res)] := by
        unfold dspDone
        dsimp only
        rw [DspState.knock_done]
        split
        · exact Or.inr rfl
        · exact Or.inl rfl
      rcases hdone with hdone | hdone
      · refine @ih _ (h.collects (collectsOnly_env s _) hdone) (op :: back) ?_ hrest
        intro y hy
        have hy : y ∈ (dspDone s op res).env.done.map Prod.fst := hy
        rw [hdone] at hy
        exact List.mem_cons_of_mem _ (hback y hy)
      · have hslots : (dspDone s op res).env.done.map Prod.fst =
            s.env.done.map Prod.fst ++ [op] := by
          rw [hdone, List.map_append]
          rfl
        have hnew : op ∉ s.env.done.map Prod.fst := fun hin => hnb (hback op hin)
        refine @ih (dspDone s op res) ⟨?_, ?_, ?_, h.parked⟩ (op :: back) ?_ hrest
        · exact h.toBagged.congr rfl rfl (fun _ _ => rfl)
        · rw [hslots, List.nodup_append]
          refine ⟨h.back, List.nodup_singleton _, ?_⟩
          intro y hy z hz hyz
          rw [List.mem_singleton.mp hz] at hyz
          exact hnew (hyz ▸ hy)
        · intro y hy
          rw [hslots, List.mem_append, List.mem_singleton] at hy
          rcases hy with hy | rfl
          · exact h.apart y hy
          · exact ⟨hlt, hnw⟩
        · intro y hy
          rw [hslots, List.mem_append, List.mem_singleton] at hy
          rcases hy with hy | rfl
          · exact List.mem_cons_of_mem _ (hback y hy)
          · exact List.mem_cons_self

/-- A retry of an op of the pool, when no completion waits. -/
theorem retry (h : PoolSlots s) (hnone : s.env.done = []) {op : Slot} (hop : op < s.ring.opPoolN)
    (t : Retry Bool) : PoolSlots (dispatchBackend.retry s op t).1 ∧
      (dispatchBackend.retry s op t).1.env.done = [] ∧
      (dispatchBackend.retry s op t).1.ring.opPoolN = s.ring.opPoolN := by
  have h₁ := h.unpark op
  have hout : op ∉ (dispatchBackend.unpark s op).ring.waiting :=
    fun hm => (((h.toBagged.unpark (b := dispatchBackend) op).2 op).mp hm).2 rfl
  have henv := (ReadyBackend.unpark_registers dispatchBackend s op).1
  have hn : (dispatchBackend.unpark s op).ring.opPoolN = s.ring.opPoolN := by
    rcases ReadyBackend.unpark_spec dispatchBackend s op with ⟨-, hval⟩ | ⟨_, -, -, -, hn, -, -⟩
    · rw [hval]
    · exact hn
  rw [← henv] at hnone
  rw [← hn] at hop ⊢
  unfold ReadyBackend.retry
  generalize dispatchBackend.unpark s op = s₁ at *
  cases t.verdict with
  | ran res => exact ⟨h₁, hnone, rfl⟩
  | file => exact ⟨h₁, hnone, rfl⟩
  | park events =>
    have h₂ := h₁.setOp hout { s₁.ring.opPool op with waitEvents := events }
    have hparked (ok : Bool) (s' : Parking DspReg DspState) (hp : dispatchBackend.park
        { s₁ with ring := s₁.ring.setWaitEvents op events } op t.grown t.answers = (s', ok)) :
        PoolSlots s' ∧ s'.env.done = [] ∧ s'.ring.opPoolN = s₁.ring.opPoolN := by
      have hback : op ∉ s₁.env.done.map Prod.fst := by
        rw [hnone]
        simp
      refine ⟨h₂.park hout hop hback hp, ?_, (ReadyBackend.park_spec hp).1⟩
      rcases ReadyBackend.park_registers hp with ⟨-, henv, -⟩ | ⟨hreg, -⟩
      · rw [henv]
        exact hnone
      · rw [dspRegister_env hreg]
        exact hnone
    simp only
    split
    · next hp => exact hparked _ _ hp
    · next hp => exact hparked _ _ hp

/-- A wait pass: the completions are handed out before the ready ops are retried. -/
theorem pass (h : PoolSlots s) (hk : Kept dispatchBackend dispatchRegistration s)
    {news : List DspNews} (hnews : ComesBack s.ring (s.env.done.map Prod.fst) news)
    (retries : List (Retry Bool)) (max : ℕ) :
    PoolSlots (dispatchBackend.slipPosixFinishReady (dspWait s news).1 (dspWait s news).2.2 retries
      max []).1 := by
  have hheard := h.hear (fun _ h => h) hnews
  have hkept := dspHear_keeps hk news
  unfold dspWait
  dsimp only
  split
  · exact hheard
  set s₁ : Parking DspReg DspState := { dspHear s news with
    env := { (dspHear s news).env with sem := (dspHear s news).env.sem - 1 } } with hs₁
  have hin : InStep s₁ := hkept.inStep.collects (collectsOnly_env _ _)
  have hc := dspCollect_collectsOnly s₁
  obtain ⟨pre, post, hchain, henv, -, -, hready, -⟩ := dspCollect_spec (hkept.every 0).2.2.chain
    (s := s₁)
  have hdone : (dspCollect s₁).1.env.done = [] := by
    rw [henv]
    unfold DspState.shut
    dsimp only
    split <;> rfl
  have hslots : PoolSlots (dspCollect s₁).1 := by
    refine ⟨hheard.toBagged.congr hc.waiting hc.opPoolN (fun x _ => (hc.opPool x).2), ?_, ?_, ?_⟩
    · rw [hdone]
      exact List.nodup_nil
    · rw [hdone]
      simp
    · intro op hop
      rw [hc.waiting] at hop
      rw [hc.opPoolN]
      exact hheard.parked op hop
  have hmem : ∀ op ∈ (dspCollect s₁).2.2, op < (dspCollect s₁).1.ring.opPoolN := by
    intro op hop
    rw [hready] at hop
    obtain ⟨f, hf, hop⟩ := List.mem_flatMap.mp hop
    have hbehind := hin.chain_behind (fun f => (hkept.every f).1) (f := f)
      (by rw [hchain]; exact List.mem_append_left _ hf)
    rw [hc.opPoolN]
    exact hheard.parked op ((hbehind.2 op).mp hop).1
  generalize (dspCollect s₁).1 = s₂ at *
  -- the retries keep it as long as no completion waits, and none comes in between
  have hall := @Bagged.finishReady_of_retry _ _ _ _ dispatchBackend
    (fun s => PoolSlots s ∧ s.env.done = [] ∧ s.ring.opPoolN = s₂.ring.opPoolN) (dspCollect s₁).2.2 (by
      intro s h op hop t
      obtain ⟨hp, hd, hn⟩ := h
      obtain ⟨hp', hd', hn'⟩ := hp.retry hd (by rw [hn]; exact hmem op hop) t
      exact ⟨hp', hd', hn'.trans hn⟩) s₂ ⟨hslots, hdone, rfl⟩ retries max []
  exact hall.1

end PoolSlots

theorem dispatch_close_env (s : Parking DspReg DspState) (sqe : Sqe) (grown : Bool) :
    (dispatchBackend.close s sqe grown).env = s.env := by
  have hfd (s : Parking DspReg DspState) (fd : Int32) :
      (dispatchBackend.closeFd s fd grown).env = s.env := by
    have hforget := (ReadyBackend.forget_registers dispatchBackend s fd grown).1
    unfold ReadyBackend.closeFd
    dsimp only
    split <;> exact hforget
  unfold ReadyBackend.close
  split
  · dsimp only
    split
    · rfl
    · exact hfd _ _
  · exact hfd _ _

/-- After every run the parked ops have their sources and the wait has room for them. -/
theorem dispatch_run {n : ℕ} {e : UInt32} {tr : List Empty} {s : Parking DspReg DspState}
    (hr : Run dispatchBackend.parking (fun s l => ParksOnce s l ∧ ClosesIdle s l ∧ OnePlace s l)
      (dispatchBackend.setupParking n e {}) tr s) :
    Kept dispatchBackend dispatchRegistration s ∧ PoolSlots s := by
  refine hr.invariant
    (fun _ s => Kept dispatchBackend dispatchRegistration s ∧ PoolSlots s) ⟨?_, ?_⟩ ?_
  · refine Kept.setup (fun f => ⟨by simp [dispatchBackend], fun sd hsd => ?_, ?_⟩)
    · cases sd <;> cases hsd
    · exact ⟨List.nodup_nil, rfl, by simp⟩
  · refine ⟨(setupParking_inStep n e _).toBagged, List.nodup_nil, ?_, ?_⟩
    · intro op hop
      cases hop
    · intro op hop
      cases hop
  rintro tr s l s' - ⟨hk, h⟩ ⟨hl, hi, ho⟩ hs
  cases hs
  refine ⟨hk.step dispatchBackend_keeps (dispatchBackend_collects (fun _ _ => True)) hl hi
    (ReadyBackend.meets_of_forall (fun _ _ _ => trivial) (by cases l <;> trivial)), ?_⟩
  cases l with
  | other op o => exact h.setOp hl o
  | fixed table => exact h.mono (h.toBagged.congr rfl rfl (fun _ _ => rfl)) rfl rfl (fun _ hx => hx)
  | park op events grown a =>
    have h₁ := h.setOp hl { s.ring.opPool op with waitEvents := events }
    exact h₁.park hl ho.1 ho.2 (Prod.mk.eta).symm
  | unpark op => exact h.unpark op
  | pass news retries max => exact h.pass hk ho retries max
  | close sqe grown =>
    obtain ⟨hw, hn, -⟩ := ReadyBackend.close_frame dispatchBackend s sqe grown
    refine h.mono (h.toBagged.close sqe grown) hn ?_ (fun x hx => ?_)
    · show (dispatchBackend.close s sqe grown).env.done = _
      rw [dispatch_close_env]
    · have hx : x ∈ (dispatchBackend.close s sqe grown).ring.waiting := hx
      rwa [hw] at hx
  | gone fd =>
    show PoolSlots (if fd < 0 then s else { s with env := s.env })
    split <;> exact h
  | hear news => exact h.hear (fun _ h => h) ho

end SlipstreamIO.Engine
