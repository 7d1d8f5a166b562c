import SlipstreamIO.ParkedMirror

/-! The tables of epoll, kqueue and dispatch over whole runs: they mirror the parked set as long as no
CLOSE names a descriptor with ops parked on it. -/
namespace SlipstreamIO.Engine

open ThreadedList Runs

section Collect
variable {κ ω : Type} {s : Parking κ ω}

/-- The slot function grows the table and changes a registration; the lists stay. -/
theorem collectsOnly_set {zero reg : κ} {st : FdTable κ} {fd : Int32} {env : ω}
    (hslot : s.st.slot zero fd true = some st) :
    CollectsOnly s { s with
      st := st.set fd.toInt.toNat { st.fds fd.toInt.toNat with reg := reg }, env := env } := by
  obtain ⟨-, hlt, hhead, -, -⟩ := FdTable.slot_spec hslot
  refine ⟨rfl, rfl, fun _ => ⟨SameParked.refl _, rfl⟩, fun f sd => ?_⟩
  rw [FdTable.head_set hlt]
  split
  · next hf => rw [FdEntry.side_with_reg, ← hhead f sd, hf, FdTable.head, if_pos hlt]
  · exact hhead f sd

theorem collectsOnly_env (s : Parking κ ω) (env : ω) : CollectsOnly s { s with env := env } :=
  ⟨rfl, rfl, fun _ => ⟨SameParked.refl _, rfl⟩, fun _ _ => rfl⟩

theorem foldl_collectsOnly {ε : Type} {step : Parking κ ω → ε → List Slot → Parking κ ω × List Slot}
    (hstep : ∀ s e ready, CollectsOnly s (step s e ready).1) (evs : List ε) (s : Parking κ ω)
    (ready : List Slot) :
    CollectsOnly s (evs.foldl (fun p e => step p.1 e p.2) (s, ready)).1 := by
  induction evs generalizing s ready with
  | nil => exact CollectsOnly.refl s
  | cons e evs ih =>
    rw [List.foldl_cons]
    exact (hstep s e ready).trans (ih _ _)

end Collect

theorem epollEvent_collectsOnly (ctlR : Int32) (s : Parking UInt32 EpollSet) (ev : EpollEvent)
    (ready : List Slot) : CollectsOnly s (epollEvent ctlR s ev ready).1 := by
  unfold epollEvent
  split
  · exact CollectsOnly.refl s
  split
  · exact CollectsOnly.refl s
  next st hslot =>
  simp only
  split
  · exact collectsOnly_set hslot
  · obtain ⟨-, -, hhead, -, -⟩ := FdTable.slot_spec hslot
    exact ⟨rfl, rfl, fun _ => ⟨SameParked.refl _, rfl⟩, hhead⟩

theorem epollBackend_lawful (ctlR : Int32) : (epollBackend ctlR).Lawful where
  hear s _ := CollectsOnly.refl s
  collect s evs := foldl_collectsOnly (epollEvent_collectsOnly ctlR) evs s []

/-- Keeping a socket error changes nothing the lists depend on. -/
theorem keepError_spec (r : Ring) (err : Int32) (ops : List Slot) :
    (keepError r err ops).waiting = r.waiting ∧ (keepError r err ops).opPoolN = r.opPoolN ∧
      ∀ x, SameParked (r.opPool x) ((keepError r err ops).opPool x) ∧
        ((keepError r err ops).opPool x).waitSlot = (r.opPool x).waitSlot := by
  induction ops generalizing r with
  | nil => exact ⟨rfl, rfl, fun x => ⟨SameParked.refl _, rfl⟩⟩
  | cons op ops ih =>
    obtain ⟨hw, hn, hpool⟩ := ih (r.inVault (·.setOp op { r.opPool op with socketError := err }))
    refine ⟨hw, hn, fun x => ?_⟩
    have hone : SameParked (r.opPool x)
        ((r.setOp op { r.opPool op with socketError := err }).opPool x) ∧
          ((r.setOp op { r.opPool op with socketError := err }).opPool x).waitSlot =
            (r.opPool x).waitSlot := by
      rw [Vault.setOp_opPool]
      split
      · next hx =>
        subst hx
        exact ⟨⟨rfl, rfl, rfl⟩, rfl⟩
      · exact ⟨SameParked.refl _, rfl⟩
    obtain ⟨⟨hn₁, hf₁, he₁⟩, hs₁⟩ := hone
    obtain ⟨⟨hn₂, hf₂, he₂⟩, hs₂⟩ := hpool x
    exact ⟨⟨hn₂.trans hn₁, hf₂.trans hf₁, he₂.trans he₁⟩, hs₂.trans hs₁⟩

theorem kqueueEvent_collectsOnly (ctlR : Int32) (s : Parking KqReg KnoteSet) (ev : KqEvent)
    (ready : List Slot) : CollectsOnly s (kqueueEvent ctlR s ev ready).1 := by
  unfold kqueueEvent
  split
  · exact CollectsOnly.refl s
  split
  · exact CollectsOnly.refl s
  next st hslot =>
  simp only
  -- the socket error first, then the table
  have hring (r : Ring) (hr : r = s.ring ∨ ∃ ops, r = keepError s.ring ev.socketError ops) :
      CollectsOnly s { s with ring := r } := by
    rcases hr with rfl | ⟨ops, rfl⟩
    · exact CollectsOnly.refl s
    · obtain ⟨hw, hn, hpool⟩ := keepError_spec s.ring ev.socketError ops
      exact ⟨hw, hn, hpool, fun _ _ => rfl⟩
  have hkept := hring (if ev.filter = .output ∧ ev.socketError ≠ 0 then
      keepError s.ring ev.socketError ((gather s.ring ((st.fds ev.fdIndex).side ev.filter) ready).drop
        ready.length) else s.ring) (by
    split
    · exact Or.inr ⟨_, rfl⟩
    · exact Or.inl rfl)
  split
  · exact hkept.trans (collectsOnly_set (s := { s with ring := _ }) hslot)
  · obtain ⟨-, -, hhead, -, -⟩ := FdTable.slot_spec hslot
    exact hkept.trans ⟨rfl, rfl, fun _ => ⟨SameParked.refl _, rfl⟩, hhead⟩

theorem kqueueBackend_lawful (ctlR : Int32) : (kqueueBackend ctlR).Lawful where
  hear s _ := CollectsOnly.refl s
  collect s evs := foldl_collectsOnly (kqueueEvent_collectsOnly ctlR) evs s []

theorem dspReport_collectsOnly (s : Parking DspReg DspState) (fd : ℕ) (side : Side) :
    CollectsOnly s (dspReport s fd side) := by
  unfold dspReport
  split
  · next hlt =>
    refine ⟨rfl, rfl, fun _ => ⟨SameParked.refl _, rfl⟩, fun f sd => ?_⟩
    simp only
    rw [FdTable.head_set hlt]
    split
    · next hf => rw [FdEntry.side_with_reg, hf, FdTable.head, if_pos hlt]
    · rfl
  · exact CollectsOnly.refl s

theorem dspChain_collectsOnly (s : Parking DspReg DspState) (chain : List ℕ) (ready : List Slot) :
    CollectsOnly s (dspChain s chain ready).1 := by
  induction chain generalizing s ready with
  | nil => exact ⟨rfl, rfl, fun _ => ⟨SameParked.refl _, rfl⟩, fun _ _ => rfl⟩
  | cons fd chain ih =>
    unfold dspChain
    simp only
    split
    · exact ⟨rfl, rfl, fun _ => ⟨SameParked.refl _, rfl⟩, fun _ _ => rfl⟩
    · refine CollectsOnly.trans ?_ (ih _ _)
      refine ⟨rfl, rfl, fun _ => ⟨SameParked.refl _, rfl⟩, fun f sd => ?_⟩
      by_cases hlt : fd < s.st.n
      · rw [FdTable.head_set hlt]
        split
        · next hf => rw [FdEntry.side_with_reg, hf, FdTable.head, if_pos hlt]
        · rfl
      · unfold FdTable.head FdTable.set
        by_cases hf : f < s.st.n
        · have hne : f ≠ fd := by omega
          simp [hf, hne]
        · simp [hf]

theorem dspHear_collectsOnly (s : Parking DspReg DspState) (news : List DspNews) :
    CollectsOnly s (dspHear s news) := by
  induction news generalizing s with
  | nil => exact CollectsOnly.refl s
  | cons n news ih =>
    unfold dspHear
    rw [List.foldl_cons]
    cases n with
    | report fd side => exact (dspReport_collectsOnly s fd side).trans (ih _)
    | done op res => exact (collectsOnly_env s _).trans (ih _)
    | poke => exact (collectsOnly_env s _).trans (ih _)

theorem dspCollect_collectsOnly (s : Parking DspReg DspState) : CollectsOnly s (dspCollect s).1 := by
  have hchain (s : Parking DspReg DspState) (p : Prop) [Decidable p] :
      CollectsOnly s (if p then dspChain s s.env.chain [] else (s, [])).1 := by
    split
    · exact dspChain_collectsOnly _ _ _
    · exact CollectsOnly.refl _
  exact ((collectsOnly_env s _).trans (hchain _ _)).trans (collectsOnly_env _ _)

theorem dispatchBackend_lawful : dispatchBackend.Lawful where
  hear := dspHear_collectsOnly
  collect s news := by
    have hheard := dspHear_collectsOnly s news
    show CollectsOnly s (dspWait s news).1
    unfold dspWait
    dsimp only
    split
    · exact hheard
    · exact (hheard.trans (collectsOnly_env _ _)).trans (dspCollect_collectsOnly _)

theorem tables_mirror_parked (ctlR : Int32) {n : ℕ} {e : UInt32} {tr : List Empty} :
    (∀ {k : EpollSet} {s}, Run (epollBackend ctlR).parking (fun s l => ParksOnce s l ∧ ClosesIdle s l)
      ((epollBackend ctlR).setupParking n e k) tr s → Mirrored s) ∧
    (∀ {k : KnoteSet} {s}, Run (kqueueBackend ctlR).parking (fun s l => ParksOnce s l ∧ ClosesIdle s l)
      ((kqueueBackend ctlR).setupParking n e k) tr s → Mirrored s) ∧
    ∀ {d : DspState} {s}, Run dispatchBackend.parking (fun s l => ParksOnce s l ∧ ClosesIdle s l)
      (dispatchBackend.setupParking n e d) tr s → Mirrored s := by
  refine ⟨fun hr => ?_, fun hr => ?_, fun hr => ?_⟩
  · have h := parking_run_inStep (epollBackend_lawful ctlR) hr
    exact ⟨h.lists, h.fd⟩
  · have h := parking_run_inStep (kqueueBackend_lawful ctlR) hr
    exact ⟨h.lists, h.fd⟩
  · have h := parking_run_inStep dispatchBackend_lawful hr
    exact ⟨h.lists, h.fd⟩

/-- Two ops on the two sides of a descriptor, and a CLOSE of another one. -/
theorem two_parked_run {κ ω A E : Type} (b : ReadyBackend κ ω A E) (env : ω) (a : A)
    (hrun : (b.parking.exec (fun s l => ParksOnce s l ∧ ClosesIdle s l) [] (b.setupParking 2 4 env)
      [.other 0 { sqe := { opcode := .recv, fd := 5 } }, .other 1 { sqe := { opcode := .send, fd := 5 } },
        .park 0 pollIn true a, .park 1 pollOut true a, .close { opcode := .close, fd := 6 } true]).any
      (fun p => decide (p.2.ring.waiting = [0, 1])) = true) :
    ∃ tr s, Run b.parking (fun s l => ParksOnce s l ∧ ClosesIdle s l) (b.setupParking 2 4 env) tr s ∧
      s.ring.waiting = [0, 1] :=
  Run.of_exec b.parking (fun s l => ParksOnce s l ∧ ClosesIdle s l) (b.setupParking 2 4 env)
    (fun _ s => s.ring.waiting = [0, 1]) _ hrun

theorem tables_mirror_two_parked :
    (∃ s : Parking UInt32 EpollSet, s.ring.waiting = [0, 1] ∧ Mirrored s) ∧
    (∃ s : Parking KqReg KnoteSet, s.ring.waiting = [0, 1] ∧ Mirrored s) ∧
    ∃ s : Parking DspReg DspState, s.ring.waiting = [0, 1] ∧ Mirrored s := by
  obtain ⟨_, s, hs, hw⟩ := two_parked_run (epollBackend 3) (fun _ => none) {} (by decide +kernel)
  obtain ⟨_, t, ht, hv⟩ := two_parked_run (kqueueBackend 3) (fun _ _ => false) {} (by decide +kernel)
  obtain ⟨_, u, hu, hx⟩ := two_parked_run dispatchBackend {} true (by decide +kernel)
  exact ⟨⟨s, hw, (tables_mirror_parked 3).1 hs⟩, ⟨t, hv, (tables_mirror_parked 3).2.1 ht⟩,
    ⟨u, hx, (tables_mirror_parked 3).2.2 hu⟩⟩

/-- An op parked on a descriptor that is then closed. -/
theorem closed_under_op {κ ω A E : Type} (b : ReadyBackend κ ω A E) (env : ω) (a : A)
    (hrun : (b.parking.exec (fun s l => ParksOnce s l) [] (b.setupParking 2 4 env)
      [.other 0 { sqe := { opcode := .recv, fd := 5 }, waitEvents := pollIn }, .park 0 pollIn true a,
        .close { opcode := .close, fd := 5 } true]).any (fun p => decide (0 ∈ p.2.ring.waiting ∧
          (p.2.ring.opPool 0).sqe.fd.toInt = 5 ∧ (p.2.ring.opPool 0).side = .input ∧
            p.2.st.head 5 .input = none)) = true) :
    ∃ tr s, Run b.parking ParksOnce (b.setupParking 2 4 env) tr s ∧ ¬ Mirrored s := by
  obtain ⟨tr, s, hr, hw, hf, hs, hnone⟩ := Run.of_exec b.parking (fun s l => ParksOnce s l)
    (b.setupParking 2 4 env) (fun _ s => 0 ∈ s.ring.waiting ∧ (s.ring.opPool 0).sqe.fd.toInt = 5 ∧
      (s.ring.opPool 0).side = .input ∧ s.st.head 5 .input = none) _ hrun
  refine ⟨tr, s, hr, fun hm => ?_⟩
  obtain ⟨l, hl, hmem⟩ := hm.1 5 .input
  rw [hnone] at hl
  have hin := (hmem 0).mpr ⟨hw, hf, hs⟩
  cases l with
  | nil => cases hin
  | cons x l => cases hl.1

/-- A plain CLOSE of a descriptor with a parked recv: the op stays in `waiting[]`, on no list. -/
theorem closed_descriptor_strands_op :
    (∃ tr s, Run (epollBackend 3).parking ParksOnce
      ((epollBackend 3).setupParking 2 4 fun _ => none) tr s ∧ ¬ Mirrored s) ∧
    (∃ tr s, Run (kqueueBackend 3).parking ParksOnce
      ((kqueueBackend 3).setupParking 2 4 fun _ _ => false) tr s ∧ ¬ Mirrored s) ∧
    ∃ tr s, Run dispatchBackend.parking ParksOnce (dispatchBackend.setupParking 2 4 {}) tr s ∧
      ¬ Mirrored s :=
  ⟨closed_under_op _ _ {} (by decide +kernel), closed_under_op _ _ {} (by decide +kernel),
    closed_under_op _ _ true (by decide +kernel)⟩

end SlipstreamIO.Engine
