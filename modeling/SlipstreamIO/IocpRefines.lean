import SlipstreamIO.IocpPort

/-! The completion port backend keeps the contract of a backend: every run of it is a run of the engine
over one, with no condition on the run. -/
namespace SlipstreamIO.Engine

open Runs

/-- The contract of a backend that has no threads of its own and cancels nothing, and writes to no field of
an op but `be_source`, which stands with the backend. -/
def OnThread (s : Core) (l : CoreLabel) : Prop :=
  Keeps s l ∧ match l with
    | .write r => r.toVault = s.ring.toVault
    | .cancelHeld _ _ | .cancelQueued _ _ | .offFinish _ _ _ | .offPost _ _ => False
    | _ => True

theorem emit_onThread (s : Core) (u : UInt64) (res : Int32) (fl : UInt32) (reads : List ℕ) :
    Run coreMachine OnThread s [] { s with ring := s.ring.inVault (·.slipEngineEmit u res fl reads) } := by
  have hrun : Run coreMachine OnThread s ([] ++ s.events (.emit u res fl reads)) _ :=
    Run.start.next (show OnThread s (.emit u res fl reads) from ⟨trivial, trivial⟩) rfl
  exact hrun

namespace IocpState

/-- An op's `be_source` is the wrapper that carries it. -/
def Sourced (st : IocpState) : Prop :=
  ∀ x w, st.beSource x = some w ↔ ∃ o, st.wrappers w = some o ∧ o.op = x

/-- What came of an op that is issued: with no answer a wrapper carries it, and else nothing does. -/
structure Carries (st : IocpState) (op : Slot) (p : IocpState × Option Int32) : Prop where
  sourced : p.1.Sourced
  carried : ∀ x, (p.1.beSource x).isSome = true ↔ (st.beSource x).isSome = true ∨ x = op ∧ p.2 = none
  lost : p.1.lost = st.lost
  dropped : p.1.dropped = st.dropped

section Sources
variable {st st' : IocpState} {hand : List ℕ} {o : IocpOp} {w : ℕ} {op : Slot} {res : Int32}

theorem Sourced.congr (h : st.Sourced) (hw : st'.wrappers = st.wrappers)
    (hs : st'.beSource = st.beSource) : st'.Sourced := by
  intro x w
  rw [hw, hs]
  exact h x w

/-- An op that was answered at once is carried by nothing, as before. -/
theorem Sourced.unissued (h : st.Sourced) (hw : st'.wrappers = st.wrappers)
    (hs : st'.beSource = st.beSource) (hl : st'.lost = st.lost) (hd : st'.dropped = st.dropped) :
    st.Carries op (st', some res) :=
  ⟨h.congr hw hs, fun x => by simp [hs], hl, hd⟩

theorem setSource_none (hop : st.beSource op = none) : (st.setSource op none).beSource = st.beSource := by
  ext1 x
  simp only [IocpState.setSource]
  split
  · next hx => rw [hx, hop]
  · rfl

theorem Sourced.issue (h : st.Sourced) (hown : st.Owns hand) (hop : st.beSource o.op = none)
    (refused : Option UInt32) : st.Carries o.op (st.issue o refused) := by
  cases refused with
  | some e =>
    refine h.unissued hown.wrappers_spoiled ?_ rfl rfl
    rw [← setSource_none hop]
    ext1 x
    simp only [IocpState.free, IocpState.setSource, IocpState.calloc]
    split <;> rfl
  | none =>
    refine ⟨fun x w => ?_, fun x => ?_, rfl, rfl⟩
    · show (if x = o.op then some st.made else st.beSource x) = some w ↔
        ∃ o', (if w = st.made then some o else st.wrappers w) = some o' ∧ o'.op = x
      by_cases hw : w = st.made
      · subst hw
        rw [if_pos rfl]
        constructor
        · intro hx
          split at hx
          · next hx' => exact ⟨o, rfl, hx'.symm⟩
          · -- no source points to an address that is still to be made
            obtain ⟨o', ho', -⟩ := (h x _).mp hx
            cases hown.unmade.symm.trans ho'
        · rintro ⟨o', ho', rfl⟩
          obtain rfl := Option.some.inj ho'
          exact if_pos rfl
      · rw [if_neg hw]
        split
        · next hx =>
          subst hx
          rw [← h, hop, Option.some.injEq]
          exact iff_of_false (Ne.symm hw) (by rintro ⟨⟩)
        · exact h x w
    · show (if x = o.op then some st.made else st.beSource x).isSome = true ↔ _
      split
      · next hx => exact iff_of_true rfl (.inr ⟨hx, rfl⟩)
      · next hx => simp [hx]

theorem Sourced.arms (h : st.Sourced) (hown : st.Owns []) (hop : st.beSource op = none) (s : Sqe)
    (a : WinAnswers) : st.Carries op (st.iocpArmAccept s op a) := by
  unfold iocpArmAccept
  split
  · exact h.unissued rfl rfl rfl rfl
  split
  · exact h.unissued rfl rfl rfl rfl
  next fd _ =>
  dsimp only
  split
  · exact h.unissued rfl rfl rfl rfl
  have hmade : Sourced { st with sockets := st.sockets + 1 } := h.congr rfl rfl
  have hissue := hmade.issue (o := ⟨op, .accept ⟨fd, st.sockets⟩
    (s.ioprio &&& ioringAcceptMultishot ≠ 0) s.fileIndex⟩) hown.makes hop a.refused
  split
  · next st' heq =>
    rw [heq] at hissue
    exact ⟨hissue.sourced, hissue.carried, hissue.lost, hissue.dropped⟩
  · next st' err heq =>
    rw [heq] at hissue
    exact ⟨hissue.sourced, hissue.carried, hissue.lost, hissue.dropped⟩

theorem Sourced.issues (h : st.Sourced) (hown : st.Owns []) (hop : st.beSource op = none) (s : Sqe)
    (a : WinAnswers) : st.Carries op (st.iocpIssue s op a) := by
  have hcall (kind : IocpKind) : st.Carries op (st.issue ⟨op, kind⟩ a.refused) :=
    h.issue (o := ⟨op, kind⟩) hown hop _
  have hmsg : st.Carries op (st.iocpIssueMsg s ⟨op, .io⟩ a) := by
    unfold iocpIssueMsg
    split
    · exact h.unissued hown.wrappers_spoiled rfl rfl rfl
    split
    · exact hcall .io
    · exact h.unissued hown.wrappers_spoiled (setSource_none hop) rfl rfl
  unfold iocpIssue
  split
  · exact h.unissued rfl rfl rfl rfl
  split
  · exact hcall .connect
  · exact hcall .poll
  · exact hmsg
  · exact hmsg
  · exact hcall .io

theorem Sourced.executes (h : st.Sourced) (hown : st.Owns []) (hop : st.beSource op = none) (r : Ring)
    (a : WinAnswers) : st.Carries op (st.iocpExecute r op a) := by
  unfold iocpExecute
  dsimp only
  split
  · exact h.unissued rfl rfl rfl rfl
  split
  · exact h.arms hown hop _ _
  split
  · exact h.unissued rfl rfl rfl rfl
  · exact h.issues hown hop _ _

/-- An answer is about the sockets alone. -/
theorem iocpAnswer_eq (st : IocpState) (r : Ring) (o : IocpOp) (answer : Except UInt32 UInt32) :
    ∃ closed given, (st.iocpAnswer r o answer).2.1 = { st with closed, given } := by
  unfold iocpAnswer
  cases answer with
  | error e => cases o.kind <;> exact ⟨_, _, rfl⟩
  | ok bytes =>
    cases o.kind with
    | accept accepted multishot fileIndex =>
      dsimp only
      split
      · split <;> exact ⟨_, _, rfl⟩
      · exact ⟨_, _, rfl⟩
    | io | connect | poll => exact ⟨_, _, rfl⟩

/-- A wrapper that comes home carries its op no more. -/
theorem Sourced.retires (h : st.Sourced) (ho : st.wrappers w = some o)
    (hw : ∀ x, st'.wrappers x = if x = w then none else st.wrappers x)
    (hs : ∀ x, st'.beSource x = if x = o.op then none else st.beSource x) : st'.Sourced := by
  have hsource : st.beSource o.op = some w := (h _ _).mpr ⟨o, ho, rfl⟩
  intro x y
  rw [hs, hw]
  by_cases hx : x = o.op
  · subst hx
    rw [if_pos rfl]
    refine iff_of_false (by rintro ⟨⟩) ?_
    rintro ⟨o', ho', hop⟩
    split at ho'
    · cases ho'
    · next hne =>
      have hother := (h _ _).mpr ⟨o', ho', hop⟩
      exact hne (Option.some.inj (hother.symm.trans hsource))
  · rw [if_neg hx, h]
    by_cases hy : y = w
    · subst hy
      rw [if_pos rfl, ho]
      refine iff_of_false ?_ (by rintro ⟨o', ⟨⟩, -⟩)
      rintro ⟨o', ho', rfl⟩
      exact hx (congrArg IocpOp.op (Option.some.inj ho').symm)
    · rw [if_neg hy]

end Sources
end IocpState

/-- An answer writes to the table alone. -/
theorem slipFixedInstall_fixed (r : Ring) (fileIndex : UInt32) (fd : Int32) :
    ∃ fixed allocHint, (r.slipFixedInstall fileIndex fd).1 = { r with fixed, allocHint } := by
  unfold Ring.slipFixedInstall
  cases r.fixed with
  | none => exact ⟨_, _, rfl⟩
  | some fixed =>
    dsimp only
    repeat' split
    all_goals exact ⟨_, _, rfl⟩

theorem iocpAnswer_fixed (st : IocpState) (r : Ring) (o : IocpOp) (answer : Except UInt32 UInt32) :
    ∃ fixed allocHint, (st.iocpAnswer r o answer).1 = { r with fixed, allocHint } := by
  unfold IocpState.iocpAnswer
  cases answer with
  | error e => cases o.kind <;> exact ⟨_, _, rfl⟩
  | ok bytes =>
    cases o.kind with
    | accept accepted multishot fileIndex =>
      have hinstall := slipFixedInstall_fixed r fileIndex accepted.fd.1
      dsimp only
      split
      · split <;> exact hinstall
      · exact ⟨_, _, rfl⟩
    | io | connect | poll => exact ⟨_, _, rfl⟩

/-- The core with a table that was written to. -/
theorem fixed_run (c : Core) (fixed : Option (List Int32)) (allocHint : ℕ) :
    Run coreMachine OnThread c [] { c with ring := { c.ring with fixed, allocHint } } := by
  have hk : BackendWrites c { c.ring with fixed, allocHint } := by
    constructor <;> intros <;> rfl
  have hrun : Run coreMachine OnThread c ([] ++ c.events (.write { c.ring with fixed, allocHint })) _ :=
    Run.start.next (show OnThread c (.write _) from ⟨hk, rfl⟩) rfl
  exact hrun

/-- The core with a registration of the caller's. -/
theorem table_run (c : Core) (l : TableLabel) :
    Run coreMachine OnThread c [] { c with ring := (c.ring.tableStep l).1 } := by
  obtain ⟨fixed, allocOff, allocLen, allocHint, heq⟩ := c.ring.tableStep_eq l
  have hvault : (c.ring.tableStep l).1.toVault = c.ring.toVault := by rw [heq]
  have hrun : Run coreMachine OnThread c ([] ++ c.events (.write (c.ring.tableStep l).1)) _ :=
    Run.start.next (show OnThread c (.write _) from ⟨table_writes c l, hvault⟩) rfl
  exact hrun

namespace Iocp

/-- The backend is in order. Until the ring is closed no packet was dropped; until it is closing no socket
was lost, and an op is held by the backend exactly while its `be_source` is a wrapper that carries it. -/
structure Inv (s : Iocp) : Prop where
  owns : s.be.Owns []
  dropped : s.phase ≠ .closed → s.be.dropped = []
  lost : s.phase = .running → s.be.lost = []
  sourced : s.phase = .running → s.be.Sourced
  held : s.phase = .running → ∀ x, s.core.hands x = .held ↔ (s.be.beSource x).isSome = true
  on : ∀ x res, s.core.hands x ≠ .off res

/-- The step is one of the core, or more, and the backend is in order behind it. -/
def Goes (s : Iocp) (p : List PosixEvent × Iocp) : Prop :=
  Run coreMachine OnThread s.core (coreEvents p.1) p.2.core ∧ p.2.Inv

section Steps
variable {s s' : Iocp} {p q : List PosixEvent × Iocp} {l : CoreLabel} {op : Slot}

theorem inCore_eq (h : s.inCore l = some p) :
    ∃ c, s.core.step l = some c ∧ p = ((s.core.events l).map .core, { s with core := c }) := by
  obtain ⟨c, hc, rfl⟩ := Option.map_eq_some_iff.mp h
  exact ⟨c, hc, rfl⟩

theorem inCore_run (hk : OnThread s.core l) (h : s.inCore l = some p) :
    Run coreMachine OnThread s.core (coreEvents p.1) p.2.core := by
  obtain ⟨c, hc, rfl⟩ := inCore_eq h
  rw [coreEvents_core]
  exact Run.start.next hk hc

theorem andThen_eq {x : Iocp.Out} {f : Iocp → Iocp.Out} (h : Iocp.andThen x f = some p) :
    ∃ q t, x = some q ∧ f q.2 = some t ∧ p = (q.1 ++ t.1, t.2) := by
  obtain ⟨q, hq, h⟩ := Option.bind_eq_some_iff.mp h
  obtain ⟨t, ht, rfl⟩ := Option.map_eq_some_iff.mp h
  exact ⟨q, t, hq, ht, rfl⟩

/-- The backend is left alone, and the engine holds what it held. -/
theorem Inv.keep (h : s.Inv) (hbe : s'.be = s.be) (hphase : s'.phase = s.phase)
    (hhands : s'.core.hands = s.core.hands) : s'.Inv := by
  refine ⟨?_, ?_, ?_, ?_, ?_, ?_⟩
  · rw [hbe]
    exact h.owns
  · rw [hbe, hphase]
    exact h.dropped
  · rw [hbe, hphase]
    exact h.lost
  · rw [hbe, hphase]
    exact h.sourced
  · rw [hbe, hphase, hhands]
    exact h.held
  · rw [hhands]
    exact h.on

theorem Inv.engine (h : s.Inv) (hl : l.isEngine = true) (hs : s.inCore l = some p) : s.Goes p := by
  have hk : OnThread s.core l := by
    cases l with
    | enter call | takeSqe | append | queueStep target reads | post reads | settle reads | check left
    | complete reads | read k => exact ⟨trivial, trivial⟩
    | _ => cases hl
  refine ⟨inCore_run hk hs, ?_⟩
  obtain ⟨c, hc, rfl⟩ := inCore_eq hs
  exact h.keep rfl rfl (engine_sameBackend hl hc).2

/-- An op inside execute is carried by nothing yet. -/
theorem Inv.executing (h : s.Inv) (hg : s.core.Sound) (hr : s.phase = .running)
    (hop : s.core.pc.executing = some op) : s.be.beSource op = none := by
  have hnone := hg.executing hop
  have hheld : ¬ s.core.hands op = .held := by
    rw [hnone]
    rintro ⟨⟩
  rwa [h.held hr, Bool.not_eq_true, Option.isSome_eq_false_iff, Option.isNone_iff_eq_none] at hheld

theorem Inv.execute (h : s.Inv) (hg : s.core.Sound) (hr : s.phase = .running) {a : WinAnswers}
    (hs : s.execute a = some p) : s.Goes p := by
  unfold Iocp.execute at hs
  split at hs
  swap
  · cases hs
  next f op linked hpc =>
  have hexec : s.core.pc.executing = some op := by rw [hpc]; rfl
  have hown := h.owns.executes s.core.ring op a
  have hcarries := (h.sourced hr).executes h.owns (h.executing hg hr hexec) s.core.ring a
  split at hs
  · next be res heq =>
    rw [heq] at hown hcarries
    have hk : OnThread s.core (.execDone res) := ⟨trivial, trivial⟩
    refine ⟨inCore_run (s := { s with be }) hk hs, ?_⟩
    obtain ⟨c, hc, rfl⟩ := inCore_eq hs
    simp only [Core.step, Core.execDone, hpc, Option.some.injEq] at hc
    subst hc
    refine ⟨hown, fun hp => hcarries.dropped.trans (h.dropped hp), fun hp => hcarries.lost.trans (h.lost hp),
      fun _ => hcarries.sourced, fun hp x => ?_, h.on⟩
    rw [hcarries.carried x]
    simpa using h.held hp x
  · next be heq =>
    rw [heq] at hown hcarries
    obtain ⟨q, t, hq, ht, rfl⟩ := andThen_eq hs
    have hk : OnThread s.core .execTake := ⟨trivial, trivial⟩
    have hrun := inCore_run (s := { s with be }) hk hq
    have hk' : OnThread q.2.core .execPending := ⟨trivial, trivial⟩
    have hrun' := inCore_run hk' ht
    obtain ⟨c, hc, rfl⟩ := inCore_eq hq
    obtain ⟨c', hc', rfl⟩ := inCore_eq ht
    simp only [Core.step, Core.execTake, hpc, Option.some.injEq] at hc
    subst hc
    simp only [Core.step, Core.execPending, Option.some.injEq] at hc'
    subst hc'
    refine ⟨?_, hown, fun hp => hcarries.dropped.trans (h.dropped hp),
      fun hp => hcarries.lost.trans (h.lost hp), fun _ => hcarries.sourced, fun hp x => ?_, fun x res => ?_⟩
    · rw [coreEvents_append]
      exact hrun.append hrun'
    · -- the op that is pending is the one more that is held
      rw [hcarries.carried x]
      show (if x = op then Hold.held else s.core.hands x) = .held ↔ _
      split
      · next hx => simp [hx]
      · next hx => simpa [hx] using h.held hp x
    · show (if x = op then Hold.held else s.core.hands x) ≠ .off res
      split
      · rintro ⟨⟩
      · exact h.on x res

/-- The wrapper of an op has come home, and the op is still to be handed back, or issued again. -/
structure Homes (s : Iocp) (op : Slot) : Prop where
  running : s.phase = .running
  waits : ∃ f forever done, s.core.pc = .wait f forever done
  owns : s.be.Owns []
  dropped : s.be.dropped = []
  lost : s.be.lost = []
  sourced : s.be.Sourced
  held : ∀ x, s.core.hands x = .held ↔ (s.be.beSource x).isSome = true ∨ x = op
  home : s.be.beSource op = none
  on : ∀ x res, s.core.hands x ≠ .off res

theorem Homes.handBack (h : s.Homes op) {res : Int32} (hs : s.inCore (.handBack op res) = some p) :
    s.Goes p := by
  obtain ⟨f, forever, done, hpc⟩ := h.waits
  have hk : OnThread s.core (.handBack op res) := ⟨(h.held op).mpr (.inr rfl), trivial⟩
  refine ⟨inCore_run hk hs, ?_⟩
  obtain ⟨c, hc, rfl⟩ := inCore_eq hs
  simp only [Core.step, Core.handBack, hpc, Option.some.injEq] at hc
  subst hc
  refine ⟨h.owns, fun _ => h.dropped, fun _ => h.lost, fun _ => h.sourced, fun _ x => ?_, fun x res => ?_⟩
  · show (if x = op then Hold.none else s.core.hands x) = .held ↔ _
    split
    · next hx =>
      subst hx
      rw [h.home]
      exact iff_of_false (by rintro ⟨⟩) (by rintro ⟨⟩)
    · next hx => rw [h.held x, or_iff_left hx]
  · show (if x = op then Hold.none else s.core.hands x) ≠ .off res
    split
    · rintro ⟨⟩
    · exact h.on x res

/-- Another accept is armed for the op, or the op is handed back. -/
theorem Homes.armNext (h : s.Homes op) {a : WinAnswers} (hs : s.armNext op a = some p) : s.Goes p := by
  have hown := h.owns.arms (s.core.ring.opPool op).sqe op a
  have hcarries := h.sourced.arms h.owns h.home (s.core.ring.opPool op).sqe a
  unfold Iocp.armNext at hs
  split at hs
  · next be heq =>
    rw [heq] at hown hcarries
    cases hs
    refine ⟨.start, hown, fun _ => hcarries.dropped.trans h.dropped, fun _ => hcarries.lost.trans h.lost,
      fun _ => hcarries.sourced, fun _ x => ?_, h.on⟩
    rw [hcarries.carried x, h.held x]
    simp
  · next be res heq =>
    rw [heq] at hown hcarries
    have hnext : Homes { s with be } op := by
      refine ⟨h.running, h.waits, hown, hcarries.dropped.trans h.dropped, hcarries.lost.trans h.lost,
        hcarries.sourced, fun x => ?_, ?_, h.on⟩
      · rw [hcarries.carried x, h.held x]
        simp
      · have hnot := hcarries.carried op
        rw [h.home] at hnot
        simpa using hnot
    exact hnext.handBack hs

theorem Homes.rearm (h : s.Homes op) {res : Int32} {a : WinAnswers} {reads : List ℕ}
    (hs : s.rearm op res a reads = some p) : s.Goes p := by
  unfold Iocp.rearm at hs
  obtain ⟨q, t, hq, ht, rfl⟩ := andThen_eq hs
  obtain rfl := (Option.some.inj hq).symm
  have hemit := emit_onThread s.core (s.core.ring.opPool op).sqe.userData res ioringCqeFMore reads
  have hev : coreEvents (s.emits op res) = [] := by
    unfold Iocp.emits
    split <;> rfl
  have hnext : Homes (s.setRing (s.core.ring.inVault
      (·.slipEngineEmit (s.core.ring.opPool op).sqe.userData res ioringCqeFMore reads))) op :=
    ⟨h.running, h.waits, h.owns, h.dropped, h.lost, h.sourced, h.held, h.home, h.on⟩
  obtain ⟨hrun, hinv⟩ := hnext.armNext ht
  refine ⟨?_, hinv⟩
  rw [coreEvents_append, hev]
  exact hemit.append hrun

/-- The wrapper of the packet at the front of the port comes home. -/
theorem Inv.homes (h : s.Inv) (hr : s.phase = .running)
    (hpc : ∃ f forever done, s.core.pc = .wait f forever done) {port : List Packet} {w : ℕ}
    {answer : Except UInt32 UInt32} {o : IocpOp} (hport : s.be.port = .io w answer :: port)
    (ho : s.be.wrappers w = some o) {be : IocpState}
    (hbe : be = (IocpState.iocpAnswer { s.be with port, inFlight := s.be.inFlight.erase w } s.core.ring o
      answer).2.1) (r : Ring) :
    Homes ({ s with be := (be.setSource o.op none).free w, draining := true }.setRing r) o.op := by
  have hsource : s.be.beSource o.op = some w := ((h.sourced hr) _ _).mpr ⟨o, ho, rfl⟩
  have hown : (be.free w).Owns [] := by
    rw [hbe, (IocpState.iocpAnswer_free _ _ _).1]
    exact (h.owns.retires ho hport rfl).answers _ _
  obtain ⟨closed, given, heq⟩ := IocpState.iocpAnswer_eq
    { s.be with port, inFlight := s.be.inFlight.erase w } s.core.ring o answer
  rw [heq] at hbe
  subst hbe
  refine ⟨hr, hpc, hown.congr rfl rfl (.refl _) rfl rfl (.refl _) rfl, h.dropped (by rw [hr]; rintro ⟨⟩),
    h.lost hr, (h.sourced hr).retires ho (fun x => rfl) (fun x => rfl), fun x => ?_, if_pos rfl, h.on⟩
  show s.core.hands x = .held ↔ (if x = o.op then none else s.be.beSource x).isSome = true ∨ x = o.op
  rw [h.held hr x]
  split
  · next hx => simp [hx, hsource]
  · next hx => simp [hx]

theorem Inv.take (h : s.Inv) (hr : s.phase = .running) {a : WinAnswers} {reads : List ℕ}
    (hs : s.take a reads = some p) : s.Goes p := by
  unfold Iocp.take at hs
  split at hs
  swap
  · cases hs
  next f forever done packet port hpc hport =>
  split at hs
  · cases hs
  split at hs
  · -- a poke names no wrapper
    cases hs
    refine ⟨.start, h.owns.congr rfl rfl ?_ rfl rfl (.refl _) rfl, h.dropped, h.lost, h.sourced, h.held, h.on⟩
    rw [hport]
    exact .refl _
  next w answer =>
  obtain ⟨o, ho, hs⟩ := Option.bind_eq_some_iff.mp hs
  obtain ⟨fixed, allocHint, hfixed⟩ := iocpAnswer_fixed
    { s.be with port, inFlight := s.be.inFlight.erase w } s.core.ring o answer
  have hwrite := fixed_run s.core fixed allocHint
  rw [← hfixed] at hwrite
  have hhomes := h.homes hr ⟨f, forever, done, hpc⟩ hport ho rfl
    (IocpState.iocpAnswer { s.be with port, inFlight := s.be.inFlight.erase w } s.core.ring o answer).1
  dsimp only at hs
  split at hs
  · obtain ⟨hrun, hinv⟩ := hhomes.rearm hs
    exact ⟨hwrite.append hrun, hinv⟩
  · obtain ⟨hrun, hinv⟩ := hhomes.handBack hs
    exact ⟨hwrite.append hrun, hinv⟩

theorem Inv.waitReturns (h : s.Inv) (hs : s.waitReturns = some p) : s.Goes p := by
  unfold Iocp.waitReturns at hs
  split at hs
  swap
  · cases hs
  next f forever done hpc =>
  split at hs
  swap
  · cases hs
  have hk : OnThread s.core .waitReturn := ⟨trivial, trivial⟩
  refine ⟨inCore_run (s := { s with draining := false }) hk hs, ?_⟩
  obtain ⟨c, hc, rfl⟩ := inCore_eq hs
  simp only [Core.step, Core.waitReturn, hpc, Option.some.injEq] at hc
  subst hc
  exact h.keep rfl rfl rfl

/-- A call that ends leaves Windows, and its packet is at the port or goes with it. -/
theorem Inv.ends (h : s.Inv) {w : ℕ} {answer : Except UInt32 UInt32} (hs : s.ends w answer = some p) :
    s.Goes p := by
  unfold Iocp.ends at hs
  split at hs
  swap
  · cases hs
  next hw =>
  have hperm := List.perm_cons_erase hw
  dsimp only at hs
  split at hs
  · next hclosed =>
    cases hs
    refine ⟨.start, h.owns.congr rfl rfl ?_ rfl rfl (.refl _) rfl, fun hne => absurd hclosed hne, h.lost,
      h.sourced, h.held, h.on⟩
    apply List.perm_iff_count.mpr
    intro x
    have := hperm.count_eq x
    simp only [List.count_append, List.count_cons, List.count_nil] at this ⊢
    omega
  · cases hs
    refine ⟨.start, h.owns.congr rfl rfl ?_ rfl rfl (.refl _) rfl, h.dropped, h.lost, h.sourced, h.held, h.on⟩
    apply List.perm_iff_count.mpr
    intro x
    have := hperm.count_eq x
    simp only [List.filterMap_append, List.filterMap_cons, List.filterMap_nil, Packet.wrapper,
      List.count_append, List.count_cons, List.count_nil] at this ⊢
    omega

/-- While the ring closes, a wrapper that comes home is freed, and its socket is lost. -/
theorem Inv.drain (h : s.Inv) (hr : s.phase = .closing) (hs : s.drain = some p) : s.Goes p := by
  unfold Iocp.drain at hs
  split at hs
  swap
  · cases hs
  next packet port hport =>
  split at hs
  · cases hs
  have hnot : s.phase ≠ .running := by
    rw [hr]
    rintro ⟨⟩
  split at hs
  · cases hs
    refine ⟨.start, h.owns.congr rfl rfl ?_ rfl rfl (.refl _) rfl, h.dropped, h.lost, h.sourced, h.held, h.on⟩
    rw [hport]
    exact .refl _
  · next w answer =>
    obtain ⟨o, ho, hs⟩ := Option.bind_eq_some_iff.mp hs
    cases hs
    refine ⟨.start, (h.owns.retires ho hport rfl).loses.congr rfl rfl (.refl _) rfl rfl (.refl _) rfl,
      h.dropped, fun hp => absurd hp hnot, fun hp => absurd hp hnot, fun hp => absurd hp hnot, h.on⟩

theorem Inv.registers (h : s.Inv) (l : TableLabel) : s.Goes ([], s.registers l) := by
  refine ⟨table_run s.core l, ?_⟩
  by_cases hl : l = .unregister
  · rw [Iocp.registers, if_pos hl]
    exact ⟨h.owns.closeTable, h.dropped, h.lost, fun hr => (h.sourced hr).congr rfl rfl, h.held, h.on⟩
  · rw [Iocp.registers, if_neg hl]
    exact ⟨h.owns, h.dropped, h.lost, h.sourced, h.held, h.on⟩

theorem Inv.closePort (h : s.Inv) (hr : s.phase = .closing) (hs : s.closePort = some p) : s.Goes p := by
  unfold Iocp.closePort at hs
  split at hs
  swap
  · cases hs
  cases hs
  suffices hclosed : Inv { s with
      be := { s.be with dropped := s.be.port.filterMap Packet.wrapper, port := [] }, phase := .closed } from
    hclosed.registers .unregister
  refine ⟨h.owns.congr rfl rfl ?_ rfl rfl (.refl _) rfl, fun hp => absurd rfl hp, (by rintro ⟨⟩),
    (by rintro ⟨⟩), (by rintro ⟨⟩), h.on⟩
  have hnone := h.dropped (by rw [hr]; rintro ⟨⟩)
  simp only [List.filterMap_nil, List.append_nil, hnone]
  exact .refl _

theorem Inv.runs (h : s.Inv) (hg : s.core.Sound) (hr : s.phase = .running) {l : IocpLabel}
    (hs : s.running l = some p) : s.Goes p := by
  cases l with
  | engine l =>
    simp only [Iocp.running] at hs
    split at hs
    · next hl => exact h.engine hl hs
    · cases hs
  | execute a => exact h.execute hg hr hs
  | take a reads => exact h.take hr hs
  | back => exact h.waitReturns hs
  | senderEmit u res reads =>
    cases hs
    exact ⟨emit_onThread s.core u res 0 reads, h.keep rfl rfl rfl⟩
  | senderPoke posted =>
    simp only [Iocp.running] at hs
    split at hs
    swap
    · cases hs
    cases hs
    refine ⟨.start, h.owns.congr rfl rfl ?_ rfl rfl (.refl _) rfl, h.dropped, h.lost, h.sourced, h.held, h.on⟩
    -- a poke names no wrapper
    cases posted with
    | true => simp [List.filterMap_cons, Packet.wrapper]
    | false => exact .refl _
  | registers l =>
    simp only [Iocp.running] at hs
    repeat' split at hs
    all_goals cases hs
    exact h.registers l
  | close =>
    simp only [Iocp.running] at hs
    split at hs
    swap
    · cases hs
    cases hs
    exact ⟨.start, h.owns, fun _ => h.dropped (by rw [hr]; rintro ⟨⟩), (by rintro ⟨⟩), (by rintro ⟨⟩),
      (by rintro ⟨⟩), h.on⟩
  | ends w answer | drain | closed => cases hs

/-- One step of the machine. -/
theorem Inv.step (h : s.Inv) (hg : s.core.Sound) {l : IocpLabel} (hs : s.out l = some p) : s.Goes p := by
  unfold Iocp.out at hs
  split at hs
  · exact h.ends hs
  · next hr => exact h.drain hr hs
  · next hr => exact h.closePort hr hs
  · next hr => exact h.runs hg hr hs
  · cases hs

end Steps

end Iocp

section Runs
variable {s s' : Iocp} {tr : List PosixEvent} {n : ℕ} {e : UInt32}

theorem setupIocp_inv (n : ℕ) (e : UInt32) : (setupIocp n e).Inv where
  owns := ⟨fun _ => ⟨by rintro ⟨⟩, by rintro ⟨⟩⟩, .refl _, .refl _, .refl _⟩
  dropped _ := rfl
  lost _ := rfl
  sourced _ x w := ⟨by rintro ⟨⟩, by rintro ⟨o, ⟨⟩, -⟩⟩
  held _ x := ⟨by rintro ⟨⟩, by rintro ⟨⟩⟩
  on x res := by rintro ⟨⟩

theorem Iocp.step_out {l : IocpLabel} (hs : iocpMachine.step s l = some s') :
    s.out l = some (iocpMachine.events s l, s') := by
  obtain ⟨⟨ev, t⟩, ht, rfl⟩ := Option.map_eq_some_iff.mp hs
  simp [iocpMachine, ht]

theorem setupCore_sound (n : ℕ) (e : UInt32) : (setupCore n e).Sound :=
  ⟨{}, List.range n, [], [], [], Chains.wellFormed_empty, setupCore_rep n e⟩

theorem iocp_runs {C : Iocp → IocpLabel → Prop} (hr : Run iocpMachine C (setupIocp n e) tr s) :
    Run coreMachine OnThread (setupCore n e) (coreEvents tr) s.core ∧ s.Inv := by
  refine hr.invariant
    (fun tr s => Run coreMachine OnThread (setupCore n e) (coreEvents tr) s.core ∧ s.Inv)
    ⟨.start, setupIocp_inv n e⟩ ?_
  intro tr s l s' _ h _ hs
  have hsound := (setupCore_sound n e).run (h.1.mono fun _ _ h => h.1)
  obtain ⟨hrun, hinv⟩ := h.2.step hsound (Iocp.step_out hs)
  rw [coreEvents_append]
  exact ⟨h.1.append hrun, hinv⟩

end Runs

/-- Windows does what it is asked to, with `fd` for a socket. -/
def winGrants (fd : Int32) : WinAnswers where
  closesocket _ := .closed
  crtClose _ := true
  closeErrno _ := ebadf
  child := if h : 0 ≤ fd then .ok ⟨fd, h⟩ else .error 0

/-- Enter with one multishot accept that is issued, to where it waits for two CQEs. -/
def acceptWaits : List IocpLabel :=
  [.engine (.enter { minComplete := 2, getevents := true, entries := [
      some { opcode := .accept, ioprio := 1, userData := 7 }] }),
    .engine .takeSqe, .engine .append, .engine (.queueStep .own []), .execute (winGrants 5),
    .engine (.queueStep .own []), .engine (.settle []), .engine (.check 0)]

end SlipstreamIO.Engine
