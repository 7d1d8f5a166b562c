import SlipstreamIO.CompletionStream
import SlipstreamIO.IocpRefines
import SlipstreamIO.MultishotVoice

/-! What the ops of the completion port backend say: a multishot accept speaks with F_MORE for as long as it
is armed again, and then once without. -/
namespace SlipstreamIO.Engine

open ThreadedList Runs

namespace IocpState

/-- A wrapper that is to be armed again is an accept's. -/
def Accepts (st : IocpState) (r : Ring) : Prop :=
  ∀ w o, st.wrappers w = some o → o.multishot = true → (r.opPool o.op).sqe.opcode = .accept

section Accepts
variable {st st' : IocpState} {r r' : Ring} {o : IocpOp} {op : Slot}

theorem Accepts.sub (h : st.Accepts r) (hw : ∀ w o, st'.wrappers w = some o → st.wrappers w = some o) :
    st'.Accepts r := fun w o ho => h w o (hw w o ho)

/-- A wrapper that comes and goes leaves those there are. -/
theorem spoiled_sub (w : ℕ) (o' : IocpOp) (h : ((st.calloc o).free st.made).wrappers w = some o') :
    st.wrappers w = some o' := by
  simp only [IocpState.free, IocpState.calloc] at h
  split at h
  · cases h
  · exact h

theorem Accepts.issue (h : st.Accepts r) (ho : o.multishot = true → (r.opPool o.op).sqe.opcode = .accept)
    (refused : Option UInt32) : (st.issue o refused).1.Accepts r := by
  cases refused with
  | some e => exact h.sub spoiled_sub
  | none =>
    intro w o' ho' hmulti
    simp only [IocpState.issue, IocpState.setSource, IocpState.calloc] at ho'
    split at ho'
    · obtain rfl := Option.some.inj ho'
      exact ho hmulti
    · exact h w o' ho' hmulti

theorem Accepts.arms (h : st.Accepts r) (hop : (r.opPool op).sqe.opcode = .accept) (s : Sqe)
    (a : WinAnswers) : (st.iocpArmAccept s op a).1.Accepts r := by
  unfold iocpArmAccept
  split
  · exact h
  split
  · exact h
  next fd _ =>
  dsimp only
  split
  · exact h
  have hmade : Accepts { st with sockets := st.sockets + 1 } r := h
  have hissue := hmade.issue (o := ⟨op, .accept ⟨fd, st.sockets⟩
    (s.ioprio &&& ioringAcceptMultishot ≠ 0) s.fileIndex⟩) (fun _ => hop) a.refused
  split
  · next st' heq =>
    rw [heq] at hissue
    exact hissue
  · next st' err heq =>
    rw [heq] at hissue
    exact hissue

theorem Accepts.issues (h : st.Accepts r) (s : Sqe) (a : WinAnswers) : (st.iocpIssue s op a).1.Accepts r := by
  have hcall (kind : IocpKind) (hk : IocpOp.multishot ⟨op, kind⟩ = false) :
      (st.issue ⟨op, kind⟩ a.refused).1.Accepts r :=
    h.issue (fun hmulti => by rw [hk] at hmulti; cases hmulti) _
  have hmsg : (st.iocpIssueMsg s ⟨op, .io⟩ a).1.Accepts r := by
    unfold iocpIssueMsg
    split
    · exact h.sub spoiled_sub
    split
    · exact hcall .io rfl
    · exact h.sub spoiled_sub
  unfold iocpIssue
  split
  · exact h
  split
  · exact hcall .connect rfl
  · exact hcall .poll rfl
  · exact hmsg
  · exact hmsg
  · exact hcall .io rfl

theorem Accepts.executes (h : st.Accepts r) (op : Slot) (a : WinAnswers) :
    (st.iocpExecute r op a).1.Accepts r := by
  unfold iocpExecute
  dsimp only
  split
  · exact h
  split
  · next haccept => exact h.arms haccept _ _
  split
  · exact h
  · exact h.issues _ _

end Accepts
end IocpState

section Final
variable {c c' : Core} {l : CoreLabel} {n : ℕ} {e : UInt32} {tr : List Event}

theorem final_ofOp : OfOp fun _ o => o.cqeFlags &&& ioringCqeFMore = 0 where
  new _ _ _ _ := UInt32.zero_and
  relink _ _ _ _ h := h

/-- A backend that writes to no op gives none an F_MORE for its own CQE. -/
theorem Core.Final.step (h : c.Final) (hg : c.Sound) (hk : OnThread c l) (hs : c.step l = some c') :
    c'.Final := by
  cases l with
  | write r =>
    cases hs
    have hvault : r.toVault = c.ring.toVault := hk.2
    unfold Core.Final
    rw [hvault]
    exact h
  | emit u res fl reads =>
    cases hs
    exact hg.live_emit h u res fl reads
  | execDone res | execTake | execPending | handBack op res | waitReturn | waitFail =>
    simp only [Core.step, Core.execDone, Core.execTake, Core.execPending, Core.handBack, Core.waitReturn,
      Core.waitFail] at hs
    split at hs <;> cases hs
    exact h
  | cancelHeld t reads | cancelQueued p reads | offFinish op res ticket | offPost op reads => exact hk.2.elim
  | enter call | takeSqe | append | queueStep target reads | post reads | settle reads | check left
  | complete reads | read k => exact hg.live_engine final_ofOp h rfl hs

theorem final_run (hr : Run coreMachine OnThread (setupCore n e) tr c) : c.Final := by
  refine hr.invariant (fun _ c => c.Final)
    ⟨List.range n, [], Vault.emptyVault_rep n e, fun _ _ _ => UInt32.zero_and⟩ ?_
  intro tr c l c' hr h hk hs
  exact h.step ((setupCore_sound n e).run (hr.mono fun _ _ h => h.1)) hk hs

end Final

namespace Iocp

/-- While the ring is open, a wrapper that is to be armed again is an accept's. -/
def Accepts (s : Iocp) : Prop := s.phase = .running → s.be.Accepts s.core.ring

section Steps
variable {s s' : Iocp} {p : List PosixEvent × Iocp} {op : Slot}

/-- What is in flight keeps its SQE. -/
theorem Inv.keeps_sqe (h : s.Inv) (hr : s.phase = .running) {r : Ring}
    (hx : ∀ x, s.core.hands x = .held → (r.opPool x).sqe = (s.core.ring.opPool x).sqe)
    (ha : s.be.Accepts s.core.ring) : s.be.Accepts r := by
  intro w o ho hmulti
  have hheld : s.core.hands o.op = .held := by
    rw [h.held hr, (h.sourced hr o.op w).mpr ⟨o, ho, rfl⟩]
    rfl
  rw [hx _ hheld]
  exact ha w o ho hmulti

theorem closing_back {s₀ : Iocp} {l : CoreLabel} (hs : s₀.inCore l = some p) (hl : l.leaves = true) :
    Closing p.1 := by
  obtain ⟨c, -, rfl⟩ := inCore_eq hs
  exact closing_leaves _ hl

/-- What is said in one step, with the accepts in order behind it. -/
def Voices (s : Iocp) (p : List PosixEvent × Iocp) : Prop := s.core.Speaks p.1 ∧ p.2.Accepts

theorem Inv.engine_voices (h : s.Inv) (hg : s.core.Sound) (hf : s.core.Final) (ha : s.Accepts)
    {l : CoreLabel} (hl : l.isEngine = true) (hs : s.inCore l = some p) : s.Voices p := by
  obtain ⟨c, hc, rfl⟩ := inCore_eq hs
  refine ⟨speaks_closing (hf.closing hg hl), fun hr => h.keeps_sqe hr (fun x hx => ?_) (ha hr)⟩
  have hk : Keeps s.core l ∧ (∀ r, l ≠ .write r) ∧ l.releases ≠ some x := by
    cases l with
    | enter call | takeSqe | append | queueStep target reads | post reads | settle reads | check left
    | complete reads | read k => exact ⟨trivial, (fun _ he => by cases he), by rintro ⟨⟩⟩
    | _ => cases hl
  have hhas : s.core.has x := .inl (by rw [hx]; rintro ⟨⟩)
  exact congrArg EngOp.sqe (hg.others hk.1 hc hk.2.1 hhas hk.2.2)

theorem Accepts.execute_voices (ha : s.Accepts) (hr : s.phase = .running) {a : WinAnswers}
    (hs : s.execute a = some p) : s.Voices p := by
  unfold Iocp.execute at hs
  split at hs
  swap
  · cases hs
  next f op linked hpc =>
  have hexec := (ha hr).executes op a
  split at hs
  · next be res heq =>
    rw [heq] at hexec
    refine ⟨speaks_closing (closing_back hs rfl), fun _ => ?_⟩
    obtain ⟨c, hc, rfl⟩ := inCore_eq hs
    simp only [Core.step, Core.execDone, hpc, Option.some.injEq] at hc
    subst hc
    exact hexec
  · next be heq =>
    rw [heq] at hexec
    obtain ⟨q, t, hq, ht, rfl⟩ := andThen_eq hs
    refine ⟨speaks_closing ((closing_back hq rfl).append (closing_back ht rfl)), fun _ => ?_⟩
    obtain ⟨c, hc, rfl⟩ := inCore_eq hq
    obtain ⟨c', hc', rfl⟩ := inCore_eq ht
    simp only [Core.step, Core.execTake, hpc, Option.some.injEq] at hc
    subst hc
    simp only [Core.step, Core.execPending, Option.some.injEq] at hc'
    subst hc'
    exact hexec

theorem Homes.handBack_voices (h : s.Homes op) (ha : s.be.Accepts s.core.ring) {res : Int32}
    (hs : s.inCore (.handBack op res) = some p) : s.Voices p := by
  obtain ⟨f, forever, done, hpc⟩ := h.waits
  refine ⟨speaks_closing (closing_back hs rfl), fun _ => ?_⟩
  obtain ⟨c, hc, rfl⟩ := inCore_eq hs
  simp only [Core.step, Core.handBack, hpc, Option.some.injEq] at hc
  subst hc
  exact ha

/-- The accept that goes on says so, and is held when it does. -/
theorem Homes.rearm_voices (h : s.Homes op) (hg : s.core.Sound) (ha : s.be.Accepts s.core.ring)
    (hop : (s.core.ring.opPool op).sqe.opcode = .accept) {res : Int32} {a : WinAnswers} {reads : List ℕ}
    (hs : s.rearm op res a reads = some p) : s.Voices p := by
  unfold Iocp.rearm at hs
  obtain ⟨q, t, hq, ht, rfl⟩ := andThen_eq hs
  obtain rfl := (Option.some.inj hq).symm
  have hheld : s.core.hands op = .held := (h.held op).mpr (.inr rfl)
  have hsame {x : Slot} (hx : s.core.hands x = .held) :
      (s.core.ring.toVault.slipEngineEmit (s.core.ring.opPool op).sqe.userData res ioringCqeFMore
        reads).opPool x = s.core.ring.opPool x :=
    hg.emit_others (.inl (by rw [hx]; rintro ⟨⟩)) _ _ _ _
  have hemits : s.emits op res = [] ∨ s.core.Emits (s.emits op res) := by
    unfold Iocp.emits
    split
    · next i hi =>
      refine .inr ⟨op, i, _, .inl hheld, hi, rfl, by simp [Cqe.more, ioringCqeFMore], rfl, ?_⟩
      rw [hop]
      rfl
    · exact .inl rfl
  -- behind the emission the ops in flight are as they were
  have hnext : s.be.Accepts (s.core.ring.inVault
      (·.slipEngineEmit (s.core.ring.opPool op).sqe.userData res ioringCqeFMore reads)) := by
    intro w o ho hmulti
    have hsource := (h.sourced o.op w).mpr ⟨o, ho, rfl⟩
    have hx : s.core.hands o.op = .held := (h.held _).mpr (.inl (by rw [hsource]; rfl))
    show ((Vault.slipEngineEmit _ _ _ _ _).opPool o.op).sqe.opcode = .accept
    rw [hsame hx]
    exact ha w o ho hmulti
  have hopcode : ((s.core.ring.toVault.slipEngineEmit (s.core.ring.opPool op).sqe.userData res
      ioringCqeFMore reads).opPool op).sqe.opcode = .accept := by
    rw [hsame hheld]
    exact hop
  have harms := hnext.arms hopcode ((s.core.ring.toVault.slipEngineEmit
    (s.core.ring.opPool op).sqe.userData res ioringCqeFMore reads).opPool op).sqe a
  suffices ht' : Closing t.1 ∧ t.2.Accepts from ⟨⟨_, _, rfl, hemits, ht'.1⟩, ht'.2⟩
  unfold Iocp.armNext at ht
  split at ht
  · next be heq =>
    cases ht
    refine ⟨closing_nil, fun _ => ?_⟩
    have hbe : _ = be := congrArg Prod.fst heq
    rw [← hbe]
    exact harms
  · next be err heq =>
    refine ⟨closing_back ht rfl, fun _ => ?_⟩
    obtain ⟨f, forever, done, hpc⟩ := h.waits
    obtain ⟨c, hc, rfl⟩ := inCore_eq ht
    simp only [Core.step, Core.handBack, Iocp.setRing, hpc, Option.some.injEq] at hc
    subst hc
    have hbe : _ = be := congrArg Prod.fst heq
    rw [← hbe]
    exact harms

theorem Inv.take_voices (h : s.Inv) (hg : s.core.Sound) (hr : s.phase = .running) (ha : s.Accepts)
    {a : WinAnswers} {reads : List ℕ} (hs : s.take a reads = some p) : s.Voices p := by
  unfold Iocp.take at hs
  split at hs
  swap
  · cases hs
  next f forever done packet port hpc hport =>
  split at hs
  · cases hs
  split at hs
  · cases hs
    exact ⟨speaks_closing closing_nil, ha⟩
  next w answer =>
  obtain ⟨o, ho, hs⟩ := Option.bind_eq_some_iff.mp hs
  obtain ⟨fixed, allocHint, hfixed⟩ := iocpAnswer_fixed
    { s.be with port, inFlight := s.be.inFlight.erase w } s.core.ring o answer
  obtain ⟨closed, given, hbe⟩ := IocpState.iocpAnswer_eq
    { s.be with port, inFlight := s.be.inFlight.erase w } s.core.ring o answer
  have hhomes := h.homes hr ⟨f, forever, done, hpc⟩ hport ho rfl
    (IocpState.iocpAnswer { s.be with port, inFlight := s.be.inFlight.erase w } s.core.ring o answer).1
  dsimp only at hs
  rw [hfixed, hbe] at hs
  rw [hfixed, hbe] at hhomes
  have hrest : Accepts { s with
      be := (IocpState.setSource { s.be with port, inFlight := s.be.inFlight.erase w, closed, given }
        o.op none).free w } := by
    intro _
    apply (ha hr).sub
    intro y o' ho'
    simp only [IocpState.free, IocpState.setSource] at ho'
    split at ho'
    · cases ho'
    · exact ho'
  split at hs
  · next hmulti =>
    have hsound := hg.run ((fixed_run s.core fixed allocHint).mono fun _ _ h => h.1)
    simp only [Bool.and_eq_true] at hmulti
    have hop : (s.core.ring.opPool o.op).sqe.opcode = .accept := ha hr w o ho hmulti.1.1
    exact hhomes.rearm_voices hsound (hrest hr) hop hs
  · exact hhomes.handBack_voices (hrest hr) hs

theorem quiet_voices {s₀ : Iocp} (hs : s₀.quiet = some p) (ha : s₀.Accepts) : s.Voices p := by
  cases hs
  exact ⟨speaks_closing closing_nil, ha⟩

theorem Accepts.registers (ha : s.Accepts) (l : TableLabel) : (s.registers l).Accepts := by
  intro hr w o ho hmulti
  obtain ⟨fixed, allocOff, allocLen, allocHint, heq⟩ := s.core.ring.tableStep_eq l
  have hpool : (s.registers l).core.ring.opPool = s.core.ring.opPool := by
    show (s.core.ring.tableStep l).1.opPool = _
    rw [heq]
  have hwrappers : (s.registers l).be.wrappers = s.be.wrappers := by
    unfold Iocp.registers
    split <;> rfl
  rw [hpool]
  rw [hwrappers] at ho
  exact ha hr w o ho hmulti

theorem Inv.runs_voices (h : s.Inv) (hg : s.core.Sound) (hf : s.core.Final) (hr : s.phase = .running)
    (ha : s.Accepts) {l : IocpLabel} (hs : s.running l = some p) : s.Voices p := by
  cases l with
  | engine l =>
    simp only [Iocp.running] at hs
    split at hs
    · next hl => exact h.engine_voices hg hf ha hl hs
    · cases hs
  | execute a => exact ha.execute_voices hr hs
  | take a reads => exact h.take_voices hg hr ha hs
  | back =>
    simp only [Iocp.running, Iocp.waitReturns] at hs
    split at hs
    swap
    · cases hs
    next f forever done hpc =>
    split at hs
    swap
    · cases hs
    refine ⟨speaks_closing (closing_back hs rfl), ?_⟩
    obtain ⟨c, hc, rfl⟩ := inCore_eq hs
    simp only [Core.step, Core.waitReturn, hpc, Option.some.injEq] at hc
    subst hc
    exact ha
  | senderEmit u res reads =>
    apply quiet_voices hs
    intro _
    refine h.keeps_sqe hr (fun x hx => ?_) (ha hr)
    have hhas : s.core.has x := .inl (by rw [hx]; rintro ⟨⟩)
    exact congrArg EngOp.sqe (hg.emit_others hhas u res 0 reads)
  | senderPoke posted =>
    simp only [Iocp.running] at hs
    split at hs
    · exact quiet_voices hs ha
    · cases hs
  | registers l =>
    simp only [Iocp.running] at hs
    repeat' split at hs
    · exact quiet_voices hs (ha.registers l)
    · cases hs
    · cases hs
  | close =>
    simp only [Iocp.running] at hs
    split at hs
    · exact quiet_voices hs (by rintro ⟨⟩)
    · cases hs
  | ends w answer | drain | closed => cases hs

theorem Inv.voices (h : s.Inv) (hg : s.core.Sound) (hf : s.core.Final) (ha : s.Accepts) {l : IocpLabel}
    (hs : s.out l = some p) : s.Voices p := by
  unfold Iocp.out at hs
  split at hs
  · unfold Iocp.ends at hs
    split at hs
    swap
    · cases hs
    dsimp only at hs
    split at hs <;> exact quiet_voices hs ha
  · next hr =>
    unfold Iocp.drain at hs
    repeat' split at hs
    · cases hs
    · exact quiet_voices hs fun hp => by cases hr.symm.trans hp
    · obtain ⟨o, -, hs⟩ := Option.bind_eq_some_iff.mp hs
      exact quiet_voices hs fun hp => by cases hr.symm.trans hp
    · cases hs
  · unfold Iocp.closePort at hs
    split at hs
    · exact quiet_voices hs (by rintro ⟨⟩)
    · cases hs
  · next hr => exact h.runs_voices hg hf hr ha hs
  · cases hs

end Steps
end Iocp

namespace Vault
variable {v : Vault} {reads : List ℕ}

/-- What stands in the CQ and the backlog, with the SQEs it answers. -/
def told (v : Vault) (backlog : List Slot) : List (Option ℕ × Cqe) := v.cq.log ++ backlog.map v.entry

/-- A CQE that ends no op comes into the CQ or the backlog; or there is room in neither, and it is counted as
lost. What is there stays. -/
def Posts (v v' : Vault) (q : Cqe) : Prop :=
  ∃ backlog backlog', Threads v.next v.backlogHead backlog ∧ Threads v'.next v'.backlogHead backlog' ∧
    ((v'.told backlog').Perm (v.told backlog ++ [(none, q)]) ∨ (v'.told backlog').Perm (v.told backlog) ∧
      v'.cqRoom = false ∧ v'.opFree = none ∧ v'.cq.overflow = v.cq.overflow + 1)

theorem drainBacklogLoop_overflow (fuel : ℕ) (v : Vault) (reads : List ℕ) :
    (drainBacklogLoop fuel v reads).1.cq.overflow = v.cq.overflow := by
  induction fuel generalizing v reads with
  | zero => rfl
  | succ fuel ih =>
    cases hb : v.backlogHead with
    | none => rw [drainBacklogLoop_empty hb]
    | some op =>
      rw [drainBacklogLoop_succ hb]
      split
      · rw [ih]
        rfl
      · rfl

/-- An emission without a place is counted. -/
theorem emit_lost (hroom : (atOwnLook v reads).cqRoom = false) (hfree : (atOwnLook v reads).opFree = none)
    (u : UInt64) (res : Int32) (fl : UInt32) :
    (v.slipEngineEmit u res fl reads).cqRoom = false ∧ (v.slipEngineEmit u res fl reads).opFree = none ∧
      (v.slipEngineEmit u res fl reads).cq.overflow = v.cq.overflow + 1 := by
  have halloc : (atOwnLook v reads).opAllocLocked = none := by rw [opAllocLocked, hfree]
  rw [slipEngineEmit_eq, hroom, if_neg Bool.false_ne_true, halloc]
  refine ⟨hroom, hfree, ?_⟩
  show (drainBacklogLoop _ v reads).1.cq.overflow + 1 = _
  rw [drainBacklogLoop_overflow]

end Vault

theorem Core.Sound.emit_posts {c : Core} (h : c.Sound) (u : UInt64) (res : Int32) (fl : UInt32)
    (reads : List ℕ) : c.ring.toVault.Posts (c.ring.toVault.slipEngineEmit u res fl reads) ⟨u, res, fl⟩ := by
  obtain ⟨a, free, backlog, queue, batch, -, hr⟩ := h
  obtain ⟨given, free', backlog', hc, hgiven⟩ :=
    Vault.slipEngineEmit_places hr.placed.vault hr.placed.nodup hr.placed.length_le.2.1 u res fl reads
  refine ⟨backlog, backlog', hr.placed.vault.backlog.threads, hc.rep.backlog.threads, ?_⟩
  have hstream := hc.stream
  obtain rfl | ⟨rfl, hroom, hfree⟩ := hgiven
  · exact .inl hstream
  · rw [List.append_nil] at hstream
    exact .inr ⟨hstream, Vault.emit_lost hroom hfree u res fl⟩

namespace IocpState
section Given
variable (st : IocpState)

theorem issue_given (w : IocpOp) (refused : Option UInt32) : (st.issue w refused).1.given = st.given := by
  cases refused <;> rfl

theorem arms_given (s : Sqe) (op : Slot) (a : WinAnswers) : (st.iocpArmAccept s op a).1.given = st.given := by
  unfold iocpArmAccept
  split
  · rfl
  split
  · rfl
  next fd _ =>
  dsimp only
  split
  · rfl
  have hissue := issue_given { st with sockets := st.sockets + 1 }
    ⟨op, .accept ⟨fd, st.sockets⟩ (s.ioprio &&& ioringAcceptMultishot ≠ 0) s.fileIndex⟩ a.refused
  split
  · next st' heq =>
    rw [heq] at hissue
    exact hissue
  · next st' err heq =>
    rw [heq] at hissue
    exact hissue

theorem issueMsg_given (s : Sqe) (w : IocpOp) (a : WinAnswers) : (st.iocpIssueMsg s w a).1.given = st.given := by
  unfold iocpIssueMsg
  split
  · rfl
  split
  · exact issue_given _ _ _
  · rfl

theorem executes_given (r : Ring) (op : Slot) (a : WinAnswers) :
    (st.iocpExecute r op a).1.given = st.given := by
  unfold iocpExecute
  dsimp only
  split
  · rfl
  split
  · exact arms_given _ _ _ _
  split
  · rfl
  unfold iocpIssue
  split
  · rfl
  split
  · exact issue_given _ _ _
  · exact issue_given _ _ _
  · exact issueMsg_given _ _ _ _
  · exact issueMsg_given _ _ _ _
  · exact issue_given _ _ _

end Given
end IocpState

namespace Iocp
section Moves
variable {s s' : Iocp} {p : List PosixEvent × Iocp} {i : ℕ} {q : Cqe} {op : Slot}

/-- Nobody has other sockets than before. -/
structure SameSockets (s s' : Iocp) : Prop where
  given : s'.be.given = s.be.given
  fileTable : s'.core.ring.fileTable = s.core.ring.fileTable

theorem SameSockets.refl (s : Iocp) : s.SameSockets s := ⟨rfl, rfl⟩

/-- A step that emits nothing and leaves the sockets where they are. -/
structure Calm (s : Iocp) (p : List PosixEvent × Iocp) : Prop where
  silent : ∀ i q, .emits i q ∉ p.1
  same : s.SameSockets p.2

/-- What a step of the ring is: a packet that is taken, a registration, or a calm one. -/
inductive Moves (s : Iocp) (p : List PosixEvent × Iocp) : Prop
  | takes (a : WinAnswers) (reads : List ℕ) (hr : s.phase = .running) (hs : s.take a reads = some p)
  | registers (s₀ : Iocp) (l : TableLabel) (hl : l.registers = true) (hsame : s.SameSockets s₀)
    (hp : p = ([], s₀.registers l))
  | calm (h : s.Calm p)

theorem quiet_calm (hs : s'.quiet = some p) (hsame : s.SameSockets s') : s.Calm p := by
  cases hs
  exact ⟨fun _ _ => List.not_mem_nil, hsame⟩

theorem inCore_calm {l : CoreLabel} (hs : s'.inCore l = some p) (hsame : s.SameSockets s')
    (hring : ∀ c, s'.core.step l = some c → c.ring.fileTable = s'.core.ring.fileTable) : s.Calm p := by
  obtain ⟨c, hc, rfl⟩ := inCore_eq hs
  refine ⟨fun i q he => ?_, hsame.given, (hring c hc).trans hsame.fileTable⟩
  obtain ⟨e, -, hq⟩ := List.mem_map.mp he
  cases hq

/-- What the backend tells enter leaves the ring alone. -/
theorem leaves_calm {l : CoreLabel} (hs : s'.inCore l = some p) (hsame : s.SameSockets s')
    (hl : l.leaves = true) : s.Calm p := by
  refine inCore_calm hs hsame fun c hc => ?_
  cases l with
  | execDone res | handBack op res | execTake | execPending | waitReturn | waitFail =>
    simp only [Core.step, Core.execDone, Core.handBack, Core.execTake, Core.execPending, Core.waitReturn,
      Core.waitFail] at hc
    split at hc <;> cases hc
    rfl
  | _ => cases hl

theorem armNext_calm {a : WinAnswers} (hs : s.armNext op a = some p) : s.Calm p := by
  have hgiven := IocpState.arms_given s.be (s.core.ring.opPool op).sqe op a
  unfold Iocp.armNext at hs
  split at hs
  · next be heq =>
    rw [heq] at hgiven
    exact quiet_calm hs ⟨hgiven, rfl⟩
  · next be res heq =>
    rw [heq] at hgiven
    exact leaves_calm hs ⟨hgiven, rfl⟩ rfl

theorem execute_calm {a : WinAnswers} (hs : s.execute a = some p) : s.Calm p := by
  unfold Iocp.execute at hs
  split at hs
  swap
  · cases hs
  next f op linked hpc =>
  have hgiven := IocpState.executes_given s.be s.core.ring op a
  split at hs
  · next be res heq =>
    rw [heq] at hgiven
    exact leaves_calm hs ⟨hgiven, rfl⟩ rfl
  · next be heq =>
    rw [heq] at hgiven
    obtain ⟨q, t, hq, ht, rfl⟩ := andThen_eq hs
    have htaken : s.Calm q := leaves_calm hq ⟨hgiven, rfl⟩ rfl
    have hpending := leaves_calm ht htaken.same rfl
    refine ⟨fun i c he => ?_, hpending.same⟩
    exact (List.mem_append.mp he).elim (htaken.silent i c) (hpending.silent i c)

theorem moves_of_running (hr : s.phase = .running) {l : IocpLabel} (hs : s.running l = some p) :
    s.Moves p := by
  cases l with
  | engine l =>
    simp only [Iocp.running] at hs
    split at hs
    · next hl => exact .calm (inCore_calm hs (.refl s) fun c hc => (engine_sameBackend hl hc).1.fileTable)
    · cases hs
  | execute a => exact .calm (execute_calm hs)
  | take a reads => exact .takes a reads hr hs
  | back =>
    simp only [Iocp.running, Iocp.waitReturns] at hs
    repeat' split at hs
    · exact .calm (leaves_calm hs ⟨rfl, rfl⟩ rfl)
    · cases hs
    · cases hs
  | senderEmit u res reads => exact .calm (quiet_calm hs ⟨rfl, rfl⟩)
  | registers l =>
    simp only [Iocp.running] at hs
    repeat' split at hs
    · next hl =>
      cases hs
      exact .registers s l hl (.refl s) rfl
    · cases hs
    · cases hs
  | senderPoke posted | close =>
    simp only [Iocp.running] at hs
    split at hs
    · exact .calm (quiet_calm hs ⟨rfl, rfl⟩)
    · cases hs
  | ends w answer | drain | closed => cases hs

theorem moves_of_out {l : IocpLabel} (hs : s.out l = some p) : s.Moves p := by
  unfold Iocp.out at hs
  split at hs
  · unfold Iocp.ends at hs
    dsimp only at hs
    repeat' split at hs
    · exact .calm (quiet_calm hs ⟨rfl, rfl⟩)
    · exact .calm (quiet_calm hs ⟨rfl, rfl⟩)
    · cases hs
  · unfold Iocp.drain at hs
    repeat' split at hs
    · cases hs
    · exact .calm (quiet_calm hs ⟨rfl, rfl⟩)
    · obtain ⟨o, -, hs⟩ := Option.bind_eq_some_iff.mp hs
      exact .calm (quiet_calm hs ⟨rfl, rfl⟩)
    · cases hs
  · unfold Iocp.closePort at hs
    split at hs
    swap
    · cases hs
    cases hs
    -- the table goes with the ring
    refine .registers _ .unregister rfl ?_ rfl
    exact ⟨rfl, rfl⟩
  · next hr => exact moves_of_running hr hs
  · cases hs

end Moves

section Heard
variable {s s' : Iocp} {tr : List PosixEvent} {p : List PosixEvent × Iocp} {i : ℕ} {q : Cqe} {op : Slot}

/-- What the events say is heard: the completions given are those in the CQ and the backlog, and a step that
emits a CQE posts it. -/
structure Heard (s : Iocp) (tr : List PosixEvent) : Prop where
  completes : ∃ backlog, Threads s.core.ring.next s.core.ring.backlogHead backlog ∧
    ∀ i, (s.core.completionsOf backlog i).Perm (gives (coreEvents tr) i).reduceOption
  emits : ∀ l s' i q, iocpMachine.step s l = some s' → .emits i q ∈ iocpMachine.events s l →
    s.core.ring.toVault.Posts s'.core.ring.toVault q

theorem armNext_ring {a : WinAnswers} (hs : s.armNext op a = some p) : p.2.core.ring = s.core.ring := by
  unfold Iocp.armNext at hs
  split at hs
  · cases hs
    rfl
  · obtain ⟨c, hc, rfl⟩ := inCore_eq hs
    simp only [Core.step, Core.handBack] at hc
    split at hc <;> cases hc
    rfl

theorem rearm_posts (hg : s.core.Sound) {res : Int32} {a : WinAnswers} {reads : List ℕ}
    (hs : s.rearm op res a reads = some p) (he : .emits i q ∈ p.1) :
    s.core.ring.toVault.Posts p.2.core.ring.toVault q := by
  unfold Iocp.rearm at hs
  obtain ⟨r, t, hr, ht, rfl⟩ := andThen_eq hs
  obtain rfl := (Option.some.inj hr).symm
  have hq : q = ⟨(s.core.ring.opPool op).sqe.userData, res, ioringCqeFMore⟩ := by
    have hhead := (List.mem_append.mp he).resolve_right ((armNext_calm ht).silent i q)
    unfold Iocp.emits at hhead
    split at hhead
    · cases List.mem_singleton.mp hhead
      rfl
    · cases hhead
  rw [hq, armNext_ring ht]
  exact hg.emit_posts _ _ _ reads

theorem take_posts (hg : s.core.Sound) {a : WinAnswers} {reads : List ℕ} (hs : s.take a reads = some p)
    (he : .emits i q ∈ p.1) : s.core.ring.toVault.Posts p.2.core.ring.toVault q := by
  unfold Iocp.take at hs
  split at hs
  swap
  · cases hs
  next f forever done packet port hpc hport =>
  split at hs
  · cases hs
  split at hs
  · cases hs
    cases he
  next w answer =>
  obtain ⟨o, -, hs⟩ := Option.bind_eq_some_iff.mp hs
  obtain ⟨fixed, allocHint, hfixed⟩ := iocpAnswer_fixed
    { s.be with port, inFlight := s.be.inFlight.erase w } s.core.ring o answer
  dsimp only at hs
  rw [hfixed] at hs
  split at hs
  · have hsound := hg.run ((fixed_run s.core fixed allocHint).mono fun _ _ h => h.1)
    have hposts := rearm_posts (by exact hsound) hs he
    exact hposts
  · exact absurd he ((leaves_calm hs (.refl _) rfl).silent i q)

/-- Only a packet that is taken brings an emission. -/
theorem out_posts (hg : s.core.Sound) {l : IocpLabel} (hs : s.out l = some p) (he : .emits i q ∈ p.1) :
    s.core.ring.toVault.Posts p.2.core.ring.toVault q := by
  cases moves_of_out hs with
  | takes a reads hr hs => exact take_posts hg hs he
  | registers s₀ l hl hsame hp =>
    rw [hp] at he
    cases he
  | calm h => exact absurd he (h.silent i q)

end Heard
end Iocp

section Runs
variable {n : ℕ} {e : UInt32} {tr : List PosixEvent} {s : Iocp}

theorem iocp_heard (hr : Run iocpMachine (fun _ _ => True) (setupIocp n e) tr s) : s.Heard tr := by
  have hcore := (iocp_runs hr).1.mono fun _ _ h => h.1
  refine ⟨?_, fun l s' i q hs he =>
    Iocp.out_posts ((setupCore_sound n e).run hcore) (Iocp.step_out hs) he⟩
  obtain ⟨a, free, backlog, queue, batch, given, -, hrep, hperm, hgiven⟩ :=
    core_run_refines (C := fun _ _ => True) (fun _ _ h => h) (fun _ _ _ _ _ _ _ _ _ _ _ _ => trivial) hcore
  refine ⟨backlog, hrep.placed.vault.backlog.threads, fun i => ?_⟩
  have hgives := completions_eq hgiven i
  rw [List.reduceOption, ← hgives]
  exact (hperm.filter _).map _

/-- In every run of the completion port backend each op speaks in one shape, over all the calls that were
issued for it, and what it says is in the CQ or the backlog, or counted as lost. -/
theorem iocp_speaks_in_one_shape {i : ℕ} {sqe : Sqe}
    (hr : Run iocpMachine (fun _ _ => True) (setupIocp n e) tr s) (hi : .accept i sqe ∈ coreEvents tr) :
    OneVoice tr s.core i sqe ∧ s.Heard tr := by
  refine ⟨?_, iocp_heard hr⟩
  have haccepts {tr : List PosixEvent} {s : Iocp}
      (hr : Run iocpMachine (fun _ _ => True) (setupIocp n e) tr s) : s.Accepts := by
    refine hr.invariant (fun _ s => s.Accepts) (fun _ w o ho => by cases ho) ?_
    intro tr s l s' hr ha _ hs
    obtain ⟨hcore, hinv⟩ := iocp_runs hr
    have hsound := (setupCore_sound n e).run (hcore.mono fun _ _ h => h.1)
    exact (hinv.voices hsound (final_run hcore) ha (Iocp.step_out hs)).2
  refine oneVoice_run Iocp.core (fun tr s hr => (iocp_runs hr).1.mono fun _ _ h => h.1) ?_ hr hi
  intro tr s l s' hr _ hs
  obtain ⟨hcore, hinv⟩ := iocp_runs hr
  have hsound := (setupCore_sound n e).run (hcore.mono fun _ _ h => h.1)
  exact (hinv.voices hsound (final_run hcore) (haccepts hr) (Iocp.step_out hs)).1

/-- A multishot accept gives two sockets, the second with the CQ full, and then cannot be armed again. -/
theorem iocp_speaks_in_one_shape_accept : ∃ tr s,
    Run iocpMachine (fun _ _ => True) (setupIocp 2 1) tr s ∧
      (voice tr 0).map Cqe.more = [true, true, false] ∧ (voice tr 0).map Cqe.res = [5, 6, -125] ∧
      s.core.ring.cq.overflow = 2 ∧
      OneVoice tr s.core 0 { opcode := .accept, ioprio := 1, userData := 7 } ∧ s.Heard tr := by
  obtain ⟨tr, s, hr, hmore, hres, hover, haccept⟩ := Run.of_exec iocpMachine (fun _ _ => True) (setupIocp 2 1)
    (fun tr s => (voice tr 0).map Cqe.more = [true, true, false] ∧
      (voice tr 0).map Cqe.res = [5, 6, -125] ∧ s.core.ring.cq.overflow = 2 ∧
      .accept 0 { opcode := .accept, ioprio := 1, userData := 7 } ∈ coreEvents tr)
    (acceptWaits ++ [.ends 0 (.ok 0), .take (winGrants 6) [], .ends 1 (.ok 0),
      .take { winGrants 0 with callocs := false } [], .back, .engine (.complete [])]) (by decide +kernel)
  exact ⟨tr, s, hr, hmore, hres, hover, iocp_speaks_in_one_shape hr haccept⟩

end Runs

end SlipstreamIO.Engine
