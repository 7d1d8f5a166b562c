import SlipstreamIO.EnterRefinement

/-! Each step of the engine is one step of the abstract ring, or none, and gives exactly the
completions its events report. -/
namespace SlipstreamIO.Engine

open ThreadedList Runs

/-- The completions a list of events reports. -/
def givenBy (ev : List Event) : List (Option ℕ × Cqe) :=
  ev.filterMap (fun e => match e with
    | .give i (some c) => some (some i, c)
    | _ => none)

/-- The engine and the abstract ring agree. -/
structure Rep (s : Core) (a : Chains) (free backlog queue batch : List Slot) : Prop where
  placed : Placed s a free backlog queue batch
  governs : Governs s a (queue ++ batch)

/-- `process_queue` is about to run a MSG_RING that `msg_ring` will refuse. -/
def Core.messageFails (s : Core) (target : MsgTarget) (op : Slot) : Prop :=
  (∃ f, s.pc = .queue f) ∧ s.ring.queueHead = some op ∧ s.ring.blocking = none ∧
    s.ring.chainFailed = .holds ∧ (s.ring.opPool op).sqe.opcode = .msgRing ∧
    ((s.ring.opPool op).sqe.flags.fixedFile = true →
      0 ≤ s.ring.slipFixedLookup (s.ring.opPool op).sqe.fd) ∧
    ((s.ring.opPool op).sqe.addr ≠ ioringMsgData ∨ target = .noRing)

instance (s : Core) (target : MsgTarget) (op : Slot) : Decidable (s.messageFails target op) :=
  have : Decidable (∃ f, s.pc = .queue f) :=
    match s.pc with
    | .queue f => isTrue ⟨f, rfl⟩
    | .out _ | .take _ _ _ _ _ | .exec _ _ _ _ | .post _ _ _ | .settle _ | .check _ | .wait _ _ _
    | .complete _ _ => isFalse nofun
  inferInstanceAs (Decidable (_ ∧ _))

/-- The act of the abstract ring a label can be. -/
def Matches (s : Core) (a : Chains) : CoreLabel → Act → Prop
  | .queueStep _ _, .cancel | .queueStep _ _, .fail _
  | .queueStep _ _, .begin | .execTake, .hold | .execPending, .pend | .settle _, .settle
  | .post _, .post _ | .handBack _ _, .handBack _ _ | .complete _, .complete _ _
  | .offFinish _ _ _, .finish _ _ | .offPost _ _, .offPost _ _ => True
  | .takeSqe, .accept sqe => ∃ call rest submitted batchHead batchTail,
    s.pc = .take call (some sqe :: rest) submitted batchHead batchTail
  | .queueStep target _, .message res => res < 0 → ∃ op, s.messageFails target op
  | .execDone res, .answer res' => res' = res
  | .cancelHeld t _, .takeHeld i _ sc st =>
    (s.ring.opPool t).seq = some i ∧ st = (s.ring.opPool t).sqe ∧
      ∃ c, s.pc.executing = some c ∧ sc = (s.ring.opPool c).sqe
  | .cancelQueued p _, .takeQueued i _ sc st =>
    ∃ t pre suf, p = Link.after (pre : List Slot) ∧
      Threads s.ring.next s.ring.queueHead (pre ++ t :: suf) ∧
      a.queue.map some = (pre ++ t :: suf).map (fun x => (s.ring.opPool x).seq) ∧
      (s.ring.opPool t).seq = some i ∧ st = (s.ring.opPool t).sqe ∧
      ∃ c, s.pc.executing = some c ∧ sc = (s.ring.opPool c).sqe
  | _, _ => False

/-- The step from `s` to `s'` is a step of the abstract ring, and gives what its events say. -/
def Simulated (s s' : Core) (l : CoreLabel) (a : Chains) (backlog : List Slot) : Prop :=
  ∃ a' free' backlog' queue' batch' given,
    ((s.events l = [] ∧ a' = a) ∨ ∃ act, Matches s a l act ∧ act.Step a (s.events l) a') ∧
    Rep s' a' free' backlog' queue' batch' ∧
    (s'.ring.cq.log ++ backlog'.map s'.ring.entry).Perm
      (s.ring.cq.log ++ backlog.map s.ring.entry ++ given) ∧
    given.filter (fun p => p.1.isSome) = givenBy (s.events l)

theorem Vault.Completes.refl {v : Vault} {free backlog : List Slot} (hr : v.Rep free backlog) :
    v.Completes v free backlog [] [] free backlog :=
  ⟨hr, fun _ => rfl, fun _ _ _ _ => rfl, rfl, rfl, by simp⟩

section Steps
variable {s s' : Core} {a a' : Chains} {free backlog queue batch free' backlog' : List Slot}
  {given : List (Option ℕ × Cqe)} {x : Slot} {i : ℕ} {st u : Stage}

theorem about_eq (hi : (s.ring.opPool x).seq = some i) (e : ℕ → Event) : s.about x e = [e i] := by
  rw [Core.about, hi]

theorem gives_spec (hi : (s.ring.opPool x).seq = some i)
    (hc : Copies (s.ring.opPool x).sqe (a.sqe i)) (res : Int32) :
    ∃ g, s.gives x res = [.give i g] ∧ a.Completion i res g ∧
      (s.ring.toVault.completionOf x res).filter (fun p => p.1.isSome) =
        givenBy [.give i g] := by
  refine ⟨_, about_eq hi _, ?_, ?_⟩
  · unfold Chains.Completion
    rw [hc.cqeSkipSuccess, hc.userData]
    by_cases h : 0 ≤ res ∧ (a.sqe i).flags.cqeSkipSuccess = true
    · simp [h]
    · rw [if_neg h, if_neg (by simpa using h)]
      exact ⟨_, rfl⟩
  · unfold Vault.completionOf
    simp only
    split <;> simp [givenBy, hi]

/-- A step that changes neither the places nor the chain's standing. -/
theorem Governs.keep {L L' : List Slot} (h : Governs s a L) (hf : s'.ring.chainFailed = a'.failed)
    (hbusy : s'.busy = a'.current.isSome)
    (hexec : ∀ f op l t, s'.pc = .exec f op l t →
      s'.ring.blocking = none ∧ ∃ i, a'.current = some i ∧ l = a'.linked i)
    (hw : s'.waitingFor = s.waitingFor) (hb : a'.blocking = a.blocking)
    (ht : a'.ticket = a.ticket) (hbd : s'.ring.blockedDone = s.ring.blockedDone)
    (hbf : s'.ring.blockedFailed = s.ring.blockedFailed)
    (hpend : ∀ b i, s.waitingFor = some b → a.blocking = some i → a.ticket = none →
      (s.ring.opPool b).seq = some i → s.At L b (a.stage i) →
      (s'.ring.opPool b).seq = some i ∧ s'.At L' b (a'.stage i))
    (hback : ∀ b, s.waitingFor = some b → (∀ w, s.At L b w → w = .queued ∨ ∃ res, w = .off res) →
      ∀ w, s'.At L' b w → w = .queued ∨ ∃ res, w = .off res) : Governs s' a' L' where
  failed := hf
  busy := hbusy
  exec := hexec
  waiting := by rw [hw, hb, h.waiting]
  pends := by
    intro b i hwb hbi
    rw [hw] at hwb
    rw [hb] at hbi
    have hp := h.pends b i hwb hbi
    refine ⟨fun hn => ?_, fun j v hj => ?_⟩
    · rw [ht] at hn
      obtain ⟨hd, hs, hat⟩ := hp.live hn
      obtain ⟨hs', hat'⟩ := hpend b i hwb hbi hn hs hat
      exact ⟨by rw [hbd, hd], hs', hat'⟩
    · rw [ht] at hj
      obtain ⟨hji, hd, hv, hat⟩ := hp.ticketed j v hj
      exact ⟨hji, by rw [hbd, hd], by rw [hbf, hv], hback b hwb hat⟩
  idle := by
    intro hn
    rw [hw] at hn
    rw [hbd]
    exact h.idle hn

/-- A step between states in which no linked op is pending. -/
theorem Governs.clear {L : List Slot} (hf : s'.ring.chainFailed = a'.failed)
    (hbusy : s'.busy = a'.current.isSome)
    (hexec : ∀ f op l t, s'.pc = .exec f op l t →
      s'.ring.blocking = none ∧ ∃ i, a'.current = some i ∧ l = a'.linked i)
    (hw : s'.waitingFor = none) (hb : a'.blocking = none)
    (hd : s'.ring.blockedDone = none) : Governs s' a' L where
  failed := hf
  busy := hbusy
  exec := hexec
  waiting := by rw [hw, hb]
  pends := by
    intro b i hwb
    rw [hw] at hwb
    cases hwb
  idle := fun _ => hd

theorem Governs.blocking_none {L : List Slot} (h : Governs s a L) :
    s.waitingFor = none ↔ a.blocking = none := by
  rw [← Option.isNone_iff_eq_none, ← Option.isNone_iff_eq_none, ← Option.not_isSome,
    ← Option.not_isSome, h.waiting]

/-- A step in which the vault works, nothing moves and the standing stays. -/
theorem Rep.idle (h : Rep s a free backlog queue batch)
    (hc : s.ring.toVault.Completes s'.ring.toVault free backlog [] given free' backlog')
    (hs : SamePlaces s s') (hf : s'.ring.chainFailed = s.ring.chainFailed)
    (hbusy : s'.busy = s.busy) (hpc : s'.pc = s.pc ∨ s'.busy = false)
    (hw : s'.waitingFor = s.waitingFor) (hbl : s'.ring.blocking = s.ring.blocking)
    (hbd : s'.ring.blockedDone = s.ring.blockedDone)
    (hbf : s'.ring.blockedFailed = s.ring.blockedFailed) :
    Rep s' a free' backlog' queue batch where
  placed := h.placed.idle hc hs rfl rfl rfl rfl
  governs := by
    refine h.governs.keep (by rw [hf, h.governs.failed]) (by rw [hbusy, h.governs.busy]) ?_ hw rfl
      rfl hbd hbf (fun b i _ _ _ hseq hat => ?_) (fun b _ hat w hw => hat w ((hs.at_iff _ _ _).mp hw))
    · intro f op l t he
      rcases hpc with hpc | hpc
      · rw [hbl]
        exact h.governs.exec f op l t (hpc ▸ he)
      · simp [Core.busy, he] at hpc
    · exact ⟨by rw [h.placed.untouched hc hat List.not_mem_nil]; exact hseq,
        (hs.at_iff _ _ _).mpr hat⟩

/-- A step of the submitter that only moves on. -/
theorem Rep.goto (h : Rep s a free backlog queue batch) {pc : Pc} {r : Ring}
    (hv : r.toVault = s.ring.toVault) (hqh : r.queueHead = s.ring.queueHead)
    (hqt : r.queueTail = s.ring.queueTail) (hf : r.chainFailed = s.ring.chainFailed)
    (hbl : r.blocking = s.ring.blocking) (hbd : r.blockedDone = s.ring.blockedDone)
    (hbf : r.blockedFailed = s.ring.blockedFailed)
    (hin : pc.inEnter = []) (hin' : s.pc.inEnter = [])
    (hbh : pc.batchHead = s.pc.batchHead) (hbt : pc.batchTail = s.pc.batchTail)
    (hbusy : s.busy = false) (hbusy' : Core.busy { s with ring := r, pc := pc } = false) :
    Rep { s with ring := r, pc := pc } a free backlog queue batch := by
  have hempty (p : Pc) (hp : p.inEnter = []) :
      p.executing = none ∧ p.posting = none ∧ p.done = [] := by
    simpa [Pc.inEnter, and_assoc] using hp
  obtain ⟨he, hp, hd⟩ := hempty pc hin
  obtain ⟨he', hp', hd'⟩ := hempty s.pc hin'
  have hwait (q : Core) (hq : q.busy = false) : q.waitingFor = q.ring.blocking := by
    unfold Core.busy at hq
    unfold Core.waitingFor
    split
    · next he => simp [he] at hq
    · rfl
  refine h.idle (by rw [hv]; exact .refl h.placed.vault)
    ⟨he.trans he'.symm, hp.trans hp'.symm, hd.trans hd'.symm, hbh, hbt, hqh, hqt, rfl, rfl⟩ hf
    (hbusy'.trans hbusy.symm) (Or.inr hbusy') ?_ hbl hbd hbf
  rw [hwait _ hbusy', hwait s hbusy]
  exact hbl

/-- A step with no completion and no act. -/
theorem Simulated.silent {l : CoreLabel} (hev : s.events l = [])
    (hr : Rep s' a free backlog' queue batch) (hlog : s'.ring.cq.log = s.ring.cq.log)
    (hent : backlog'.map s'.ring.entry = backlog.map s.ring.entry) :
    Simulated s s' l a backlog :=
  ⟨a, _, _, _, _, [], Or.inl ⟨hev, rfl⟩, hr, by rw [hlog, hent]; simp, by simp [hev, givenBy]⟩

/-- A step with no act in which the vault gives only what answers no SQE. -/
theorem Simulated.vault {l : CoreLabel} (hev : s.events l = [])
    (hc : s.ring.toVault.Completes s'.ring.toVault free backlog [] given free' backlog')
    (hr : Rep s' a free' backlog' queue batch)
    (hg : given.filter (fun p => p.1.isSome) = []) : Simulated s s' l a backlog :=
  ⟨a, _, _, _, _, given, Or.inl ⟨hev, rfl⟩, hr, hc.stream, by simp [hg, hev, givenBy]⟩

theorem Rep.read (h : Rep s a free backlog queue batch) (k : ℕ) :
    Simulated s { s with ring := s.ring.inVault (·.callerReads k) } (.read k) a backlog := by
  have hc := Vault.Completes.callerReads h.placed.vault k
  exact .vault rfl hc (h.idle hc ⟨rfl, rfl, rfl, rfl, rfl, rfl, rfl, rfl, rfl⟩ rfl rfl (Or.inl rfl)
    rfl rfl rfl rfl) rfl

theorem Rep.emit (h : Rep s a free backlog queue batch) (u : UInt64) (res : Int32) (fl : UInt32)
    (reads : List ℕ) :
    Simulated s { s with ring := s.ring.inVault (·.slipEngineEmit u res fl reads) }
      (.emit u res fl reads) a backlog := by
  obtain ⟨given, free', backlog', hc, hg⟩ :=
    Vault.slipEngineEmit_completes h.placed.vault h.placed.nodup h.placed.length_le.2.1 u res fl reads
  refine .vault rfl hc (h.idle hc ⟨rfl, rfl, rfl, rfl, rfl, rfl, rfl, rfl, rfl⟩ rfl rfl (Or.inl rfl)
    rfl rfl rfl rfl) ?_
  rcases hg with rfl | rfl <;> rfl

theorem Rep.enter (h : Rep s a free backlog queue batch) {call : Call}
    (hs : s.step (.enter call) = some s') : Simulated s s' (.enter call) a backlog := by
  simp only [Core.step] at hs
  split at hs
  · next ret hpc =>
    cases hs
    refine .silent rfl (h.goto rfl rfl rfl rfl rfl rfl rfl ?_ ?_ ?_ ?_ ?_ ?_) rfl rfl <;>
      simp [Pc.inEnter, Pc.executing, Pc.posting, Pc.done, Pc.batchHead, Pc.batchTail, Core.busy,
        hpc]
  · cases hs

theorem Rep.check (h : Rep s a free backlog queue batch) {left : ℤ}
    (hs : s.check left = some s') : Simulated s s' (.check left) a backlog := by
  unfold Core.check at hs
  split at hs
  · next f hpc =>
    have hgo (pc : Pc) (hin : pc.inEnter = []) (hbh : pc.batchHead = none)
        (hbt : pc.batchTail = none) (hb : Core.busy { s with pc := pc } = false) :
        Simulated s { s with pc := pc } (.check left) a backlog := by
      refine .silent rfl (h.goto rfl rfl rfl rfl rfl rfl rfl hin ?_ (hbh.trans ?_) (hbt.trans ?_) ?_
        hb) rfl rfl <;>
        simp [Pc.inEnter, Pc.executing, Pc.posting, Pc.done, Pc.batchHead, Pc.batchTail, Core.busy,
          hpc]
    have hout (ret : Option Int32) :
        Simulated s { s with pc := .out ret } (.check left) a backlog :=
      hgo _ rfl rfl rfl rfl
    have hwait (forever : Bool) :
        Simulated s { s with pc := .wait f forever [] } (.check left) a backlog :=
      hgo _ rfl rfl rfl rfl
    split at hs
    · cases hs
      exact hout _
    · split at hs
      · split at hs
        · cases hs
          exact hout _
        · cases hs
          exact hwait _
      · cases hs
        exact hwait _
  · cases hs

theorem Rep.waitFail (h : Rep s a free backlog queue batch)
    (hs : s.waitFail = some s') : Simulated s s' .waitFail a backlog := by
  unfold Core.waitFail at hs
  split at hs
  · next f forever hpc =>
    cases hs
    refine .silent rfl (h.goto rfl rfl rfl rfl rfl rfl rfl ?_ ?_ ?_ ?_ ?_ ?_) rfl rfl <;>
      simp [Pc.inEnter, Pc.executing, Pc.posting, Pc.done, Pc.batchHead, Pc.batchTail, Core.busy,
        hpc]
  · cases hs

theorem Rep.waitReturn (h : Rep s a free backlog queue batch)
    (hs : s.waitReturn = some s') : Simulated s s' .waitReturn a backlog := by
  unfold Core.waitReturn at hs
  split at hs
  · next f forever done hpc =>
    cases hs
    refine .silent rfl (h.idle (.refl h.placed.vault) ⟨?_, ?_, ?_, ?_, ?_, rfl, rfl, rfl, rfl⟩ rfl ?_
      (Or.inr ?_) ?_ rfl rfl rfl) rfl rfl <;>
      simp [Pc.executing, Pc.posting, Pc.done, Pc.batchHead, Pc.batchTail, Core.busy,
        Core.waitingFor, hpc]
  · cases hs

theorem Rep.settle (h : Rep s a free backlog queue batch) {reads : List ℕ}
    (hs : s.settle reads = some s') : Simulated s s' (.settle reads) a backlog := by
  unfold Core.settle at hs
  split at hs
  swap
  · cases hs
  next f hpc =>
  cases hs
  obtain ⟨free', backlog', hc, -⟩ :=
    Vault.Completes.drain h.placed.vault h.placed.nodup h.placed.length_le.2.1 reads
  have hbusy : s.busy = false := by simp [Core.busy, hpc]
  have hcur : a.current = none := by
    have hb := h.governs.busy
    rw [hbusy] at hb
    simpa using hb.symm
  have hwait : s.waitingFor = s.ring.blocking := by simp [Core.waitingFor, hpc]
  have hplaces (r : Ring) (hqh : r.queueHead = s.ring.queueHead)
      (hqt : r.queueTail = s.ring.queueTail) : SamePlaces s { s with ring := r, pc := .check f } := by
    constructor <;>
      simp [Pc.executing, Pc.posting, Pc.done, Pc.batchHead, Pc.batchTail, hpc, hqh, hqt]
  by_cases hset : s.ring.blockedDone ≠ none ∧ s.ring.blockedDone = s.ring.blocking
  · -- the ticket is for the pending op, so the abstract ring has it up
    obtain ⟨b, hb⟩ := Option.ne_none_iff_exists'.mp hset.1
    have hwb : s.waitingFor = some b := by rw [hwait, ← hset.2, hb]
    obtain ⟨i, hi⟩ := Option.isSome_iff_exists.mp (by rw [← h.governs.waiting, hwb]; rfl)
    have hp := h.governs.pends b i hwb hi
    cases ht : a.ticket with
    | none =>
      have hnone := (hp.live ht).1
      rw [hb] at hnone
      cases hnone
    | some jv =>
      obtain ⟨j, v⟩ := jv
      obtain ⟨rfl, -, hv, -⟩ := hp.ticketed j v ht
      have hring : s.ring.settleWorkerTicket reads = { s.ring with
          toVault := (s.ring.toVault.drainBacklogLocked reads).1
          blocking := none
          blockedDone := none
          chainFailed := if v = .holds then s.ring.chainFailed else v
          blockedFailed := .holds } := by
        unfold Ring.settleWorkerTicket
        rw [if_pos hset, hv]
        cases v <;> simp [Ring.inVault]
      refine ⟨_, free', backlog', queue, batch, [],
        Or.inr ⟨.settle, trivial, Act.Step.settle hcur ht hi⟩, ⟨?_, ?_⟩, ?_, rfl⟩
      · rw [hring]
        exact h.placed.idle hc (hplaces _ rfl rfl) rfl rfl rfl rfl
      · rw [hring]
        refine Governs.clear ?_ ?_ (fun f op l t he => by cases he) rfl rfl rfl
        · simp [h.governs.failed]
        · simp [Core.busy, hcur]
      · rw [hring]
        exact hc.stream
  · have hring : s.ring.settleWorkerTicket reads =
        s.ring.inVault (fun v => (v.drainBacklogLocked reads).1) := by
      unfold Ring.settleWorkerTicket
      rw [if_neg hset]
    rw [hring]
    refine .vault rfl hc (h.idle hc (hplaces _ rfl rfl) rfl ?_ (Or.inr ?_) ?_ rfl rfl rfl) rfl <;>
      simp [Core.busy, Core.waitingFor, Ring.inVault, hpc]

theorem Rep.write (h : Rep s a free backlog queue batch) {r : Ring} (hk : BackendWrites s r) :
    Simulated s { s with ring := r } (.write r) a backlog := by
  have hsame {y : Slot} {w : Stage} (hy : s.At (queue ++ batch) y w) (hne : w ≠ .held)
      (hne' : w ≠ .running) : r.opPool y = s.ring.opPool y := by
    refine hk.opPool y (fun hh => hne ?_) (fun he => hne' ?_)
    · exact h.placed.exclusive hy (show s.At _ y .held from hh)
    · exact h.placed.exclusive hy (show s.At _ y .running from he)
  have hout {y : Slot} (hy : y ∈ free ∨ y ∈ backlog) : r.opPool y = s.ring.opPool y := by
    have hnot (w : Stage) : ¬ s.At (queue ++ batch) y w := by
      intro hw
      obtain ⟨hf, hb, -⟩ := h.placed.outside hw
      exact hy.elim hf hb
    exact hk.opPool y (hnot .held) (hnot .running)
  have hnext (l : List Slot) (hl : ∀ y ∈ l, r.opPool y = s.ring.opPool y) (y : Slot) (hy : y ∈ l) :
      r.next y = s.ring.next y := by
    rw [Vault.next, hl y hy]
    rfl
  have hqueued (y : Slot) (hy : y ∈ queue ++ batch) : r.opPool y = s.ring.opPool y :=
    hsame (show s.At _ y .queued from hy) (by simp) (by simp)
  have hentry : backlog.map r.entry = backlog.map s.ring.entry :=
    List.map_congr_left (fun y hy => by rw [Vault.entry, hout (Or.inr hy)]; rfl)
  have hrep : Rep { s with ring := r } a free backlog queue batch := ⟨?_, ?_⟩
  · exact .silent rfl hrep (by rw [hk.cq]) hentry
  · refine ⟨⟨?_, ?_⟩, ?_, ?_, fun y => ?_, ?_, ?_, h.placed.accepted⟩
    · rw [hk.opFree]
      exact h.placed.vault.free.congr (hnext free (fun y hy => hout (Or.inl hy)))
    · rw [hk.backlogHead, hk.backlogTail]
      exact h.placed.vault.backlog.congr (hnext backlog (fun y hy => hout (Or.inr hy)))
    · rw [hk.queueHead, hk.queueTail]
      exact h.placed.queueList.congr (hnext queue (fun y hy =>
        hqueued y (List.mem_append_left _ hy)))
    · exact h.placed.batchList.congr (hnext batch (fun y hy =>
        hqueued y (List.mem_append_right _ hy)))
    · rw [hk.opPoolN]
      exact h.placed.places y
    · rw [← h.placed.queueSeq]
      exact List.map_congr_left (fun y _ => hk.seq y)
    · refine h.placed.tracks.same (fun y w => Iff.rfl) (fun y w _ => ⟨hk.seq y, ?_⟩) rfl rfl
      rw [hk.sqe y]
      exact .refl _
  · refine h.governs.keep (by rw [hk.chainFailed, h.governs.failed]) h.governs.busy
      (fun f op l t he => by rw [hk.blocking]; exact h.governs.exec f op l t he) ?_ rfl rfl
      hk.blockedDone hk.blockedFailed (fun b i _ _ _ hseq hat => ⟨by rw [hk.seq, hseq], hat⟩)
      (fun _ _ hat => hat)
    unfold Core.waitingFor
    rw [hk.blocking]

/-- An op in enter's or the backend's hands finishes: one completion, and the slot goes. -/
theorem Placed.closing (h : Placed s a free backlog queue batch) (s' : Core) (a' : Chains)
    {res : Int32} {reads : List ℕ}
    (hx : s.At (queue ++ batch) x st) (hst : st ≠ .queued) (hi : (s.ring.opPool x).seq = some i)
    (hv : s'.ring.toVault = s.ring.toVault.slipEnginePost x res reads)
    (hqh : s'.ring.queueHead = s.ring.queueHead) (hqt : s'.ring.queueTail = s.ring.queueTail)
    (hbh : s'.pc.batchHead = s.pc.batchHead) (hbt : s'.pc.batchTail = s.pc.batchTail)
    (hin : ∀ y, s'.pc.inEnter.count y + s'.holds y + [x].count y =
      s.pc.inEnter.count y + s.holds y)
    (hleft : ∀ y w, s'.At (queue ++ batch) y w → s.At (queue ++ batch) y w ∧ (y = x → w ≠ st))
    (hstay : ∀ y w, s.At (queue ++ batch) y w → y ≠ x → s'.At (queue ++ batch) y w)
    (hacc : s'.accepted = s.accepted) (hn : a'.n = a.n) (hsqe : a'.sqe = a.sqe)
    (hstage : ∀ j, a'.stage j = if j = i then .closed else a.stage j)
    (hqueue : a'.queue = a.queue) :
    ∃ free' backlog', Placed s' a' free' backlog' queue batch ∧
      (s'.ring.cq.log ++ backlog'.map s'.ring.entry).Perm
        (s.ring.cq.log ++ backlog.map s.ring.entry ++ s.ring.toVault.completionOf x res) ∧
      ∀ y w, s.At (queue ++ batch) y w → y ≠ x → s'.ring.opPool y = s.ring.opPool y := by
  obtain ⟨free', backlog', hc⟩ := Vault.slipEnginePost_completes h.vault
    (h.nodup_with hx) h.length_le.2.1 res reads
  rw [← hv] at hc
  exact ⟨free', backlog', h.close hx hst hi hc hqh hqt hbh hbt hin hleft hstay hacc hn hsqe
    hstage hqueue, hc.stream, fun y w hy hne => h.untouched hc hy (by simpa using hne)⟩

theorem Rep.post (h : Rep s a free backlog queue batch) (hw : a.WellFormed) {reads : List ℕ}
    (hs : s.post reads = some s') : Simulated s s' (.post reads) a backlog := by
  unfold Core.post at hs
  split at hs
  swap
  · cases hs
  next f op res hpc =>
  cases hs
  have hx : s.At (queue ++ batch) op (.posting res) := by simp [Core.At, Pc.posting, hpc]
  obtain ⟨i, hi, hsti, hcopy⟩ := h.placed.tracks.owner op _ hx
  obtain ⟨hcur, hbl⟩ := hw.posting i res hsti
  obtain ⟨g, hg, hcompl, hgiven⟩ := gives_spec hi hcopy res
  have hev : s.events (.post reads) = [.give i g] := by simp [Core.events, hpc, hg]
  have hwait : s.waitingFor = s.ring.blocking := by simp [Core.waitingFor, hpc]
  have hwn := h.governs.blocking_none.mpr hbl
  obtain ⟨free', backlog', hplaced, hstream, -⟩ := h.placed.closing
    { s with ring := s.ring.inVault (·.slipEnginePost op res reads), pc := .queue f }
    { a.setStage i .closed with current := none } hx (by simp) hi rfl rfl
    rfl (by simp [Pc.batchHead, hpc]) (by simp [Pc.batchTail, hpc]) (fun y => by
      simp [Pc.inEnter, Pc.executing, Pc.posting, Pc.done, Core.holds, hpc]
      omega) (fun y w hy => by
      cases w <;> grind [Core.At, Pc.executing, Pc.posting, Pc.done]) (fun y w hy hne => by
      cases w <;> grind [Core.At, Pc.executing, Pc.posting, Pc.done]) rfl rfl rfl
    (fun j => rfl) rfl
  refine ⟨_, free', backlog', queue, batch, _,
    Or.inr ⟨.post g, trivial, by rw [hev]; exact .post hcur hsti hcompl⟩, ⟨hplaced, ?_⟩, hstream,
    by rw [hev, hgiven]⟩
  exact Governs.clear h.governs.failed rfl (fun f op l t he => by cases he)
    (hwait.symm.trans hwn) hbl (h.governs.idle hwn)

theorem Rep.not_busy (h : Rep s a free backlog queue batch) (hb : s.busy = false) :
    a.current = none := by
  have hcur := h.governs.busy
  rw [hb] at hcur
  simpa using hcur.symm

theorem Rep.offPost (h : Rep s a free backlog queue batch) (hw : a.WellFormed) {op : Slot}
    {reads : List ℕ} (hs : s.offPost op reads = some s') :
    Simulated s s' (.offPost op reads) a backlog := by
  unfold Core.offPost at hs
  split at hs
  swap
  · cases hs
  next res hres =>
  cases hs
  have hx : s.At (queue ++ batch) op (.off res) := hres
  obtain ⟨i, hi, hsti, hcopy⟩ := h.placed.tracks.owner op _ hx
  obtain ⟨g, hg, hcompl, hgiven⟩ := gives_spec hi hcopy res
  have hev : s.events (.offPost op reads) = [.give i g] := by simp [Core.events, hres, hg]
  obtain ⟨free', backlog', hplaced, hstream, hsame⟩ := h.placed.closing
    { s.setHand op .none with ring := s.ring.inVault (·.slipEnginePost op res reads) }
    (a.setStage i .closed) hx (by simp) hi rfl rfl rfl rfl rfl (fun y => by
      by_cases hy : y = op
      · subst hy
        simp [Core.holds, Core.setHand, hres]
      · simp [Core.holds, Core.setHand, hy, Ne.symm hy]) (fun y w hy => by
      cases w <;> grind [Core.At, Core.setHand]) (fun y w hy hne => by
      cases w <;> grind [Core.At, Core.setHand]) rfl rfl rfl (fun j => rfl) rfl
  refine ⟨_, free', backlog', queue, batch, _,
    Or.inr ⟨.offPost i g, trivial, by rw [hev]; exact .offPost hsti hcompl⟩, ⟨hplaced, ?_⟩, hstream,
    by rw [hev, hgiven]⟩
  refine h.governs.keep h.governs.failed h.governs.busy (fun f op l t he => ?_) rfl rfl rfl rfl rfl
    (fun b j hwb hbj ht hseq hat => ?_) (fun b _ hat w hy => hat w ?_)
  · exact h.governs.exec f op l t he
  · -- the pending op has no ticket up, so it is not the op that was finished off the thread
    have hne : b ≠ op := by
      rintro rfl
      have hoff := h.placed.exclusive hat hx
      rcases (hw.blocking j hbj).2.2.2 ht with hheld | ⟨r, hr⟩
      · rw [hheld] at hoff
        cases hoff
      · rw [hr] at hoff
        cases hoff
    have hij : j ≠ i := by
      rintro rfl
      exact hne (h.placed.tracks.inj b op _ _ hat hx (hseq.trans hi.symm))
    refine ⟨by rw [hsame b _ hat hne, hseq], ?_⟩
    rw [Chains.setStage_stage, if_neg hij]
    generalize a.stage j = w at hat
    cases w <;> grind [Core.At, Core.setHand]
  · cases w <;> grind [Core.At, Core.setHand]

/-- A held or handed back op is the pending one on both levels or on neither. -/
theorem Rep.pending_iff (h : Rep s a free backlog queue batch) (hw : a.WellFormed)
    (hx : s.At (queue ++ batch) x st) (hi : (s.ring.opPool x).seq = some i)
    (hst : st = .held ∨ ∃ res, st = .returned res) :
    s.waitingFor = some x ↔ a.blocking = some i := by
  have hnot : ¬ (st = .queued ∨ ∃ res, st = .off res) := by
    rcases hst with rfl | ⟨res, rfl⟩ <;> simp
  obtain ⟨k, hk, hsti, -⟩ := h.placed.tracks.owner x st hx
  cases hi.symm.trans hk
  constructor
  · intro hwx
    obtain ⟨j, hj⟩ := Option.isSome_iff_exists.mp (by rw [← h.governs.waiting, hwx]; rfl)
    have hp := h.governs.pends x j hwx hj
    cases ht : a.ticket with
    | none =>
      cases hi.symm.trans (hp.live ht).2.1
      exact hj
    | some jv => exact absurd ((hp.ticketed jv.1 jv.2 ht).2.2.2 st hx) hnot
  · intro hbi
    obtain ⟨b, hb⟩ := Option.isSome_iff_exists.mp (by rw [h.governs.waiting, hbi]; rfl)
    have hp := h.governs.pends b i hb hbi
    cases ht : a.ticket with
    | none =>
      obtain ⟨-, hseq, hat⟩ := hp.live ht
      rw [hb, h.placed.tracks.inj b x _ _ hat hx (hseq.trans hi.symm)]
    | some jv =>
      obtain ⟨rfl, -⟩ := hp.ticketed jv.1 jv.2 ht
      rcases (hw.ticket jv.1 jv.2 ht).2 with ⟨r, hr⟩ | hr
      · exact absurd (Or.inr ⟨r, hsti.symm.trans hr⟩) hnot
      · rw [hsti] at hr
        subst hr
        exact hx.elim

theorem complete_eq (r : Ring) (op : Slot) (res : Int32) (reads : List ℕ) :
    r.complete op res reads = { r with
      toVault := r.toVault.slipEnginePost op res reads
      blocking := if r.blocking = some op then none else r.blocking
      chainFailed :=
        if r.blocking = some op then
          if res < 0 then slipChainFailureOf (r.opPool op) else r.chainFailed
        else if res < 0 && r.linked op then slipChainFailureOf (r.opPool op)
        else r.chainFailed } := by
  unfold Ring.complete
  by_cases hb : r.blocking = some op
  · simp [hb, Ring.inVault]
  · by_cases hl : (res < 0 && r.linked op) = true
    · simp only [hb, hl, if_true, if_false, Ring.inVault]
    · simp only [hb, hl, if_false, Ring.inVault]
      rfl

theorem verdict_eq {o : EngOp} (hc : Copies o.sqe (a.sqe i)) :
    slipChainFailureOf o = a.verdict i := by
  unfold slipChainFailureOf Chains.verdict
  rw [hc.cqeSkipSuccess]

theorem linked_eq (hc : Copies (s.ring.opPool x).sqe (a.sqe i)) :
    s.ring.linked x = a.linked i := hc.ioLink

theorem failedAfter_eq (h : Rep s a free backlog queue batch)
    (hc : Copies (s.ring.opPool x).sqe (a.sqe i)) (res : Int32) :
    (if res < 0 && s.ring.linked x then slipChainFailureOf (s.ring.opPool x)
      else s.ring.chainFailed) = a.failedAfter i res := by
  unfold Chains.failedAfter
  rw [verdict_eq hc, linked_eq hc, h.governs.failed]
  simp only [Bool.and_eq_true, decide_eq_true_eq]

/-- When the pending op is done nothing is pending; otherwise the pending op stays. -/
theorem Governs.closed {L : List Slot} (h : Governs s a L)
    (hf : s'.ring.chainFailed = a'.failed) (hbusy : s'.busy = false) (hcur' : a'.current = none)
    (hiff : s.waitingFor = some x ↔ a.blocking = some i)
    (hwait : s'.waitingFor = if s.waitingFor = some x then none else s.waitingFor)
    (hbl : a'.blocking = if a.blocking = some i then none else a.blocking)
    (ht : a'.ticket = a.ticket) (hbd : s'.ring.blockedDone = s.ring.blockedDone)
    (hbf : s'.ring.blockedFailed = s.ring.blockedFailed)
    (hlive : a.blocking = some i → a.ticket = none)
    (hpend : ∀ b j, b ≠ x → j ≠ i → (s.ring.opPool b).seq = some j → s.At L b (a.stage j) →
      (s'.ring.opPool b).seq = some j ∧ s'.At L b (a'.stage j))
    (hback : ∀ b w, s'.At L b w → s.At L b w) : Governs s' a' L := by
  have hexec : ∀ f op l t, s'.pc = .exec f op l t →
      s'.ring.blocking = none ∧ ∃ i, a'.current = some i ∧ l = a'.linked i := by
    intro f op l t he
    simp [Core.busy, he] at hbusy
  by_cases hx : s.waitingFor = some x
  · have hi := hiff.mp hx
    obtain ⟨hd, -⟩ := (h.pends x i hx hi).live (hlive hi)
    exact .clear hf (by rw [hbusy, hcur']; rfl) hexec (by rw [hwait, if_pos hx])
      (by rw [hbl, if_pos hi]) (by rw [hbd, hd])
  · have hi : ¬ a.blocking = some i := fun hi => hx (hiff.mpr hi)
    rw [if_neg hx] at hwait
    rw [if_neg hi] at hbl
    refine h.keep hf (by rw [hbusy, hcur']; rfl) hexec hwait hbl ht hbd hbf
      (fun b j hb hj _ hseq hat => hpend b j ?_ ?_ hseq hat)
      (fun b _ hat w hw => hat w (hback b w hw))
    · rintro rfl
      exact hx hb
    · rintro rfl
      exact hi hj

theorem Rep.complete (h : Rep s a free backlog queue batch) (hw : a.WellFormed) {reads : List ℕ}
    (hs : s.complete reads = some s') : Simulated s s' (.complete reads) a backlog := by
  unfold Core.complete at hs
  split at hs
  · next f op res done hpc =>
    cases hs
    have hx : s.At (queue ++ batch) op (.returned res) := by simp [Core.At, Pc.done, hpc]
    obtain ⟨i, hi, hsti, hcopy⟩ := h.placed.tracks.owner op _ hx
    obtain ⟨g, hg, hcompl, hgiven⟩ := gives_spec hi hcopy res
    have hcur := h.not_busy (by simp [Core.busy, hpc])
    have hev : s.events (.complete reads) = [.give i g] := by simp [Core.events, hpc, hg]
    have hwait : s.waitingFor = s.ring.blocking := by simp [Core.waitingFor, hpc]
    have hiff := h.pending_iff hw hx hi (Or.inr ⟨res, rfl⟩)
    have hdone : op ∉ done.map Prod.fst := by
      have hp := h.placed.places op
      simp only [Pc.inEnter, Pc.executing, Pc.posting, Pc.done, hpc, List.map_cons,
        List.count_append, List.count_cons_self] at hp
      rw [← List.count_eq_zero]
      split at hp <;> omega
    have hnot (y : Slot) (r : Int32) (hy : (y, r) ∈ done) : y ≠ op := by
      rintro rfl
      exact hdone (List.mem_map.mpr ⟨(y, r), hy, rfl⟩)
    have hleft (y : Slot) (w : Stage) (hy : Core.At { s with pc := .complete f done }
        (queue ++ batch) y w) : s.At (queue ++ batch) y w ∧ (y = op → w ≠ .returned res) := by
      cases w <;> grind [Core.At, Pc.executing, Pc.posting, Pc.done]
    have hstay (y : Slot) (w : Stage) (hy : s.At (queue ++ batch) y w) (hne : y ≠ op) :
        Core.At { s with pc := .complete f done } (queue ++ batch) y w := by
      cases w <;> grind [Core.At, Pc.executing, Pc.posting, Pc.done]
    rw [complete_eq]
    obtain ⟨free', backlog', hplaced, hstream, hsame⟩ := h.placed.closing
      { s with
        ring := { s.ring with
          toVault := s.ring.toVault.slipEnginePost op res reads
          blocking := if s.ring.blocking = some op then none else s.ring.blocking
          chainFailed :=
            if s.ring.blocking = some op then
              if res < 0 then slipChainFailureOf (s.ring.opPool op) else s.ring.chainFailed
            else if res < 0 && s.ring.linked op then slipChainFailureOf (s.ring.opPool op)
            else s.ring.chainFailed }
        pc := .complete f done }
      { a.setStage i .closed with
        blocking := if a.blocking = some i then none else a.blocking
        failed := if a.blocking = some i then if res < 0 then a.verdict i else a.failed
          else a.failedAfter i res } hx (by simp) hi rfl rfl rfl
      (by simp [Pc.batchHead, hpc]) (by simp [Pc.batchTail, hpc]) (fun y => by
        simp [Pc.inEnter, Pc.executing, Pc.posting, Pc.done, Core.holds, hpc, List.count_cons]
        omega) hleft hstay rfl rfl rfl (fun j => rfl) rfl
    refine ⟨_, free', backlog', queue, batch, _,
      Or.inr ⟨.complete i g, trivial, by rw [hev]; exact .complete hcur hsti hcompl⟩,
      ⟨hplaced, ?_⟩, hstream, by rw [hev, hgiven]⟩
    refine h.governs.closed ?_ rfl hcur hiff ?_ rfl rfl rfl rfl (fun hbi => ?_)
      (fun b j hbx hji hseq hat => ?_) (fun b w hb => (hleft b w hb).1)
    · rw [hwait] at hiff
      simp only [failedAfter_eq h hcopy]
      simp only [verdict_eq hcopy, h.governs.failed, hiff]
    · simp [Core.waitingFor, hpc]
    · cases ht : a.ticket with
      | none => rfl
      | some jv =>
        obtain ⟨hbj, hsj⟩ := hw.ticket jv.1 jv.2 ht
        cases hbi.symm.trans hbj
        rw [hsti] at hsj
        rcases hsj with ⟨r, hr⟩ | hr <;> cases hr
    · refine ⟨by rw [hsame b _ hat hbx, hseq], ?_⟩
      rw [show (Chains.stage _ j) = a.stage j from if_neg hji]
      exact hstay b _ hat hbx
  · next f hpc =>
    cases hs
    refine .silent (by simp [Core.events, hpc]) (h.goto rfl rfl rfl rfl rfl rfl rfl ?_ ?_ ?_ ?_ ?_
      ?_) rfl rfl <;>
      simp [Pc.inEnter, Pc.executing, Pc.posting, Pc.done, Pc.batchHead, Pc.batchTail, Core.busy,
        hpc]
  · cases hs

/-- While an op is inside execute no linked op is pending. -/
theorem Rep.in_execute (h : Rep s a free backlog queue batch) (hw : a.WellFormed) {f : Frame}
    {op : Slot} {l : Bool} (hpc : s.pc = .exec f op l false) :
    s.waitingFor = none ∧ a.blocking = none ∧ a.ticket = none ∧ s.ring.blockedDone = none := by
  have hwait : s.waitingFor = none := by
    have hb := (h.governs.exec f op l false hpc).1
    simpa [Core.waitingFor, hpc] using hb
  have hbl := h.governs.blocking_none.mp hwait
  refine ⟨hwait, hbl, ?_, h.governs.idle hwait⟩
  cases ht : a.ticket with
  | none => rfl
  | some jv =>
    have hsome := (hw.ticket jv.1 jv.2 ht).1
    rw [hbl] at hsome
    cases hsome

/-- The op inside execute is the current one of the abstract ring. -/
theorem Rep.executing (h : Rep s a free backlog queue batch) (hw : a.WellFormed) {f : Frame}
    {op : Slot} {l : Bool} (hpc : s.pc = .exec f op l false) :
    ∃ i, s.At (queue ++ batch) op .running ∧ (s.ring.opPool op).seq = some i ∧
      a.stage i = .running ∧ a.current = some i ∧ l = a.linked i ∧
      Copies (s.ring.opPool op).sqe (a.sqe i) := by
  have hx : s.At (queue ++ batch) op .running := by simp [Core.At, Pc.executing, hpc]
  obtain ⟨i, hi, hsti, hcopy⟩ := h.placed.tracks.owner op _ hx
  obtain ⟨hcur, -⟩ := hw.running i hsti
  obtain ⟨-, j, hj, hl⟩ := h.governs.exec f op l false hpc
  cases hcur.symm.trans hj
  exact ⟨i, hx, hi, hsti, hcur, hl, hcopy⟩

theorem Rep.execDone (h : Rep s a free backlog queue batch) (hw : a.WellFormed) {res : Int32}
    (hs : s.execDone res = some s') : Simulated s s' (.execDone res) a backlog := by
  unfold Core.execDone at hs
  split at hs
  swap
  · cases hs
  next f op l hpc =>
  cases hs
  obtain ⟨i, hx, hi, hsti, hcur, hl, hcopy⟩ := h.executing hw hpc
  obtain ⟨hwait, hbl, ht, hd⟩ := h.in_execute hw hpc
  have hev : s.events (.execDone res) = [.result i res] := by
    simp [Core.events, hpc, about_eq hi]
  refine ⟨_, free, backlog, queue, batch, [],
    Or.inr ⟨.answer res, rfl, by rw [hev]; exact .answer hcur hsti⟩, ⟨?_, ?_⟩, by simp,
    by simp [hev, givenBy]⟩
  · refine h.placed.moved (.posting res) hx hi rfl rfl rfl rfl ?_ ?_ (fun y => ?_) ?_
      (fun y w hy => ?_) (fun y w hy hne => ?_) rfl rfl rfl (fun j => rfl) rfl
    · simp [Pc.batchHead, hpc]
    · simp [Pc.batchTail, hpc]
    · simp [Pc.inEnter, Pc.executing, Pc.posting, Pc.done, Core.holds, hpc]
    · simp [Core.At, Pc.posting]
    · cases w <;> grind [Core.At, Pc.executing, Pc.posting, Pc.done]
    · cases w <;> grind [Core.At, Pc.executing, Pc.posting, Pc.done]
  · refine .clear ?_ ?_ (fun f op l t he => by cases he) ?_ hbl hd
    · have hfail := failedAfter_eq h hcopy res
      rw [linked_eq hcopy, ← hl] at hfail
      exact hfail
    · simp [Core.busy, hcur]
    · simpa [Core.waitingFor, hpc] using (h.governs.exec f op l false hpc).1

theorem Rep.execTake (h : Rep s a free backlog queue batch) (hw : a.WellFormed)
    (hs : s.execTake = some s') : Simulated s s' .execTake a backlog := by
  unfold Core.execTake at hs
  split at hs
  swap
  · cases hs
  next f op l hpc =>
  cases hs
  obtain ⟨i, hx, hi, hsti, hcur, hl, hcopy⟩ := h.executing hw hpc
  obtain ⟨hwait, hbl, ht, hd⟩ := h.in_execute hw hpc
  have hexec := (h.governs.exec f op l false hpc).1
  have hhand : s.hands op = .none := by
    have hp := h.placed.places op
    have hin : s.pc.inEnter.count op = 1 := by
      simp [Pc.inEnter, Pc.executing, Pc.posting, Pc.done, hpc]
    have hzero : s.holds op = 0 := by split at hp <;> omega
    simpa [Core.holds] using hzero
  refine ⟨_, free, backlog, queue, batch, [],
    Or.inr ⟨.hold, trivial, .hold hcur hsti⟩, ⟨?_, ?_⟩, by simp [Core.setHand],
    by simp [Core.events, givenBy]⟩
  · refine h.placed.moved .held hx hi rfl rfl rfl rfl ?_ ?_ (fun y => ?_) ?_
      (fun y w hy => ?_) (fun y w hy hne => ?_) rfl rfl rfl (fun j => rfl) rfl
    · simp [Pc.batchHead, hpc]
    · simp [Pc.batchTail, hpc]
    · by_cases hy : y = op
      · subst hy
        simp [Pc.inEnter, Pc.executing, Pc.posting, Pc.done, Core.holds, Core.setHand, hpc, hhand]
      · simp [Pc.inEnter, Pc.executing, Pc.posting, Pc.done, Core.holds, Core.setHand, hpc, hy,
          Ne.symm hy]
    · simp [Core.At, Core.setHand]
    · cases w <;> grind [Core.At, Pc.executing, Pc.posting, Pc.done, Core.setHand]
    · cases w <;> grind [Core.At, Pc.executing, Pc.posting, Pc.done, Core.setHand]
  · have hexec' : ∀ f' op' l' t', Pc.exec f op l true = .exec f' op' l' t' →
        s.ring.blocking = none ∧ ∃ i, a.current = some i ∧ l' = a.linked i := by
      rintro f' op' l' t' ⟨⟩
      exact ⟨hexec, i, hcur, hl⟩
    cases hli : a.linked i with
    | false =>
      rw [hli] at hl
      subst hl
      exact .clear h.governs.failed (by simp [Core.busy, hcur]) hexec'
        (by simp [Core.waitingFor, Core.setHand, hexec]) (by simp [hbl]) hd
    | true =>
      rw [hli] at hl
      subst hl
      refine ⟨h.governs.failed, by simp [Core.busy, hcur], hexec', by simp [Core.waitingFor],
        fun b j hb hj => ?_, fun hn => by simp [Core.waitingFor] at hn⟩
      simp only [Core.waitingFor, Option.some.injEq] at hb
      simp only [if_true, Option.some.injEq] at hj
      subst hb hj
      refine ⟨fun _ => ⟨hd, hi, by simp [Core.At, Core.setHand]⟩, fun j v hjv => ?_⟩
      rw [show a.ticket = some (j, v) from hjv] at ht
      cases ht

theorem Rep.execPending (h : Rep s a free backlog queue batch)
    (hs : s.execPending = some s') : Simulated s s' .execPending a backlog := by
  unfold Core.execPending at hs
  split at hs
  swap
  · cases hs
  next f op l hpc =>
  cases hs
  obtain ⟨hexec, i, hcur, hl⟩ := h.governs.exec f op l true hpc
  have hnot (st : Stage) (hl : st.isLive = true) (hst : ∀ x, ¬ s.At (queue ++ batch) x st) :
      a.stage i ≠ st := by
    rintro rfl
    obtain ⟨x, hx, -⟩ := h.placed.tracks.slot i hl
    exact hst x hx
  have hplaces (r : Ring) (hqh : r.queueHead = s.ring.queueHead)
      (hqt : r.queueTail = s.ring.queueTail) : SamePlaces s { s with ring := r, pc := .queue f } := by
    constructor <;>
      simp [Pc.executing, Pc.posting, Pc.done, Pc.batchHead, Pc.batchTail, hpc, hqh, hqt]
  refine ⟨_, free, backlog, queue, batch, [],
    Or.inr ⟨.pend, trivial, .pend hcur (hnot _ rfl ?_) (fun res => hnot _ rfl ?_)⟩, ⟨?_, ?_⟩,
    List.Perm.of_eq (by simp), by simp [Core.events, givenBy]⟩
  · simp [Core.At, Pc.executing, hpc]
  · simp [Core.At, Pc.posting, hpc]
  · exact h.placed.idle (.refl h.placed.vault) (hplaces _ rfl rfl) rfl rfl rfl rfl
  · refine h.governs.keep h.governs.failed rfl (fun f op l t he => by cases he) ?_ rfl rfl rfl rfl
      (fun b j _ _ _ hseq hat => ⟨hseq, ((hplaces _ rfl rfl).at_iff _ _ _).mpr hat⟩)
      (fun b _ hat w hw => hat w (((hplaces _ rfl rfl).at_iff _ _ _).mp hw))
    cases l <;> simp [Core.waitingFor, hpc, hexec]

theorem Rep.handBack (h : Rep s a free backlog queue batch) {op : Slot} {res : Int32}
    (hk : s.hands op = .held) (hs : s.handBack op res = some s') :
    Simulated s s' (.handBack op res) a backlog := by
  unfold Core.handBack at hs
  split at hs
  swap
  · cases hs
  next f forever done hpc =>
  cases hs
  have hx : s.At (queue ++ batch) op .held := hk
  obtain ⟨i, hi, hsti, hcopy⟩ := h.placed.tracks.owner op _ hx
  have hcur := h.not_busy (by simp [Core.busy, hpc])
  have hev : s.events (.handBack op res) = [.result i res] := by simp [Core.events, about_eq hi]
  have hleft (y : Slot) (w : Stage)
      (hy : Core.At { s.setHand op .none with pc := .wait f forever (done ++ [(op, res)]) }
        (queue ++ batch) y w) : (y = op ∧ w = .returned res) ∨
        (s.At (queue ++ batch) y w ∧ (y = op → w ≠ .held)) := by
    cases w <;> grind [Core.At, Pc.executing, Pc.posting, Pc.done, Core.setHand]
  have hstay (y : Slot) (w : Stage) (hy : s.At (queue ++ batch) y w) (hne : y ≠ op) :
      Core.At { s.setHand op .none with pc := .wait f forever (done ++ [(op, res)]) }
        (queue ++ batch) y w := by
    cases w <;> grind [Core.At, Pc.executing, Pc.posting, Pc.done, Core.setHand]
  have hcame : Core.At { s.setHand op .none with pc := .wait f forever (done ++ [(op, res)]) }
      (queue ++ batch) op (.returned res) := by simp [Core.At, Pc.done]
  refine ⟨_, free, backlog, queue, batch, [],
    Or.inr ⟨.handBack i res, trivial, by rw [hev]; exact .handBack hcur hsti⟩, ⟨?_, ?_⟩,
    by simp [Core.setHand], by simp [hev, givenBy]⟩
  · refine h.placed.moved (.returned res) hx hi rfl rfl rfl rfl ?_ ?_ (fun y => ?_) hcame
      hleft hstay rfl rfl rfl (fun j => rfl) rfl
    · simp [Pc.batchHead, hpc]
    · simp [Pc.batchTail, hpc]
    · by_cases hy : y = op
      · subst hy
        simp [Pc.inEnter, Pc.executing, Pc.posting, Pc.done, Core.holds, Core.setHand, hpc, hk]
      · simp [Pc.inEnter, Pc.executing, Pc.posting, Pc.done, Core.holds, Core.setHand, hpc, hy,
          Ne.symm hy]
  · refine h.governs.keep h.governs.failed ?_ (fun f op l t he => by cases he) ?_ rfl rfl rfl rfl
      (fun b j hb hj _ hseq hat => ⟨hseq, ?_⟩) (fun b hb hat w hw => ?_)
    · simp [Core.busy, hcur]
    · simp [Core.waitingFor, Core.setHand, hpc]
    · by_cases hbo : b = op
      · subst hbo
        cases hi.symm.trans hseq
        rw [Chains.setStage_stage, if_pos rfl]
        exact hcame
      · have hji : j ≠ i := by
          rintro rfl
          exact hbo (h.placed.tracks.inj b op _ _ hat hx (hseq.trans hi.symm))
        rw [Chains.setStage_stage, if_neg hji]
        exact hstay b _ hat hbo
    · rcases hleft b w hw with ⟨rfl, -⟩ | ⟨hold, -⟩
      · rcases hat .held hk with hq | ⟨r, hr⟩
        · cases hq
        · cases hr
      · exact hat w hold

theorem Rep.offFinish (h : Rep s a free backlog queue batch) (hw : a.WellFormed) {op : Slot}
    {res : Int32} {ticket : Bool} (hk : s.hands op = .held ∧ ticket = s.ring.linked op) :
    Simulated s (s.offFinish op res ticket) (.offFinish op res ticket) a backlog := by
  obtain ⟨hheld, rfl⟩ := hk
  have hx : s.At (queue ++ batch) op .held := hheld
  obtain ⟨i, hi, hsti, hcopy⟩ := h.placed.tracks.owner op _ hx
  have hiff := h.pending_iff hw hx hi (Or.inl rfl)
  have hev (ticket : Bool) : s.events (.offFinish op res ticket) = [.result i res] := about_eq hi _
  have hleft (y : Slot) (w : Stage) (hy : (s.setHand op (.off res)).At (queue ++ batch) y w) :
      (y = op ∧ w = .off res) ∨ (s.At (queue ++ batch) y w ∧ (y = op → w ≠ .held)) := by
    cases w <;> grind [Core.At, Core.setHand]
  have hstay (y : Slot) (w : Stage) (hy : s.At (queue ++ batch) y w) (hne : y ≠ op) :
      (s.setHand op (.off res)).At (queue ++ batch) y w := by
    cases w <;> grind [Core.At, Core.setHand]
  have hcame : (s.setHand op (.off res)).At (queue ++ batch) op (.off res) := by
    simp [Core.At, Core.setHand]
  have hcount (y : Slot) : (s.setHand op (.off res)).pc.inEnter.count y +
      (s.setHand op (.off res)).holds y = s.pc.inEnter.count y + s.holds y := by
    by_cases hy : y = op
    · subst hy
      simp [Core.holds, Core.setHand, hheld]
    · simp [Core.holds, Core.setHand, hy]
  rw [Core.offFinish]
  refine ⟨_, free, backlog, queue, batch, [],
    Or.inr ⟨.finish i res, trivial, by rw [hev]; exact .finish hsti⟩, ?_, ?_, by rw [hev]; rfl⟩
  swap
  · refine List.Perm.of_eq ?_
    split <;> simp [Core.setHand]
  rw [linked_eq hcopy]
  cases hli : a.linked i with
  | false =>
    refine ⟨h.placed.moved (.off res) hx hi rfl rfl rfl rfl rfl rfl hcount hcame hleft hstay rfl rfl
      rfl (fun j => rfl) rfl, ?_⟩
    refine h.governs.keep h.governs.failed h.governs.busy (fun f op l t he => ?_) rfl rfl rfl rfl rfl
      (fun b j hwb hbj _ hseq hat => ⟨hseq, ?_⟩) (fun b _ hat w hy => ?_)
    · exact h.governs.exec f op l t he
    · have hji : j ≠ i := by
        rintro rfl
        simp [(hw.blocking j hbj).1] at hli
      have hbo : b ≠ op := by
        rintro rfl
        exact hji (Option.some.inj (hseq.symm.trans hi))
      rw [show (Chains.stage _ j) = a.stage j from if_neg hji]
      exact hstay b _ hat hbo
    · rcases hleft b w hy with ⟨-, rfl⟩ | ⟨hold, -⟩
      · exact Or.inr ⟨res, rfl⟩
      · exact hat w hold
  | true =>
    have hbi := hw.held i hsti hli
    have hwait := hiff.mpr hbi
    refine ⟨h.placed.moved (.off res) hx hi rfl rfl rfl rfl rfl rfl hcount hcame hleft hstay rfl rfl
      rfl (fun j => rfl) rfl, ?_⟩
    refine ⟨h.governs.failed, h.governs.busy, fun f op l t he => h.governs.exec f op l t he,
      h.governs.waiting, fun b j hb hj => ?_, fun hn => ?_⟩
    · cases hb.symm.trans hwait
      cases hbi.symm.trans hj
      refine ⟨fun hn => by simp at hn, fun k v hkv => ?_⟩
      simp only [if_true, Option.some.injEq, Prod.mk.injEq] at hkv
      obtain ⟨rfl, rfl⟩ := hkv
      refine ⟨rfl, rfl, ?_, fun w hy => ?_⟩
      · simp only [← verdict_eq hcopy]
        rfl
      · rcases hleft op w hy with ⟨-, rfl⟩ | ⟨hold, hne⟩
        · exact Or.inr ⟨res, rfl⟩
        · exact absurd (h.placed.exclusive hold hx) (hne rfl)
    · cases hwait.symm.trans hn

theorem cancelTarget_eq (r : Ring) (t : Slot) (reads : List ℕ) :
    r.cancelTarget t reads = { r with
      toVault := r.toVault.slipEnginePost t (-ecanceled) reads
      blocking := if r.blocking = some t then none else r.blocking
      chainFailed := if r.blocking = some t ∨ r.linked t then slipChainFailureOf (r.opPool t)
        else r.chainFailed } := by
  unfold Ring.cancelTarget
  by_cases hb : r.blocking = some t
  · simp [hb, Ring.inVault]
  · by_cases hl : r.linked t = true <;> simp [hb, hl, Ring.inVault]

theorem takes_spec {c : Slot} {j : ℕ} (hj : (s.ring.opPool c).seq = some j)
    (hi : (s.ring.opPool x).seq = some i) (hc : Copies (s.ring.opPool x).sqe (a.sqe i)) :
    ∃ g, s.takes c x = [.take j i (s.ring.opPool c).sqe (s.ring.opPool x).sqe, .give i g] ∧
      a.Completion i (-ecanceled) g ∧
      (s.ring.toVault.completionOf x (-ecanceled)).filter (fun p => p.1.isSome) =
        givenBy [.take j i (s.ring.opPool c).sqe (s.ring.opPool x).sqe, .give i g] := by
  obtain ⟨g, hg, hcompl, hgiven⟩ := gives_spec hi hc (-ecanceled)
  refine ⟨g, ?_, hcompl, hgiven⟩
  rw [Core.takes, hj, hg]
  simp [about_eq hi]

theorem Rep.cancelHeld (h : Rep s a free backlog queue batch) (hw : a.WellFormed) {t : Slot}
    {reads : List ℕ} (hk : s.hands t = .held) (hs : s.cancelHeld t reads = some s') :
    Simulated s s' (.cancelHeld t reads) a backlog := by
  unfold Core.cancelHeld at hs
  split at hs
  swap
  · cases hs
  next f c l hpc =>
  cases hs
  obtain ⟨j, -, hj, hstj, hcur, hl, -⟩ := h.executing hw hpc
  obtain ⟨hwait, hbl, ht, hd⟩ := h.in_execute hw hpc
  have hexec := (h.governs.exec f c l false hpc).1
  have hx : s.At (queue ++ batch) t .held := hk
  obtain ⟨i, hi, hsti, hcopy⟩ := h.placed.tracks.owner t _ hx
  obtain ⟨g, hg, hcompl, hgiven⟩ := takes_spec hj hi hcopy
  have hev : s.events (.cancelHeld t reads) = s.takes c t := by simp [Core.events, hpc]
  rw [hg] at hev
  rw [cancelTarget_eq, hexec]
  obtain ⟨free', backlog', hplaced, hstream, hsame⟩ := h.placed.closing
    { s.setHand t .none with
      ring := { s.ring with
        toVault := s.ring.toVault.slipEnginePost t (-ecanceled) reads
        blocking := if none = some t then none else none
        chainFailed := if none = some t ∨ s.ring.linked t then slipChainFailureOf (s.ring.opPool t)
          else s.ring.chainFailed } }
    { a.setStage i .closed with
      took := true
      blocking := if a.blocking = some i then none else a.blocking
      failed := if a.blocking = some i ∨ a.linked i then a.verdict i else a.failed }
    hx (by simp) hi (show _ = s.ring.toVault.slipEnginePost t (-ecanceled) reads from rfl)
    rfl rfl rfl rfl (fun y => by
      by_cases hy : y = t
      · subst hy
        simp [Core.holds, Core.setHand, hk]
      · simp [Core.holds, Core.setHand, hy, Ne.symm hy]) (fun y w hy => by
      cases w <;> grind [Core.At, Core.setHand]) (fun y w hy hne => by
      cases w <;> grind [Core.At, Core.setHand]) rfl rfl rfl (fun j => rfl) rfl
  refine ⟨_, free', backlog', queue, batch, _,
    Or.inr ⟨.takeHeld i g (s.ring.opPool c).sqe (s.ring.opPool t).sqe,
      ⟨hi, rfl, c, by simp [Pc.executing, hpc], rfl⟩,
      by rw [hev]; exact .takeHeld hcur hstj hsti hcompl⟩, ⟨hplaced, ?_⟩, hstream,
    by rw [hev, hgiven]⟩
  refine .clear ?_ ?_ ?_ ?_ ?_ hd
  · simp only [hbl, reduceCtorEq, false_or, linked_eq hcopy, verdict_eq hcopy, h.governs.failed]
  · exact h.governs.busy
  · intro f' op' l' t' he
    exact ⟨by simp, (h.governs.exec f' op' l' t' he).2⟩
  · simp [Core.waitingFor, Core.setHand, hpc]
  · simp [hbl]

section Unlink
variable (r : Ring) (p : Link Slot) (t : Slot)

@[simp] theorem unlinkQueued_opPoolN : (r.unlinkQueued p t).opPoolN = r.opPoolN := by
  unfold Ring.unlinkQueued; cases p <;> (dsimp only; split <;> rfl)

@[simp] theorem unlinkQueued_opFree : (r.unlinkQueued p t).opFree = r.opFree := by
  unfold Ring.unlinkQueued; cases p <;> (dsimp only; split <;> rfl)

@[simp] theorem unlinkQueued_cq : (r.unlinkQueued p t).cq = r.cq := by
  unfold Ring.unlinkQueued; cases p <;> (dsimp only; split <;> rfl)

@[simp] theorem unlinkQueued_backlogHead : (r.unlinkQueued p t).backlogHead = r.backlogHead := by
  unfold Ring.unlinkQueued; cases p <;> (dsimp only; split <;> rfl)

@[simp] theorem unlinkQueued_backlogTail : (r.unlinkQueued p t).backlogTail = r.backlogTail := by
  unfold Ring.unlinkQueued; cases p <;> (dsimp only; split <;> rfl)

@[simp] theorem unlinkQueued_blocking : (r.unlinkQueued p t).blocking = r.blocking := by
  unfold Ring.unlinkQueued; cases p <;> (dsimp only; split <;> rfl)

@[simp] theorem unlinkQueued_blockedDone : (r.unlinkQueued p t).blockedDone = r.blockedDone := by
  unfold Ring.unlinkQueued; cases p <;> (dsimp only; split <;> rfl)

@[simp] theorem unlinkQueued_chainFailed : (r.unlinkQueued p t).chainFailed = r.chainFailed := by
  unfold Ring.unlinkQueued; cases p <;> (dsimp only; split <;> rfl)

theorem unlinkQueued_opPool (y : Slot) : (r.unlinkQueued p t).opPool y =
    { r.opPool y with next := (r.unlinkQueued p t).next y } := by
  unfold Ring.unlinkQueued
  cases p <;> (dsimp only; split <;> first | rfl | exact Vault.setNext_opPool _ _ _ _)

theorem unlinkQueued_next (y : Slot) :
    (r.unlinkQueued p t).next y = if p = .nextOf y then r.next t else r.next y := by
  unfold Ring.unlinkQueued
  cases p <;> (dsimp only; split <;> simp [Ring.inVault, eq_comm])

theorem unlinkQueued_queueHead :
    (r.unlinkQueued p t).queueHead = if p = .head then r.next t else r.queueHead := by
  unfold Ring.unlinkQueued
  cases p <;> (dsimp only; split <;> rfl)

theorem unlinkQueued_queueTail : (r.unlinkQueued p t).queueTail = if r.queueTail = some t then
    walkLast (r.unlinkQueued p t).next r.opPoolN (r.unlinkQueued p t).queueHead none
    else r.queueTail := by
  unfold Ring.unlinkQueued
  cases p <;> by_cases h : r.queueTail = some t <;> simp [h, Ring.inVault]

end Unlink

theorem Placed.batch_nil (h : Placed s a free backlog queue batch)
    (hb : s.pc.batchHead = none) : batch = [] :=
  h.batchList.head_none.mp hb

/-- The op a cell of the queue leads to, in the queue of both levels. -/
theorem Placed.split_queue {p : Link Slot} {t : Slot} (h : Placed s a free backlog queue [])
    (hk : p = .head ∨ ∃ x ∈ walk s.ring.next s.ring.opPoolN s.ring.queueHead, p = .nextOf x)
    (ht : p.read s.ring.next s.ring.queueHead = some t) :
    ∃ pre suf pre' i suf', queue = pre ++ t :: suf ∧ p = Link.after pre ∧
      a.queue = pre' ++ i :: suf' ∧ pre'.length = pre.length ∧ (s.ring.opPool t).seq = some i := by
  rw [walk_eq h.queueList.threads _ h.length_le.2.2] at hk
  obtain ⟨pre, suf, rfl, rfl⟩ := h.queueList.threads.split_at_cell hk ht
  have hq := h.queueSeq
  rw [List.append_nil, List.map_append, List.map_cons] at hq
  obtain ⟨pre', rest, hqueue, hpre, hrest⟩ := List.map_eq_append_iff.mp hq.symm
  obtain ⟨i, suf', rfl, hi, -⟩ := List.map_eq_cons_iff.mp hrest
  exact ⟨pre, suf, pre', i, suf', rfl, rfl, hqueue, by simpa using congrArg List.length hpre, hi.symm⟩

theorem Rep.cancelQueued (h : Rep s a free backlog queue batch) (hw : a.WellFormed)
    {p : Link Slot} {reads : List ℕ} (hk : p = .head ∨
      ∃ x ∈ walk s.ring.next s.ring.opPoolN s.ring.queueHead, p = .nextOf x)
    (hs : s.cancelQueued p reads = some s') :
    Simulated s s' (.cancelQueued p reads) a backlog := by
  unfold Core.cancelQueued at hs
  split at hs
  swap
  · cases hs
  next f c l t hpc hread =>
  cases hs
  cases h.placed.batch_nil (by simp [Pc.batchHead, hpc])
  obtain ⟨j, -, hj, hstj, hcur, hl, -⟩ := h.executing hw hpc
  obtain ⟨hwait, hbl, -, hd⟩ := h.in_execute hw hpc
  have hexec := (h.governs.exec f c l false hpc).1
  obtain ⟨pre, suf, pre', i, suf', rfl, rfl, hq, hlen, hi⟩ := h.placed.split_queue hk hread
  have hx : s.At (pre ++ t :: suf ++ []) t .queued := by simp [Core.At]
  obtain ⟨k, hk', -, hcopy⟩ := h.placed.tracks.owner t _ hx
  cases hi.symm.trans hk'
  obtain ⟨g, hg, hcompl, hgiven⟩ := takes_spec hj hi hcopy
  have hev : s.events (.cancelQueued (Link.after pre) reads) = s.takes c t := by
    simp [Core.events, hpc, hread]
  rw [hg] at hev
  have hnone : s.hands t = .none := by
    have hp := h.placed.places t
    have hzero : s.holds t = 0 := by
      simp only [List.count_append, List.count_cons_self] at hp
      split at hp <;> omega
    simpa [Core.holds] using hzero
  -- first off the queue, into the backend's hands; then closed as any op it holds
  have hheld : Placed { s.setHand t .held with ring := s.ring.unlinkQueued (Link.after pre) t }
      { a.setStage i .held with queue := pre' ++ suf' } free backlog (pre ++ suf) [] := by
    refine h.placed.unlink hi (fun y => unlinkQueued_opPool _ _ _ y) (fun hp => ?_) (fun hp => ?_)
      (fun b hp => ?_) (fun b hp => ?_) (fun ht => ?_) (fun ht => ?_) (by simp) (by simp) (by simp)
      (by simp) rfl (by simp [Pc.batchHead, hpc]) (by simp [Pc.batchTail, hpc]) (fun y => rfl) rfl
      rfl rfl (fun j => rfl) hq hlen rfl
    · exact (unlinkQueued_queueHead _ _ _).trans (if_pos hp)
    · exact (unlinkQueued_queueHead _ _ _).trans (if_neg hp)
    · exact (unlinkQueued_next _ _ _ b).trans (if_pos hp)
    · exact (unlinkQueued_next _ _ _ b).trans (if_neg hp)
    · exact (unlinkQueued_queueTail _ _ _).trans (if_pos ht)
    · exact (unlinkQueued_queueTail _ _ _).trans (if_neg ht)
  have hcopy' : Copies ((s.ring.unlinkQueued (Link.after pre) t).opPool t).sqe (a.sqe i) := by
    rw [unlinkQueued_opPool]
    exact hcopy
  have hent : (s.ring.unlinkQueued (Link.after pre) t).toVault.entry = s.ring.entry :=
    funext (fun y => Vault.entry_congr (unlinkQueued_opPool _ _ _ y))
  have hcof : (s.ring.unlinkQueued (Link.after pre) t).toVault.completionOf t (-ecanceled) =
      s.ring.toVault.completionOf t (-ecanceled) := by
    simp only [Vault.completionOf, unlinkQueued_opPool]
  have hseq : ((s.ring.unlinkQueued (Link.after pre) t).opPool t).seq = some i :=
    (congrArg EngOp.seq (unlinkQueued_opPool _ _ _ t)).trans hi
  have hatHeld : Core.At
      { s.setHand t .held with ring := s.ring.unlinkQueued (Link.after pre) t } (pre ++ suf ++ []) t
      .held := by simp [Core.At, Core.setHand]
  rw [cancelTarget_eq, unlinkQueued_blocking, hexec]
  obtain ⟨free', backlog', hplaced, hstream, -⟩ := hheld.closing
    { s with
      ring := { s.ring.unlinkQueued (Link.after pre) t with
        toVault := (s.ring.unlinkQueued (Link.after pre) t).toVault.slipEnginePost t (-ecanceled)
          reads
        blocking := if none = some t then none else none
        chainFailed := if none = some t ∨ (s.ring.unlinkQueued (Link.after pre) t).linked t then
            slipChainFailureOf ((s.ring.unlinkQueued (Link.after pre) t).opPool t)
          else (s.ring.unlinkQueued (Link.after pre) t).chainFailed } }
    { a.setStage i .closed with
      queue := pre' ++ suf'
      took := true
      failed := if a.linked i then a.verdict i else a.failed }
    hatHeld (by simp) hseq
    (show _ = Vault.slipEnginePost _ t (-ecanceled) reads from rfl)
    rfl rfl rfl rfl (fun y => by
      by_cases hy : y = t
      · subst hy
        simp [Core.holds, Core.setHand, hnone]
      · simp [Core.holds, Core.setHand, hy, Ne.symm hy]) (fun y w hy => by
      cases w <;> grind [Core.At, Core.setHand]) (fun y w hy hne => by
      cases w <;> grind [Core.At, Core.setHand]) rfl rfl rfl (fun j => by
        by_cases hj : j = i <;> simp [hj]) rfl
  rw [hent, hcof, unlinkQueued_cq] at hstream
  refine ⟨_, free', backlog', pre ++ suf, [], _,
    Or.inr ⟨.takeQueued i g (s.ring.opPool c).sqe (s.ring.opPool t).sqe,
      ⟨t, pre, suf, rfl, h.placed.queueList.threads, by simpa using h.placed.queueSeq.symm, hi, rfl,
        c, by simp [Pc.executing, hpc], rfl⟩,
      by rw [hev]; exact .takeQueued hcur hstj hq hcompl⟩, ⟨hplaced, ?_⟩, hstream,
    by rw [hev, hgiven]⟩
  refine .clear ?_ ?_ ?_ ?_ ?_ ?_
  · simp only [reduceCtorEq, false_or, unlinkQueued_chainFailed, h.governs.failed]
    have hl : (s.ring.unlinkQueued (Link.after pre) t).linked t = a.linked i := hcopy'.ioLink
    rw [hl, verdict_eq hcopy']
  · exact h.governs.busy
  · intro f' op' l' t' he
    exact ⟨by simp, (h.governs.exec f' op' l' t' he).2⟩
  · simp [Core.waitingFor, hpc]
  · exact hbl
  · rw [← hd]
    exact unlinkQueued_blockedDone _ _ _

theorem Rep.queue_front {f : Frame} (h : Rep s a free backlog queue batch)
    (hpc : s.pc = .queue f) (hqh : s.ring.queueHead = some x) (hb : s.ring.blocking = none) :
    a.current = none ∧ a.blocking = none ∧ s.ring.blockedDone = none ∧ batch = [] ∧
      ∃ queue' i rest, queue = x :: queue' ∧ a.queue = i :: rest ∧
        (s.ring.opPool x).seq = some i ∧ Copies (s.ring.opPool x).sqe (a.sqe i) := by
  have hwait : s.waitingFor = none := by simpa [Core.waitingFor, hpc] using hb
  cases h.placed.batch_nil (by simp [Pc.batchHead, hpc])
  cases queue with
  | nil =>
    have hn : s.ring.queueHead = none := h.placed.queueList.threads
    cases hqh.symm.trans hn
  | cons y queue =>
    cases hqh.symm.trans h.placed.queueList.threads.1
    obtain ⟨i, rest, hq, hi, -⟩ := h.placed.front
    have hx : s.At (x :: queue ++ []) x .queued := by simp [Core.At]
    obtain ⟨j, hj, -, hcopy⟩ := h.placed.tracks.owner x _ hx
    cases hi.symm.trans hj
    exact ⟨h.not_busy (by simp [Core.busy, hpc]), h.governs.blocking_none.mp hwait,
      h.governs.idle hwait, rfl, queue, i, rest, rfl, hq, hi, hcopy⟩

/-- The head of the queue, taken off, waits for its post or is inside execute. -/
theorem Placed.popped {f : Frame} {rest : List ℕ} {o : EngOp} (s' : Core) (a' : Chains)
    (h : Placed s a free backlog (x :: queue) []) (hpc : s.pc = .queue f)
    (hrest : a.queue = i :: rest) (hi : (s.ring.opPool x).seq = some i)
    (hv : s'.ring.toVault = s.ring.toVault.setOp x o) (hseq : o.seq = (s.ring.opPool x).seq)
    (hcopy : Copies o.sqe (s.ring.opPool x).sqe)
    (hqh : s'.ring.queueHead = s.ring.next x)
    (hqt : s'.ring.queueTail = if s.ring.next x = none then none else s.ring.queueTail)
    (hst : (∃ res, s'.pc = .post f x res ∧ st = .posting res) ∨
      ∃ l, s'.pc = .exec f x l false ∧ st = .running)
    (hhands : s'.hands = s.hands) (hacc : s'.accepted = s.accepted) (hn : a'.n = a.n)
    (hsqe : a'.sqe = a.sqe) (hstage : ∀ j, a'.stage j = if j = i then st else a.stage j)
    (hqueue : a'.queue = rest) : Placed s' a' free backlog queue [] := by
  have hxq : x ∉ queue := by
    have hnd := h.queue_nodup
    rw [List.append_nil, List.nodup_cons] at hnd
    exact hnd.1
  have hxat : s.At (x :: queue ++ []) x .queued := by simp [Core.At]
  have honly (w : Stage) (hw : s.At (x :: queue ++ []) x w) : w = .queued := h.exclusive hw hxat
  have hhx : s.hands x = .none := by
    cases hh : s.hands x with
    | none => rfl
    | held => cases honly .held hh
    | off res => cases honly (.off res) hh
  refine h.pop st hi ?_ (fun y hy => by rw [hv]; simp [hy]) (by rw [hv]; simpa using hseq)
    (by rw [hv]; simpa using hcopy) (by rw [hv]; rfl) (by rw [hv]; rfl) (by rw [hv]; rfl)
    (by rw [hv]; rfl) hqh hqt ?_ ?_ ?_ hhands (fun y w => ?_) hacc hn hsqe hstage hrest hqueue
  · rcases hst with ⟨res, -, rfl⟩ | ⟨l, -, rfl⟩ <;> rfl
  · rcases hst with ⟨res, hp, -⟩ | ⟨l, hp, -⟩ <;> simp [hp, Pc.batchHead]
  · rcases hst with ⟨res, hp, -⟩ | ⟨l, hp, -⟩ <;> simp [hp, Pc.batchTail]
  · rcases hst with ⟨res, hp, -⟩ | ⟨l, hp, -⟩ <;>
      simp [hp, hpc, Pc.inEnter, Pc.executing, Pc.posting, Pc.done]
  · rcases hst with ⟨res, hp, rfl⟩ | ⟨l, hp, rfl⟩ <;> cases w <;>
      grind [Core.At, Pc.executing, Pc.posting, Pc.done]

theorem afterQueue_plain (f : Frame) : (Core.afterQueue f).inEnter = [] ∧
    (Core.afterQueue f).batchHead = none ∧ (Core.afterQueue f).batchTail = none ∧
    ∀ s : Core, Core.busy { s with pc := Core.afterQueue f } = false := by
  unfold Core.afterQueue
  split <;> exact ⟨rfl, rfl, rfl, fun _ => rfl⟩

/-- `process_queue` returns. -/
theorem Rep.leave (h : Rep s a free backlog queue batch) (f : Frame) (hin : s.pc.inEnter = [])
    (hbh : s.pc.batchHead = none) (hbt : s.pc.batchTail = none) (hb : s.busy = false) :
    Rep { s with pc := Core.afterQueue f } a free backlog queue batch := by
  obtain ⟨hin', hbh', hbt', hb'⟩ := afterQueue_plain f
  exact h.goto rfl rfl rfl rfl rfl rfl rfl hin' hin (hbh'.trans hbh.symm) (hbt'.trans hbt.symm) hb
    (hb' s)

theorem popQueue_entry (r : Ring) (x : Slot) : (r.popQueue x).toVault.entry = r.entry :=
  funext (fun y => Vault.entry_congr (Vault.setNext_opPool _ _ y _))

theorem popQueue_copies (r : Ring) (x : Slot) (hc : Copies (r.opPool x).sqe (a.sqe i)) :
    Copies ((r.popQueue x).opPool x).sqe (a.sqe i) := by
  simpa [Ring.popQueue, Vault.setNext] using hc

theorem popQueue_linked (r : Ring) (x : Slot) : (r.popQueue x).linked x = r.linked x := by
  simp [Ring.popQueue, Ring.linked, Vault.setNext]

section Front
variable {f : Frame} {target : MsgTarget} {reads : List ℕ}

/-- The head of the queue is dropped with its chain. -/
theorem Rep.cancelQuiet (h : Rep s a free backlog queue batch) (hpc : s.pc = .queue f)
    (hqh : s.ring.queueHead = some x) (hb : s.ring.blocking = none)
    (hf : s.ring.chainFailed = .cancelsQuietly) :
    Simulated s
      { s with ring := { (s.ring.popQueue x).inVault (·.opRelease x) with
        chainFailed := if (s.ring.popQueue x).linked x then s.ring.chainFailed else .holds } }
      (.queueStep target reads) a backlog := by
  obtain ⟨hcur, hbl, hd, rfl, queue', i, rest, rfl, hq, hi, hcopy⟩ := h.queue_front hpc hqh hb
  have hev : s.events (.queueStep target reads) = [.cancel i true, .give i none] := by
    simp [Core.events, Core.queueEvents, hpc, hqh, hb, hf, about_eq hi]
  -- into enter's hand, then closed
  have hhand : Placed { s with ring := s.ring.popQueue x, pc := .post f x 0 }
      { a.setStage i (.posting 0) with queue := rest } free backlog queue' [] :=
    h.placed.popped _ _ hpc hq hi rfl rfl (.refl _) rfl rfl (Or.inl ⟨0, rfl, rfl⟩) rfl rfl rfl rfl
      (fun j => rfl) rfl
  have hx : Core.At { s with ring := s.ring.popQueue x, pc := .post f x 0 } (queue' ++ []) x
      (.posting 0) := rfl
  obtain ⟨hxf, hxb, -⟩ := hhand.outside hx
  have hc := Vault.Completes.release hhand.vault hxf hxb
  have hseq : ((s.ring.popQueue x).opPool x).seq = some i :=
    (congrArg EngOp.seq (Vault.setNext_opPool _ _ x _)).trans hi
  have hlog := hc.stream
  rw [popQueue_entry] at hlog
  refine ⟨{ a.setStage i .closed with
      queue := rest, failed := if a.linked i then a.failed else .holds },
    x :: free, backlog, queue', [], [],
    Or.inr ⟨.cancel, trivial, ?_⟩, ⟨hhand.close hx (by simp) hseq hc rfl rfl ?_ ?_ (fun y => ?_)
      (fun y w hy => ?_) (fun y w hy hne => ?_) rfl rfl rfl (fun j => ?_) rfl, ?_⟩, hlog,
    by rw [hev]; rfl⟩
  · rw [hev]
    exact .cancelQuiet hcur hbl hq (by rw [← h.governs.failed, hf])
  · simp [Pc.batchHead, hpc]
  · simp [Pc.batchTail, hpc]
  · simp [Pc.inEnter, Pc.executing, Pc.posting, Pc.done, Core.holds, hpc]
    omega
  · cases w <;> grind [Core.At, Pc.executing, Pc.posting, Pc.done]
  · cases w <;> grind [Core.At, Pc.executing, Pc.posting, Pc.done]
  · by_cases hj : j = i <;> simp [hj]
  · refine .clear ?_ ?_ (fun f op l t he => ?_) ?_ hbl hd
    · simp only [popQueue_linked, linked_eq hcopy, h.governs.failed]
    · simp [Core.busy, hpc, hcur]
    · rw [show s.pc = _ from he] at hpc
      cases hpc
    · simp only [Core.waitingFor, hpc]
      exact hb

/-- The head of the queue is cancelled with its chain. -/
theorem Rep.cancelLoud (h : Rep s a free backlog queue batch) (hpc : s.pc = .queue f)
    (hqh : s.ring.queueHead = some x) (hb : s.ring.blocking = none)
    (hf : s.ring.chainFailed = .cancels) :
    Simulated s
      { s with
        ring := { s.ring.popQueue x with
          chainFailed := if (s.ring.popQueue x).linked x then s.ring.chainFailed else .holds }
        pc := .post f x (-ecanceled) } (.queueStep target reads) a backlog := by
  obtain ⟨hcur, hbl, hd, rfl, queue', i, rest, rfl, hq, hi, hcopy⟩ := h.queue_front hpc hqh hb
  have hev : s.events (.queueStep target reads) = [.cancel i false] := by
    simp [Core.events, Core.queueEvents, hpc, hqh, hb, hf, about_eq hi]
  refine ⟨_, free, backlog, queue', [], [],
    Or.inr ⟨.cancel, trivial, by
      rw [hev]
      exact .cancelLoud hcur hbl hq (by rw [← h.governs.failed, hf])⟩, ⟨?_, ?_⟩, ?_, by rw [hev]; rfl⟩
  · exact h.placed.popped _ _ hpc hq hi rfl rfl (.refl _) rfl rfl (Or.inl ⟨_, rfl, rfl⟩) rfl rfl rfl
      rfl (fun j => rfl) rfl
  · refine .clear ?_ rfl (fun f op l t he => by cases he) hb hbl hd
    simp only [popQueue_linked, linked_eq hcopy, h.governs.failed]
  · have hent := popQueue_entry s.ring x
    exact List.Perm.of_eq (by
      rw [List.append_nil, ← hent]
      rfl)

theorem Placed.setOp_entry (h : Placed s a free backlog (x :: queue) []) (o : EngOp) :
    backlog.map (s.ring.toVault.setOp x o).entry = backlog.map s.ring.entry := by
  have hx : s.At (x :: queue ++ []) x .queued := by simp [Core.At]
  refine List.map_congr_left (fun y hy => ?_)
  have hne : y ≠ x := by
    rintro rfl
    exact (h.outside hx).2.1 hy
  simp [Vault.entry, hne]

theorem msgRing_ring (r : Ring) (q : Sqe) (target : MsgTarget) (reads : List ℕ) :
    (msgRing r q target reads).1 =
      { r with toVault := (msgRing r q target reads).1.toVault } := by
  unfold msgRing
  split
  · rfl
  · cases target <;> rfl

theorem msgRing_neg {r : Ring} {q : Sqe} {target : MsgTarget} {reads : List ℕ}
    (h : (msgRing r q target reads).2 < 0) : q.addr ≠ ioringMsgData ∨ target = .noRing := by
  unfold msgRing at h
  split at h
  · next ha => exact Or.inl ha
  · cases target with
    | noRing => exact Or.inr rfl
    | own => exact absurd (show (0 : Int32) < 0 from h) (by decide)
    | other => exact absurd (show (0 : Int32) < 0 from h) (by decide)

/-- A message to the ring itself is an emission; it answers no SQE. -/
theorem msgRing_completes {r : Ring} (hr : r.toVault.Rep free backlog)
    (hnd : (free ++ backlog).Nodup) (hn : backlog.length ≤ r.opPoolN) (q : Sqe)
    (target : MsgTarget) (reads : List ℕ) :
    ∃ given free' backlog',
      r.toVault.Completes (msgRing r q target reads).1.toVault free backlog [] given free' backlog' ∧
      given.filter (fun p => p.1.isSome) = [] := by
  unfold msgRing
  split
  · exact ⟨[], free, backlog, .refl hr, rfl⟩
  · cases target with
    | noRing => exact ⟨[], free, backlog, .refl hr, rfl⟩
    | other => exact ⟨[], free, backlog, .refl hr, rfl⟩
    | own =>
      obtain ⟨given, free', backlog', hc, hg⟩ :=
        Vault.slipEngineEmit_completes hr hnd hn q.off q.len.toInt32 0 reads
      exact ⟨given, free', backlog', hc, by rcases hg with rfl | rfl <;> rfl⟩

/-- The head of the queue is started: it fails on its fixed slot, sends its message, or goes into
execute. -/
theorem Rep.queueRun (h : Rep s a free backlog queue batch) (hpc : s.pc = .queue f)
    (hqh : s.ring.queueHead = some x) (hb : s.ring.blocking = none)
    (hf : s.ring.chainFailed = .holds) (hs : s.queueStep target reads = some s') :
    Simulated s s' (.queueStep target reads) a backlog := by
  obtain ⟨hcur, hbl, hd, rfl, queue', i, rest, rfl, hq, hi, hcopy⟩ := h.queue_front hpc hqh hb
  have hfail : a.failed = .holds := by rw [← h.governs.failed, hf]
  have hev : s.events (.queueStep target reads) =
      .start i :: s'.pc.posting.toList.map fun p => .result i p.2 := by
    simp only [Core.events, Core.queueEvents, hpc, hqh, hb, hf, hs, about_eq hi]
    cases s' with
    | mk r' pc' hands' accepted' => cases pc' <;> rfl
  simp only [Core.queueStep, hpc, hqh] at hs
  rw [if_neg (by simp [hb]), if_neg (by simp [Ring.popQueue, hf])] at hs
  split at hs
  · cases hs
    refine ⟨_, free, backlog, queue', [], [],
      Or.inr ⟨.fail (-ebadf), trivial, by
        rw [hev]
        exact .fail hcur hbl hq hfail (by decide)⟩, ⟨?_, ?_⟩, ?_, by rw [hev]; rfl⟩
    · exact h.placed.popped _ _ hpc hq hi rfl rfl (.refl _) rfl rfl (Or.inl ⟨_, rfl, rfl⟩) rfl rfl rfl
        rfl (fun j => rfl) rfl
    · refine .clear ?_ rfl (fun f op l t he => by cases he) hb hbl hd
      have hc := popQueue_copies s.ring x hcopy
      simp only [popQueue_linked, linked_eq hcopy, verdict_eq hc, Chains.failedAfter]
      rw [show (s.ring.popQueue x).chainFailed = a.failed from h.governs.failed]
      simp [show (-ebadf : Int32) < 0 by decide]
    · have hent := popQueue_entry s.ring x
      exact List.Perm.of_eq (by
        rw [List.append_nil, ← hent]
        rfl)
  next hlookup =>
  -- past the descriptor the op carries the real one, which is no part of the abstract SQE
  generalize hres : (_ && _ && _ : Bool) = resolves at hs
  generalize ho : (if resolves = true then _ else _ : EngOp) = o at hs
  have hop : o.seq = (s.ring.opPool x).seq ∧ Copies o.sqe (s.ring.opPool x).sqe ∧
      o.sqe.addr = (s.ring.opPool x).sqe.addr := by
    have hpop : (s.ring.popQueue x).opPool x = { s.ring.opPool x with next := none } := by
      simp [Ring.popQueue, Vault.setNext]
    rw [← ho, hpop]
    split <;> exact ⟨rfl, ⟨rfl, rfl, rfl, rfl⟩, rfl⟩
  obtain ⟨hseq, hco, haddr⟩ := hop
  have hvault : ((s.ring.popQueue x).inVault (·.setOp x o)).toVault = s.ring.toVault.setOp x o :=
    Vault.setOp_setOp _ _ _ _
  split at hs
  · next hcode =>
    cases hs
    have hhand : Placed { s with
        ring := (s.ring.popQueue x).inVault (·.setOp x o)
        pc := .post f x
          (msgRing ((s.ring.popQueue x).inVault (·.setOp x o)) o.sqe target reads).2 }
        { a.setStage i (.posting
            (msgRing ((s.ring.popQueue x).inVault (·.setOp x o)) o.sqe target reads).2) with
          queue := rest, current := some i, took := false } free backlog queue' [] :=
      h.placed.popped _ _ hpc hq hi hvault hseq hco rfl rfl (Or.inl ⟨_, rfl, rfl⟩) rfl rfl rfl rfl
        (fun j => rfl) rfl
    obtain ⟨given, free', backlog', hc, hg⟩ := msgRing_completes hhand.vault hhand.nodup
      hhand.length_le.2.1 o.sqe target reads
    have hring := msgRing_ring ((s.ring.popQueue x).inVault (·.setOp x o)) o.sqe target reads
    have hstream := hc.stream
    rw [hvault, h.placed.setOp_entry] at hstream
    refine ⟨_, free', backlog', queue', [], given,
      Or.inr ⟨.message _, fun hneg => ⟨x, ⟨f, hpc⟩, hqh, hb, hf,
        hco.opcode.symm.trans hcode, fun hfix => ?_, ?_⟩, by
        rw [hev]
        exact .message hcur hbl hq hfail (hcopy.opcode.symm.trans (hco.opcode.symm.trans hcode))⟩,
      ⟨hhand.idle hc ⟨rfl, rfl, rfl, rfl, rfl, ?_, ?_, rfl, rfl⟩ rfl rfl rfl rfl, ?_⟩, hstream, ?_⟩
    · refine Int32.not_lt.mp (fun hlt => ?_)
      have hop : (s.ring.popQueue x).opPool x = { s.ring.opPool x with next := none } := by
        simp [Ring.popQueue, Vault.setNext]
      refine hlookup ?_
      rw [hop]
      have hlt' : (s.ring.popQueue x).slipFixedLookup (s.ring.opPool x).sqe.fd < 0 := hlt
      simp only [hfix, hco.opcode.symm.trans hcode]
      simpa using hlt'
    · rw [← haddr]
      exact msgRing_neg hneg
    · rw [hring]
    · rw [hring]
    · rw [hring]
      exact .clear h.governs.failed rfl (fun f op l t he => by cases he) hb hbl hd
    · rw [hev, hg]
      rfl
  · cases hs
    refine ⟨_, free, backlog, queue', [], [],
      Or.inr ⟨.begin, trivial, by
        rw [hev]
        exact .begin hcur hbl hq hfail⟩, ⟨?_, ?_⟩, ?_, by rw [hev]; rfl⟩
    · exact h.placed.popped _ _ hpc hq hi hvault hseq hco rfl rfl (Or.inr ⟨_, rfl, rfl⟩) rfl rfl rfl rfl
        (fun j => rfl) rfl
    · refine .clear h.governs.failed rfl (fun f' op l t he => ?_) ?_ hbl hd
      · cases he
        exact ⟨hb, i, rfl, (popQueue_linked _ _).trans (linked_eq hcopy)⟩
      · unfold Core.waitingFor
        cases (s.ring.popQueue x).linked x <;> exact hb
    · rw [hvault, h.placed.setOp_entry, List.append_nil]
      exact .refl _

theorem Rep.queueStep (h : Rep s a free backlog queue batch)
    (hs : s.queueStep target reads = some s') :
    Simulated s s' (.queueStep target reads) a backlog := by
  have hs0 := hs
  unfold Core.queueStep at hs
  split at hs
  swap
  · cases hs
  next f hpc =>
  have hleave := h.leave f (by simp [Pc.inEnter, Pc.executing, Pc.posting, Pc.done, hpc])
    (by simp [Pc.batchHead, hpc]) (by simp [Pc.batchTail, hpc]) (by simp [Core.busy, hpc])
  split at hs
  · next hqh =>
    cases hs
    exact .silent (by simp [Core.events, Core.queueEvents, hpc, hqh]) hleave rfl rfl
  next x hqh =>
  split at hs
  · next hb =>
    cases hs
    exact .silent (by simp [Core.events, Core.queueEvents, hpc, hqh, hb]) hleave rfl rfl
  next hb =>
  rw [not_not] at hb
  have hpop : (s.ring.popQueue x).chainFailed = s.ring.chainFailed := rfl
  simp only [hpop] at hs
  split at hs
  · next hne =>
    split at hs
    · next hquiet =>
      cases hs
      exact h.cancelQuiet hpc hqh hb hquiet
    · next hloud =>
      cases hs
      refine h.cancelLoud hpc hqh hb ?_
      cases hcf : s.ring.chainFailed with
      | holds => exact absurd hcf hne
      | cancels => rfl
      | cancelsQuietly => exact absurd hcf hloud
  · next hholds =>
    exact h.queueRun hpc hqh hb (not_not.mp hholds) hs0

end Front

section Batch
variable {call : Call} {rest : List (Option Sqe)} {submitted : ℕ} {batchHead batchTail : Option Slot}

/-- An SQE is copied into an op at the end of the batch. -/
theorem Rep.accept {sqe : Sqe} {v : Vault} (h : Rep s a (x :: free) backlog queue batch)
    (hw : a.WellFormed) (hpc : s.pc = .take call (some sqe :: rest) submitted batchHead batchTail)
    (hv : v = ({ s.ring.toVault with opFree := s.ring.next x }.setOp x
      { sqe := sqe, seq := some s.accepted })) :
    Simulated s
      { s with
        ring := s.ring.inVault (fun _ => match batchTail with
          | some t => v.setNext t (some x)
          | none => v)
        pc := .take call rest (submitted + 1) (if batchTail = none then some x else batchHead) (some x)
        accepted := s.accepted + 1 } .takeSqe a backlog := by
  have hop : s.ring.opFree = some x := h.placed.vault.free.1
  have hev : s.events .takeSqe = [.accept a.n sqe] := by
    simp [Core.events, hpc, hop, h.placed.accepted]
  have htail : s.pc.batchTail = batchTail := by simp [Pc.batchTail, hpc]
  have hxt (t : Slot) (ht : batchTail = some t) : t ≠ x := by
    rintro rfl
    have hmem : t ∈ batch :=
      List.mem_of_getLast? (h.placed.batchList.tail.symm.trans (htail.trans ht))
    exact (h.placed.outside (show s.At (queue ++ batch) t .queued from
      List.mem_append_right _ hmem)).1 List.mem_cons_self
  have hnot (w : Stage) : ¬ s.At (queue ++ batch) x w :=
    fun hx => (h.placed.outside hx).1 List.mem_cons_self
  generalize hwv : (match batchTail with
    | some t => v.setNext t (some x)
    | none => v) = w
  have hpool (y : Slot) : w.opPool y = if y = x then { sqe := sqe, seq := some s.accepted } else
      { s.ring.opPool y with next := if batchTail = some y then some x else s.ring.next y } := by
    rw [← hwv, hv]
    cases batchTail with
    | none =>
      simp only [Vault.setOp_opPool, reduceCtorEq, if_false]
      rfl
    | some t =>
      have hne := hxt t rfl
      by_cases hyt : y = t
      · simp [Vault.setNext, hyt, hne]
      · simp only [Vault.setNext, Vault.setOp_opPool, hyt, Option.some.injEq, Ne.symm hyt, if_false]
        rfl
  have hfields : w.opFree = s.ring.next x ∧ w.opPoolN = s.ring.opPoolN ∧ w.cq = s.ring.cq ∧
      w.backlogHead = s.ring.backlogHead ∧ w.backlogTail = s.ring.backlogTail := by
    rw [← hwv, hv]
    cases batchTail <;> exact ⟨rfl, rfl, rfl, rfl, rfl⟩
  obtain ⟨hwfree, hwn, hwcq, hwlh, hwlt⟩ := hfields
  have hnext (y : Slot) (hy : y ≠ x) :
      w.next y = if batchTail = some y then some x else s.ring.next y := by
    rw [Vault.next, hpool, if_neg hy]
  have hother (y : Slot) (hy : y ≠ x) : w.opPool y = { s.ring.opPool y with next := w.next y } := by
    rw [hnext y hy, hpool, if_neg hy]
  have hentry : backlog.map w.entry = backlog.map s.ring.entry := by
    refine List.map_congr_left (fun y hy => Vault.entry_congr (hother y ?_))
    rintro rfl
    have hnd := h.placed.nodup
    rw [List.cons_append, List.nodup_cons] at hnd
    exact hnd.1 (List.mem_append_right _ hy)
  have hat (y : Slot) (u : Stage) : Core.At
      { s with
        ring := s.ring.inVault (fun _ => w)
        pc := .take call rest (submitted + 1) (if batchTail = none then some x else batchHead) (some x)
        accepted := s.accepted + 1 } (queue ++ (batch ++ [x])) y u ↔
      (y = x ∧ u = .queued) ∨ (y ≠ x ∧ s.At (queue ++ batch) y u) := by
    have hx := hnot u
    by_cases hy : y = x
    · subst hy
      cases u <;> simp [Core.At, Pc.executing, Pc.posting, Pc.done, hpc] at hx ⊢ <;> exact hx
    · cases u <;> simp [Core.At, Pc.executing, Pc.posting, Pc.done, hpc, hy]
  refine ⟨_, free, backlog, queue, batch ++ [x], [],
    Or.inr ⟨.accept sqe, ⟨_, _, _, _, _, hpc⟩, by rw [hev]; exact .accept sqe⟩, ⟨?_, ?_⟩, ?_, by rw [hev]; rfl⟩
  · refine h.placed.accept hw ⟨?_, ?_⟩ hother (fun t ht => ?_) ?_ (fun y hy ht => ?_) hwfree hwn hwlh
      hwlt rfl rfl ?_ rfl ?_ rfl hat rfl rfl (fun j => rfl) (fun j => rfl) rfl
    · simp [hpool, h.placed.accepted]
    · simp [hpool]
    · rw [htail] at ht
      exact (hnext t (hxt t ht)).trans (if_pos ht)
    · simp [Vault.next, hpool]
    · rw [htail] at ht
      exact (hnext y hy).trans (if_neg ht)
    · simp [Pc.batchHead, Pc.batchTail, hpc]
    · simp [Pc.inEnter, Pc.executing, Pc.posting, Pc.done, hpc]
  · refine h.governs.keep h.governs.failed ?_ (fun f op l t he => by cases he) ?_ rfl rfl rfl rfl
      (fun b j hb hj _ hseq hbat => ?_) (fun b _ hbat u hu => ?_)
    · rw [h.not_busy (by simp [Core.busy, hpc])]
      rfl
    · simp [Core.waitingFor, hpc, Ring.inVault]
    · have hbx : b ≠ x := by
        rintro rfl
        exact hnot _ hbat
      have hjn : j ≠ a.n := by
        rintro rfl
        exact (hw.blocking a.n hj).2.1 ((hw.born a.n).mpr le_rfl)
      rw [show (Chains.stage _ j) = a.stage j from if_neg hjn]
      refine ⟨?_, (hat b _).mpr (Or.inr ⟨hbx, hbat⟩)⟩
      exact (congrArg EngOp.seq (hother b hbx)).trans hseq
    · rw [hat] at hu
      rcases hu with ⟨-, rfl⟩ | ⟨-, hu⟩
      · exact Or.inl rfl
      · exact hbat u hu
  · rw [List.append_nil]
    exact List.Perm.of_eq (congrArg₂ _ (congrArg CqRing.log hwcq) hentry)

theorem Rep.takeSqe (h : Rep s a free backlog queue batch) (hw : a.WellFormed)
    (hs : s.takeSqe = some s') : Simulated s s' .takeSqe a backlog := by
  unfold Core.takeSqe at hs
  split at hs
  swap
  · cases hs
  next call entry rest submitted batchHead batchTail hpc =>
  have hgo (r : Ring) (rest : List (Option Sqe)) (submitted : ℕ) (hr : r.toVault = s.ring.toVault)
      (hqh : r.queueHead = s.ring.queueHead) (hqt : r.queueTail = s.ring.queueTail)
      (hf : r.chainFailed = s.ring.chainFailed) (hbl : r.blocking = s.ring.blocking)
      (hbd : r.blockedDone = s.ring.blockedDone) (hbf : r.blockedFailed = s.ring.blockedFailed) :
      Rep { s with ring := r, pc := .take call rest submitted batchHead batchTail } a free backlog
        queue batch := by
    refine h.goto hr hqh hqt hf hbl hbd hbf ?_ ?_ ?_ ?_ ?_ ?_ <;>
      simp [Pc.inEnter, Pc.executing, Pc.posting, Pc.done, Pc.batchHead, Pc.batchTail, Core.busy, hpc]
  cases entry with
  | none =>
    cases hs
    exact .silent (by simp [Core.events, hpc]) (hgo _ _ _ rfl rfl rfl rfl rfl rfl rfl) rfl rfl
  | some sqe =>
    simp only at hs
    cases free with
    | nil =>
      have hempty : s.ring.opFree = none := h.placed.vault.free
      rw [show s.ring.toVault.opAllocLocked = none from
        (Vault.opAllocLocked_none h.placed.vault).mpr rfl] at hs
      cases hs
      exact .silent (by simp [Core.events, hpc, hempty]) (hgo _ _ _ rfl rfl rfl rfl rfl rfl rfl) rfl rfl
    | cons x free =>
      have hop : s.ring.opFree = some x := h.placed.vault.free.1
      rw [show s.ring.toVault.opAllocLocked = some (x, { s.ring.toVault with
        opFree := s.ring.next x }.setOp x {}) by simp [Vault.opAllocLocked, hop]] at hs
      simp only [Vault.setOp_opPool, Vault.setOp_setOp, if_true] at hs
      cases hs
      exact h.accept hw hpc rfl

theorem appendBatch_next (r : Ring) (b : Slot) (t : Option Slot) (y : Slot) :
    (r.appendBatch b t).next y = if r.queueTail = some y then some b else r.next y := by
  unfold Ring.appendBatch
  cases r.queueTail with
  | none => rfl
  | some t => simp [Ring.inVault, eq_comm]

theorem appendBatch_opPool (r : Ring) (b : Slot) (t : Option Slot) (y : Slot) :
    (r.appendBatch b t).opPool y =
      { r.opPool y with next := (r.appendBatch b t).next y } := by
  unfold Ring.appendBatch
  cases r.queueTail with
  | none => rfl
  | some t => exact Vault.setNext_opPool _ _ _ _

theorem appendBatch_rest (r : Ring) (b : Slot) (t : Option Slot) : r.appendBatch b t = { r with
    opPool := (r.appendBatch b t).opPool
    queueHead := if r.queueTail.isNone then some b else r.queueHead
    queueTail := t } := by
  unfold Ring.appendBatch
  cases r.queueTail <;> rfl

/-- The batch goes behind the queue. -/
theorem Rep.append (h : Rep s a free backlog queue batch)
    (hs : s.append = some s') : Simulated s s' .append a backlog := by
  unfold Core.append at hs
  split at hs
  swap
  · cases hs
  next call submitted batchHead batchTail hpc =>
  have hhead : s.pc.batchHead = batchHead := by simp [Pc.batchHead, hpc]
  have htail : s.pc.batchTail = batchTail := by simp [Pc.batchTail, hpc]
  cases batchHead with
  | none =>
    cases hs
    have hbatch := h.placed.batch_nil hhead
    have hnone := h.placed.batchList.tail_none.mpr hbatch
    refine .silent (by simp [Core.events]) (h.leave _ ?_ hhead hnone ?_) rfl rfl
    · simp [Pc.inEnter, Pc.executing, Pc.posting, Pc.done, hpc]
    · simp [Core.busy, hpc]
  | some b =>
    cases hs
    have hne : batch ≠ [] := by
      rintro rfl
      cases hhead.symm.trans (h.placed.batchList.head_none.mpr rfl)
    have hnext := appendBatch_next s.ring b batchTail
    have hpool := appendBatch_opPool s.ring b batchTail
    have hrest := appendBatch_rest s.ring b batchTail
    generalize hr : s.ring.appendBatch b batchTail = r at hnext hpool hrest
    have hfields : r.opFree = s.ring.opFree ∧ r.opPoolN = s.ring.opPoolN ∧ r.cq = s.ring.cq ∧
        r.backlogHead = s.ring.backlogHead ∧ r.backlogTail = s.ring.backlogTail ∧
        r.chainFailed = s.ring.chainFailed ∧ r.blocking = s.ring.blocking ∧
        r.blockedDone = s.ring.blockedDone ∧ r.blockedFailed = s.ring.blockedFailed ∧
        r.queueTail = batchTail ∧
        r.queueHead = if s.ring.queueTail.isNone then some b else s.ring.queueHead := by
      rw [hrest]
      exact ⟨rfl, rfl, rfl, rfl, rfl, rfl, rfl, rfl, rfl, rfl, rfl⟩
    obtain ⟨hfree, hn, hcq, hlh, hlt, hcf, hbl, hbd, hbf, hqt, hqh⟩ := hfields
    have hat (y : Slot) (w : Stage) : Core.At
        { s with ring := r, pc := .queue { call := call, submitted := submitted } } (queue ++ batch) y w ↔
        s.At (queue ++ batch) y w := by
      cases w <;> simp [Core.At, Pc.executing, Pc.posting, Pc.done, hpc]
    have hrep : Rep { s with ring := r, pc := .queue { call := call, submitted := submitted } } a free
        backlog (queue ++ batch) [] := ⟨?_, ?_⟩
    · exact .silent rfl hrep (congrArg CqRing.log hcq)
        (List.map_congr_left (fun y _ => Vault.entry_congr (hpool y)))
    · refine h.placed.append hne hpool (fun t ht => ?_) (fun y ht => ?_) hfree hn hlh hlt ?_
        (hqt.trans htail.symm) rfl rfl ?_ rfl hat rfl
      · exact (hnext t).trans ((if_pos ht).trans hhead.symm)
      · exact (hnext y).trans (if_neg ht)
      · rw [hhead]
        exact hqh
      · simp [Pc.inEnter, Pc.executing, Pc.posting, Pc.done, hpc]
    · rw [List.append_nil]
      refine h.governs.keep (hcf.trans h.governs.failed) ?_ (fun f op l t he => by cases he) ?_ rfl
        rfl hbd hbf (fun y j _ _ _ hseq hy => ⟨(congrArg EngOp.seq (hpool y)).trans hseq,
          (hat y _).mpr hy⟩) (fun y _ hy w hw => hy w ((hat y w).mp hw))
      · rw [h.not_busy (by simp [Core.busy, hpc])]
        rfl
      · simp [Core.waitingFor, hpc, hbl]

end Batch

end Steps

/-- A step that keeps the backend's contract is a step of the abstract ring, or none. -/
theorem core_step_simulated {s s' : Core} {a : Chains} {free backlog queue batch : List Slot}
    {l : CoreLabel} (h : Rep s a free backlog queue batch) (hw : a.WellFormed) (hk : Keeps s l)
    (hs : s.step l = some s') : Simulated s s' l a backlog := by
  cases l with
  | enter call => exact h.enter hs
  | takeSqe => exact h.takeSqe hw hs
  | append => exact h.append hs
  | queueStep target reads => exact h.queueStep hs
  | post reads => exact h.post hw hs
  | settle reads => exact h.settle hs
  | check left => exact h.check hs
  | complete reads => exact h.complete hw hs
  | write r =>
    cases hs
    exact h.write hk
  | execDone res => exact h.execDone hw hs
  | execTake => exact h.execTake hw hs
  | execPending => exact h.execPending hs
  | cancelHeld t reads => exact h.cancelHeld hw hk.1 hs
  | cancelQueued p reads => exact h.cancelQueued hw hk.1 hs
  | handBack op res => exact h.handBack hk hs
  | waitReturn => exact h.waitReturn hs
  | waitFail => exact h.waitFail hs
  | offFinish op res ticket =>
    cases hs
    exact h.offFinish hw hk
  | offPost op reads => exact h.offPost hw hs
  | emit u res fl reads =>
    cases hs
    exact h.emit u res fl reads
  | read k =>
    cases hs
    exact h.read k

end SlipstreamIO.Engine
