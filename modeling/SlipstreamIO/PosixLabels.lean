import SlipstreamIO.PosixSteps

/-! What each step of the backend is made of: the engine's own steps, the two ways a cancel takes an op
and the settling of a ticket are the whole of a step, and come from the state it starts in. -/
namespace SlipstreamIO.Engine

open ThreadedList Runs

/-- A try of such an op never parks it or sends it to the worker. -/
def Opcode.inline : Opcode → Bool
  | .nop | .socket | .asyncCancel | .pollRemove => true
  | _ => false

namespace Posix

/-- The cancel inside execute stands in the engine's queue, at an op it names, with `p` in front of it. -/
def FindsQueued (s : Posix) (p : Link Slot) (c t : Slot) : Prop :=
  (∃ count, s.back = .cancelQueue p count) ∧ s.core.pc.executing = some c ∧
    p.read s.core.ring.next s.core.ring.queueHead = some t ∧
      cancelNames (s.core.ring.opPool c).sqe (s.core.ring.opPool t).sqe = true

/-- The core in `c` may do `l'` as part of step `l` of the backend. -/
def Makes (s : Posix) (l : PosixLabel) (c : Core) (l' : CoreLabel) : Prop :=
  Keeps c l' ∧ match l' with
    | .write _ | .emit _ _ _ _ | .execPending | .handBack _ _ | .waitReturn | .waitFail | .offPost _ _ => True
    | .offFinish _ _ _ => ∃ res, l = .workerFinish res
    | .execTake => ∀ x, c.pc.executing = some x → (c.ring.opPool x).sqe.opcode.inline = false
    | .execDone res => (∀ x, c.pc.executing = some x → (c.ring.opPool x).sqe.opcode.cancels = false) ∨
        c = s.core ∧ ∃ count x, s.back = .cancelAnswer count ∧ c.pc.executing = some x ∧
          res = Engine.cancelAnswer c.ring (c.ring.opPool x).sqe count
    | .cancelHeld t _ => (∀ count, s.back ≠ .cancelAnswer count) ∧ ∃ x, c.pc.executing = some x ∧
        cancelNames (c.ring.opPool x).sqe (c.ring.opPool t).sqe = true
    | .cancelQueued p _ => c = s.core ∧ (∃ links reads, l = .cancel links reads) ∧
        ∃ x t, s.FindsQueued p x t
    | l' => c = s.core ∧ l = .engine l'

/-- A step of the backend and the run of the core it is. -/
def Made (s : Posix) (l : PosixLabel) (p : List PosixEvent × Posix) : Prop :=
  Run coreMachine (s.Makes l) s.core (coreEvents p.1) p.2.core

end Posix

theorem inline_of_ran {o : EngOp} {a : OsAnswer} {v : Verdict} (ho : (o.slipPosixTry a).verdict = some v)
    (hv : ∀ res, v ≠ .ran res) : o.sqe.opcode.inline = false := by
  cases hcode : o.sqe.opcode with
  | nop | pollRemove | asyncCancel =>
    simp only [EngOp.slipPosixTry, hcode, EngOp.ran, Option.some.injEq] at ho
    exact absurd ho.symm (hv _)
  | socket =>
    simp only [EngOp.slipPosixTry, hcode, EngOp.ran] at ho
    split at ho
    · exact absurd (Option.some.inj ho).symm (hv _)
    · exact absurd (Option.some.inj ho).symm (hv _)
  | _ => rfl

section Made
variable {s s' : Posix} {wq : List Slot} {p : List PosixEvent × Posix} {l : PosixLabel} {b : BackPc}
  {op : Slot} {r : Ring}

theorem Writing.makes {c : Core} {l' : CoreLabel} (h : Writing c l') : s.Makes l c l' := by
  refine ⟨h.keeps, ?_⟩
  cases l' <;> trivial

namespace Posix

theorem made_quiet (hs : s'.quiet = some p) (hc : s'.core = s.core) : s.Made l p := by
  cases hs
  rw [Made, hc]
  exact .start

/-- The step is one of the core. -/
theorem makes_inCore {s₀ : Posix} {c : Core} {l' : CoreLabel} (hs : s₀.inCore l' b = some p)
    (hc : s₀.core = c) (hm : s.Makes l c l') : Run coreMachine (s.Makes l) c (coreEvents p.1) p.2.core := by
  obtain ⟨d, hd, hev, hp⟩ := inCore_eq hs
  rw [hev, coreEvents_core, hp, ← hc]
  exact Run.start.next (hc ▸ hm) hd

/-- It is behind a write of the backend. -/
theorem makes_written {c c' : Core} {ev : List Event} (hk : BackendWrites c r)
    (h : Run coreMachine (s.Makes l) { c with ring := r } ev c') : Run coreMachine (s.Makes l) c ev c' := by
  have hwrite : Run coreMachine (s.Makes l) c ([] ++ c.events (.write r)) { c with ring := r } :=
    Run.start.next (show s.Makes l c (.write r) from ⟨hk, trivial⟩) rfl
  exact hwrite.append h

namespace Inv

theorem made_cancel (h : s.Inv wq) (hg : s.core.Sound) {links : List (Slot × Option Slot)} {reads : List ℕ}
    (hs : s.cancelStep links reads = some p) : s.Made (.cancel links reads) p := by
  have hfits := h.fits
  unfold Posix.cancelStep at hs
  split at hs
  · cases hs
  next c hc =>
  dsimp only at hs
  unfold Fits at hfits
  split at hs
  · split at hs
    · exact made_quiet hs rfl
    · cases hs
  · next i count hback =>
    rw [hback] at hfits
    split at hs
    · exact made_quiet hs rfl
    next t ht =>
    split at hs
    swap
    · exact made_quiet hs rfl
    next hname =>
    have hmem : t ∈ s.core.ring.waiting := List.mem_of_getElem? ht
    obtain ⟨hk, -⟩ := h.unparks (b := .retrying t []) hg (by rw [hback]; rfl) hmem links rfl rfl
    obtain ⟨x, hx, hcode⟩ := hfits.2.cancelling
    apply makes_written hk
    refine makes_inCore hs rfl
      ⟨⟨(h.held t).mpr (by simp [holders, hmem]), x, hx, ?_⟩, by rw [hback]; rintro _ ⟨⟩, c, hc, ?_⟩
    · show ((s.core.ring.unpark t links).opPool x).sqe.opcode.cancels = true
      rw [hk.sqe, hcode]
    · show cancelNames ((s.core.ring.unpark t links).opPool c).sqe
        ((s.core.ring.unpark t links).opPool t).sqe = true
      rw [hk.sqe, hk.sqe, hname]
  · next ptr count hback =>
    rw [hback] at hfits
    obtain ⟨-, hsearched, queue, hqueue, hptr⟩ := hfits
    split at hs
    · exact made_quiet hs rfl
    next t ht =>
    split at hs
    swap
    · exact made_quiet hs rfl
    next hname =>
    refine makes_inCore hs rfl ⟨⟨?_, hsearched.cancelling⟩, rfl, ⟨_, _, rfl⟩, c, t, ⟨count, hback⟩, hc, ht,
      hname⟩
    obtain ⟨queue', hq, hlen⟩ := hg.queue
    obtain rfl := threads_unique hqueue hq
    rw [walk_eq hq _ hlen]
    exact hptr
  · next ptr count hback =>
    rw [hback] at hfits
    obtain ⟨-, pre, suf, rfl, rfl, -⟩ := hfits
    have hlen := h.wq_length_le hg
    rw [List.length_append] at hlen
    obtain ⟨hscan, -⟩ | ⟨mid, t, suf', rfl, hscan, -⟩ :=
      scanWq_spec (c := c) h.queues (s.core.ring.opPoolN + 1) (by omega)
    · rw [hscan] at hs
      exact made_quiet hs rfl
    · rw [hscan] at hs
      have hwq : pre ++ (mid ++ t :: suf') = pre ++ mid ++ t :: suf' := by simp
      have hlink := (unlinkWq_spec (hwq ▸ h.queues) (by
        simp only [List.length_append, List.length_cons] at hlen ⊢
        omega)).1
      cases hs
      refine makes_written (hlink.backend fun x hx => .inl ((h.held x).mpr ?_)) .start
      simp only [holders, List.mem_append] at hx ⊢
      tauto
  · next ptr t count hback =>
    rw [hback] at hfits
    obtain ⟨-, ⟨c', hc', hname⟩, _, _, _, _, hsearched⟩ := hfits
    have hheld : s.core.hands t = .held := (h.held t).mpr (by simp [holders, hback, BackPc.own])
    exact makes_inCore hs rfl ⟨⟨hheld, hsearched.cancelling⟩, by rw [hback]; rintro _ ⟨⟩, c', hc', hname⟩
  · next count hback =>
    obtain ⟨q, u, hq, hu, rfl⟩ := andThen_eq hs
    cases hq
    rw [Made, coreEvents_append]
    exact makes_inCore hu rfl ⟨trivial, .inr ⟨rfl, count, c, hback, hc, rfl⟩⟩
  · cases hs

/-- One turn of a try, and what follows it. -/
theorem made_turn (h : s.Inv wq) (hg : s.core.Sound) (hop : Inv.Tries s op) (a : OsAnswer)
    (reads : List ℕ) {u : List PosixEvent × Posix}
    (hu : Run coreMachine (s.Makes l) (s.turn op a reads).2.core (coreEvents u.1) u.2.core) :
    s.Made l ((s.turn op a reads).1 ++ u.1, u.2) := by
  obtain ⟨r, hr, hrun, -⟩ := h.turn hg hop a reads
  have hturn := hrun.mono (D := s.Makes l) fun _ _ hw => hw.makes
  rw [Made, coreEvents_append]
  refine Run.append ?_ hu
  rw [hr]
  exact hturn

theorem made_execute (h : s.Inv wq) (hg : s.core.Sound) {a : OsAnswer} {armed : Bool}
    {links : List (Slot × Option Slot)} {reads : List ℕ} (hs : s.execute a armed links reads = some p) :
    s.Made l p := by
  unfold Posix.execute at hs
  split at hs
  swap
  · cases hs
  next f op linked hpc =>
  split at hs
  · cases hs
  next hcode =>
  rw [Bool.not_eq_true] at hcode
  obtain ⟨q, u, hq, hu, rfl⟩ := andThen_eq hs
  cases hq
  have hop : Inv.Tries s op := .inl (by rw [hpc]; rfl)
  apply h.made_turn hg hop a reads
  obtain ⟨r, hr, hrun, hinv', hpool⟩ := h.turn hg hop a reads
  have hg' : (s.setRing r).core.Sound := hg.run (hrun.mono fun _ _ hw => hw.keeps)
  rw [hr] at hu ⊢
  have hexec : (s.setRing r).core.pc.executing = some op := by
    show s.core.pc.executing = some op
    rw [hpc]
    rfl
  have hsqe : (r.opPool op).sqe = (s.core.ring.opPool op).sqe := by
    rw [hpool]
    exact ((s.core.ring.opPool op).slipPosixTry_turn a).tried.sqe
  -- an op that is answered at once is no cancel
  have hdone {c : Core} {res : Int32} (hx : c.pc.executing = some op)
      (hc : (c.ring.opPool op).sqe = (r.opPool op).sqe) : s.Makes l c (.execDone res) := by
    refine ⟨trivial, .inl fun x hx' => ?_⟩
    cases hx.symm.trans hx'
    rw [hc, hsqe]
    exact hcode
  have htake {v : Verdict} (hv : ((s.core.ring.opPool op).slipPosixTry a).verdict = some v)
      (hne : ∀ res, v ≠ .ran res) {t : Posix} {r' : Ring} (ht : t.core = (s.setRing r).core)
      (hk : BackendWrites (s.setRing r).core r') {w : List PosixEvent × Posix}
      (hw : t.takeOp op linked r' = some w) :
      Run coreMachine (s.Makes l) (s.setRing r).core (coreEvents w.1) w.2.core := by
    apply makes_written hk
    refine makes_inCore (c := { (s.setRing r).core with ring := r' }) hw (by rw [← ht]; rfl) ⟨trivial, ?_⟩
    intro x hx
    cases hexec.symm.trans hx
    show (r'.opPool op).sqe.opcode.inline = false
    rw [hk.sqe, show (s.setRing r).core.ring.opPool op = r.opPool op from rfl, hsqe]
    exact inline_of_ran hv hne
  have hpend {t : Posix} {r' : Ring} {v : Verdict}
      (hv : ((s.core.ring.opPool op).slipPosixTry a).verdict = some v) (hne : ∀ res, v ≠ .ran res)
      (ht : t.core = (s.setRing r).core) (hk : BackendWrites (s.setRing r).core r')
      (hw : andThen (t.takeOp op linked r') (·.inCore .execPending .core) = some u) :
      Run coreMachine (s.Makes l) (s.setRing r).core (coreEvents u.1) u.2.core := by
    obtain ⟨v, w, hv', hw', rfl⟩ := andThen_eq hw
    rw [coreEvents_append]
    exact (htake hv hne ht hk hv').append (makes_inCore hw' rfl ⟨trivial, trivial⟩)
  split at hu
  · cases hu
    exact .start
  · exact makes_inCore hu rfl (hdone hexec rfl)
  · next events hv =>
    dsimp only at hu
    split at hu
    · next r' hp => exact hpend hv nofun rfl (hinv'.park_writes hop hp) hu
    · next r' hp =>
      have hk := hinv'.park_writes hop hp
      exact makes_written hk (makes_inCore hu rfl (hdone hexec (hk.sqe op)))
  · next hv =>
    split at hu
    · have hsame : Ring.Relinks (fun _ => False) r r := .refl r
      exact hpend (t := { s.setRing r with away := s.away ++ [op] }) hv nofun rfl
        (hsame.backend fun _ hx => hx.elim) hu
    · exact htake hv nofun rfl (hinv'.file_writes hg' hexec) hu

theorem made_retry (h : s.Inv wq) (hg : s.core.Sound) {a : OsAnswer} {armed : Bool}
    {links : List (Slot × Option Slot)} {reads : List ℕ} (hs : s.retry a armed links reads = some p) :
    s.Made l p := by
  unfold Posix.retry at hs
  split at hs
  swap
  · cases hs
  next op ready hback =>
  obtain ⟨q, u, hq, hu, rfl⟩ := andThen_eq hs
  cases hq
  have hop : Inv.Tries s op := .inr (by simp [hback, BackPc.own])
  apply h.made_turn hg hop a reads
  obtain ⟨r, hr, -, hinv', -⟩ := h.turn hg hop a reads
  rw [hr] at hu ⊢
  have hheld : s.core.hands op = .held := (h.held op).mpr (by simp [holders, hback, BackPc.own])
  split at hu
  · cases hu
    exact .start
  · exact makes_inCore hu rfl ⟨hheld, trivial⟩
  · exact makes_inCore hu rfl ⟨hheld, trivial⟩
  · dsimp only at hu
    split at hu
    · next r' hp =>
      cases hu
      exact makes_written (hinv'.park_writes hop hp) .start
    · next r' hp =>
      exact makes_written (hinv'.park_writes hop hp) (makes_inCore hu rfl ⟨hheld, trivial⟩)

/-- Every step of the backend is made of such steps of the core. -/
theorem made (h : s.Inv wq) (hg : s.core.Sound) (hs : s.out l = some p) : s.Made l p := by
  cases l with
  | engine l =>
    simp only [Posix.out, Posix.engineStep] at hs
    split at hs
    swap
    · cases hs
    next hengine =>
    obtain ⟨q, u, hq, hu, rfl⟩ := andThen_eq hs
    have hu2 : u.2 = q.2 ∧ coreEvents u.1 = [] := by
      cases l with
      | settle reads =>
        dsimp only at hu
        split at hu <;> cases hu <;> exact ⟨rfl, rfl⟩
      | _ => cases hu; exact ⟨rfl, rfl⟩
    have hm : s.Makes (.engine l) s.core l := by
      cases l <;> first | exact ⟨trivial, rfl, rfl⟩ | cases hengine
    rw [Made, coreEvents_append, hu2.2, List.append_nil, hu2.1]
    exact makes_inCore hq rfl hm
  | tries a armed links reads =>
    simp only [Posix.out] at hs
    split at hs
    · exact h.made_execute hg hs
    · exact h.made_retry hg hs
  | pending => exact makes_inCore hs rfl ⟨trivial, trivial⟩
  | cancel links reads => exact h.made_cancel hg hs
  | wake reported ready =>
    simp only [Posix.out, Posix.wake] at hs
    split at hs
    swap
    · cases hs
    split at hs
    · exact made_quiet hs rfl
    · cases hs
  | drain =>
    simp only [Posix.out, Posix.drain] at hs
    split at hs
    swap
    · cases hs
    obtain ⟨⟨got, pipe⟩, -, hs⟩ := Option.bind_eq_some_iff.mp hs
    exact made_quiet hs rfl
  | ready links =>
    have hfits := h.fits
    unfold Fits at hfits
    simp only [Posix.out, Posix.nextReady] at hs
    split at hs
    swap
    · cases hs
    next op ready hpc hback =>
    rw [hback] at hfits
    split at hs
    swap
    · cases hs
    have hop : op ∈ s.core.ring.waiting := hfits.2.2 op List.mem_cons_self
    obtain ⟨hk, -⟩ := h.unparks (b := .retrying op ready) hg (by rw [hback]; rfl) hop links rfl rfl
    cases hs
    exact makes_written hk .start
  | cameBack op res =>
    simp only [Posix.out, Posix.cameBack] at hs
    split at hs
    swap
    · cases hs
    split at hs
    swap
    · cases hs
    next haway =>
    have hheld : s.core.hands op = .held := (h.held op).mpr (by simp [holders, haway])
    exact makes_inCore hs rfl ⟨hheld, trivial⟩
  | back =>
    simp only [Posix.out, Posix.waitReturns] at hs
    split at hs
    swap
    · cases hs
    split at hs
    · exact makes_inCore hs rfl ⟨trivial, trivial⟩
    · cases hs
  | fail =>
    simp only [Posix.out] at hs
    split at hs
    · exact makes_inCore hs rfl ⟨trivial, trivial⟩
    · cases hs
  | workerTake =>
    simp only [Posix.out, Posix.workerTake] at hs
    split at hs
    swap
    · cases hs
    cases hs
    apply makes_written (r := s.core.ring.workerPop _)
    · exact ⟨fun _ _ _ => rfl, fun _ => rfl, fun _ => rfl, rfl, rfl, rfl, rfl, rfl, rfl, rfl, rfl, rfl, rfl,
        rfl, rfl⟩
    · exact .start
  | workerFinish res =>
    simp only [Posix.out, Posix.workerFinish] at hs
    split at hs
    swap
    · cases hs
    next op hruns =>
    obtain ⟨q, t, hq, ht, rfl⟩ := andThen_eq hs
    have hheld : s.core.hands op = .held := (h.held op).mpr (by simp [holders, hruns, WorkerPc.runs])
    have hmarked := h.marked op (by simp [hruns, WorkerPc.runs])
    have ht2 : t.2 = q.2 ∧ coreEvents t.1 = [] := by
      split at ht <;> cases ht <;> exact ⟨rfl, rfl⟩
    rw [Made, coreEvents_append, ht2.2, List.append_nil, ht2.1]
    exact makes_inCore hq rfl ⟨⟨hheld, hmarked⟩, res, rfl⟩
  | workerPost reads =>
    simp only [Posix.out, Posix.workerPost] at hs
    split at hs <;> cases hs
    next op res hfin =>
    have hoff : s.core.hands op = .off res := (h.off op res).mpr hfin
    have hstep : s.core.step (.offPost op reads) = some { s.core.setHand op .none with
        ring := s.core.ring.inVault (·.slipEnginePost op res reads) } := by
      simp only [Core.step, Core.offPost, hoff]
    have hev : s.core.events (.offPost op reads) = s.core.gives op res := by
      simp only [Core.events, hoff]
    rw [Made, coreEvents_core, ← hev]
    exact Run.start.next (show s.Makes _ s.core (.offPost op reads) from ⟨trivial, trivial⟩) hstep
  | workerPoke | senderPoke =>
    simp only [Posix.out] at hs
    split at hs
    swap
    · cases hs
    obtain ⟨pipe, -, hs⟩ := Option.bind_eq_some_iff.mp hs
    exact made_quiet hs rfl
  | senderEmit u res reads =>
    cases hs
    exact (emit_writing s.core u res 0 reads).mono fun _ _ hw => hw.makes
  | interrupted worker =>
    simp only [Posix.out] at hs
    repeat' split at hs
    all_goals first | exact made_quiet hs rfl | cases hs
  | table l =>
    cases hs
    exact (setRing_writing (table_writes s.core l)).mono fun _ _ hw => hw.makes

end Inv

end Posix

end Made

/-! ### The abstract ring of a run -/

section History
variable {C : Chains → Act → Prop}

/-- The core goes on as the abstract ring does. -/
theorem History.follow {M : Core → CoreLabel → Prop} {tr ev : List Event} {s s' : Core} {a : Chains}
    (hM : ∀ c l, M c l → Keeps c l)
    (hC : ∀ ev c a l act free backlog queue batch, Run coreMachine M s ev c → History C (tr ++ ev) a →
      Rep c a free backlog queue batch → M c l → Matches c a l act → (∃ ev' a', act.Step a ev' a') → C a act)
    (hist : History C tr a) (hrep : ∃ free backlog queue batch, Rep s a free backlog queue batch)
    (hr : Run coreMachine M s ev s') :
    ∃ a', History C (tr ++ ev) a' ∧ ∃ free backlog queue batch, Rep s' a' free backlog queue batch := by
  induction hr with
  | start => exact ⟨a, by rwa [List.append_nil], hrep⟩
  | @next ev c c' l hr hm hs ih =>
    obtain ⟨a', hist', _, _, _, _, hrep'⟩ := ih
    obtain ⟨a'', free, backlog, queue, batch, -, hact, hrep'', -⟩ :=
      core_step_simulated hrep' hist'.accounts.1 (hM c l hm) hs
    refine ⟨a'', ?_, free, backlog, queue, batch, hrep''⟩
    rw [← List.append_assoc]
    obtain ⟨hev, rfl⟩ | ⟨act, hmatch, hact⟩ := hact
    · rw [show coreMachine.events c l = [] from hev, List.append_nil]
      exact hist'
    · exact hist'.next ⟨act, hC ev c a' l act _ _ _ _ hr hist' hrep' hm hmatch ⟨_, _, hact⟩, hact⟩

/-- What the steps of the backend in a run say of the acts of the abstract ring holds in its history. -/
theorem posix_history {n : ℕ} {e : UInt32} {b : Bool} {k : ℕ} {hk : 0 < k}
    {D : Posix → PosixLabel → Prop} (hD : ∀ s l, D s l → s.Spares l)
    (hC : ∀ tr s wq l ev c a l' act free backlog queue batch,
      Run posixMachine D (setupPosix n e b k hk) tr s → s.Inv wq → D s l →
      Run coreMachine (s.Makes l) s.core ev c → History C (coreEvents tr ++ ev) a →
      Rep c a free backlog queue batch → s.Makes l c l' → Matches c a l' act →
      (∃ ev' a', act.Step a ev' a') → C a act)
    {tr : List PosixEvent} {s : Posix} (hr : Run posixMachine D (setupPosix n e b k hk) tr s) :
    ∃ a, History C (coreEvents tr) a ∧
      ∃ free backlog queue batch, Rep s.core a free backlog queue batch := by
  induction hr with
  | start => exact ⟨{}, .start, List.range n, [], [], [], setupCore_rep n e⟩
  | @next tr s s' l hr hd hs ih =>
    obtain ⟨a, hist, hrep⟩ := ih
    obtain ⟨hcore, wq, hinv⟩ := posix_refines (hr.mono hD)
    have hg : s.core.Sound := (setupPosix_sound n e b k hk).run hcore
    have hmade := hinv.made hg (Posix.step_out hs)
    rw [coreEvents_append]
    exact History.follow (fun _ _ hm => hm.1)
      (fun ev c a l' act _ _ _ _ hrun hist hrep hm hmatch hact =>
        hC tr s wq l ev c a l' act _ _ _ _ hr hinv hd hrun hist hrep hm hmatch hact) hist hrep hmade

end History

end SlipstreamIO.Engine
