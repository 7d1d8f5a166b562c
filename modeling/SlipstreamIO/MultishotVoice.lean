import SlipstreamIO.CancelAnswers
import Mathlib.Data.List.ReduceOption

/-! What an op says in a run of the backend: CQEs with F_MORE while it goes on, its completion, which has
none, and nothing behind that. -/
namespace SlipstreamIO.Engine

open ThreadedList Runs

def Cqe.more (c : Cqe) : Bool := c.flags &&& ioringCqeFMore ≠ 0

/-- The CQE an event posts for SQE `i`. -/
def voiceOf (i : ℕ) : PosixEvent → Option Cqe
  | .emits j c => if j = i then some c else none
  | .core (.give j g) => if j = i then g else none
  | _ => none

/-- The CQEs posted for SQE `i`, in order. -/
def voice (tr : List PosixEvent) (i : ℕ) : List Cqe := tr.filterMap (voiceOf i)

/-- The ops that can go on behind a CQE. -/
def Opcode.repeats : Opcode → Bool
  | .accept | .recv | .recvmsg | .pollAdd => true
  | _ => false

theorem repeats_of_multishot {o : EngOp} (h : o.multishot = true) : o.sqe.opcode.repeats = true := by
  unfold EngOp.multishot at h
  cases hcode : o.sqe.opcode with
  | accept | recv | recvmsg | pollAdd => rfl
  | _ => simp [hcode] at h

/-- No emission, and no completion that promises more. -/
def Closing (ev : List PosixEvent) : Prop :=
  ∀ e ∈ ev, (∀ i c, e ≠ .emits i c) ∧ ∀ i c, e = .core (.give i (some c)) → c.more = false

section Events
variable {tr ev ev' : List PosixEvent} {i : ℕ}

@[simp] theorem voice_append (ev ev' : List PosixEvent) (i : ℕ) :
    voice (ev ++ ev') i = voice ev i ++ voice ev' i := List.filterMap_append

theorem Closing.append (h : Closing ev) (h' : Closing ev') : Closing (ev ++ ev') :=
  fun e he => (List.mem_append.mp he).elim (h e) (h' e)

theorem closing_nil : Closing [] := fun _ he => absurd he List.not_mem_nil

/-- What closing events post is the completion they give. -/
theorem Closing.voice (h : Closing ev) (i : ℕ) : voice ev i = (gives (coreEvents ev) i).reduceOption := by
  induction ev with
  | nil => rfl
  | cons e ev ih =>
    have ih := ih fun e' he' => h e' (List.mem_cons_of_mem _ he')
    have hhead : (voiceOf i e).toList = (gives (coreEvents [e]) i).reduceOption := by
      cases e with
      | emits j c => exact absurd rfl ((h _ List.mem_cons_self).1 j c)
      | core e =>
        cases e with
        | give j g =>
          simp only [voiceOf, coreEvents, List.filterMap_cons, List.filterMap_nil, gives_cons, gives_nil,
            giveOf, List.append_nil]
          split
          · cases g <;> rfl
          · rfl
        | _ => rfl
      | _ => rfl
    have hev : coreEvents (e :: ev) = coreEvents [e] ++ coreEvents ev := coreEvents_append [e] ev
    rw [hev, gives_append, List.reduceOption_append, ← ih, ← hhead]
    cases hv : voiceOf i e <;> simp [Engine.voice, hv]

/-- They promise no more. -/
theorem Closing.final (h : Closing ev) {c : Cqe} (hc : some c ∈ gives (coreEvents ev) i) :
    c.more = false := by
  obtain ⟨e, he, hof⟩ := List.mem_filterMap.mp hc
  cases e with
  | give j g =>
    simp only [giveOf, Option.ite_none_right_eq_some, Option.some.injEq] at hof
    obtain ⟨rfl, rfl⟩ := hof
    obtain ⟨e', he', hcore⟩ := List.mem_filterMap.mp he
    cases e' with
    | core e' =>
      cases hcore
      exact (h _ he').2 j c rfl
    | _ => cases hcore
  | _ => cases hof

end Events

section Core
variable {c c' : Core} {l : CoreLabel} {x : Slot} {res : Int32}

/-- The completion an op gives has the flags the op carries. -/
theorem closing_gives (hx : (c.ring.opPool x).cqeFlags &&& ioringCqeFMore = 0) (res : Int32) :
    Closing ((c.gives x res).map .core) := by
  intro e he
  obtain ⟨e', he', rfl⟩ := List.mem_map.mp he
  refine ⟨fun _ _ hq => (by cases hq), fun i q hq => ?_⟩
  unfold Core.gives Core.about at he'
  split at he'
  swap
  · cases he'
  obtain rfl := List.mem_singleton.mp he'
  simp only [PosixEvent.core.injEq, Event.give.injEq] at hq
  obtain ⟨-, hq⟩ := hq
  split at hq
  · cases hq
  · cases hq
    simp [Cqe.more, hx]

theorem closing_of_giveless {ev : List Event} (h : ∀ i q, .give i (some q) ∉ ev) :
    Closing (ev.map .core) := by
  intro e he
  obtain ⟨e', he', rfl⟩ := List.mem_map.mp he
  refine ⟨fun _ _ hq => (by cases hq), fun i q hq => ?_⟩
  cases hq
  exact absurd he' (h i q)

theorem closing_takes {t : Slot} (hx : (c.ring.opPool t).cqeFlags &&& ioringCqeFMore = 0) :
    Closing ((c.takes x t).map .core) := by
  unfold Core.takes
  split
  · rw [List.map_append]
    refine .append (closing_of_giveless fun j q he => ?_) (closing_gives hx _)
    unfold Core.about at he
    split at he
    · cases List.mem_singleton.mp he
    · cases he
  · exact closing_gives hx _

/-- In use, the op carries no F_MORE for its own CQE. -/
def Core.Final (c : Core) : Prop := c.ring.toVault.Live fun _ o => o.cqeFlags &&& ioringCqeFMore = 0

theorem Core.Final.silent {a : Chains} {free backlog queue batch : List Slot} (h : c.Final)
    (hr : Rep c a free backlog queue batch) (st : Stage) (hx : c.At (queue ++ batch) x st) :
    (c.ring.opPool x).cqeFlags &&& ioringCqeFMore = 0 := by
  obtain ⟨hf, hb, -⟩ := hr.placed.outside hx
  exact h.mem hr.placed.vault hf hb

/-- A step of the engine gives completions that promise no more. -/
theorem Core.Final.closing (h : c.Final) (hg : c.Sound) (hl : l.isEngine = true) :
    Closing ((c.events l).map .core) := by
  obtain ⟨a, free, backlog, queue, batch, -, hr⟩ := hg
  cases l with
  | takeSqe =>
    apply closing_of_giveless
    intro i q he
    simp only [Core.events] at he
    split at he
    · cases List.mem_singleton.mp he
    · cases he
  | queueStep target reads =>
    apply closing_of_giveless
    intro i q he
    simp only [Core.events, Core.queueEvents, Core.about] at he
    repeat' split at he
    all_goals simp at he
  | post reads =>
    simp only [Core.events]
    split
    · next f op res hpc =>
      exact closing_gives (h.silent hr (.posting res) (by simp [Core.At, hpc, Pc.posting])) res
    · exact closing_nil
  | complete reads =>
    simp only [Core.events]
    split
    · next f op res rest hpc =>
      exact closing_gives (h.silent hr (.returned res) (by simp [Core.At, hpc, Pc.done])) res
    · exact closing_nil
  | enter call | append | settle reads | check left | read k => exact closing_nil
  | _ => cases hl

/-- So does a cancel that takes an op from the backend, -/
theorem Core.Final.closing_held (h : c.Final) (hg : c.Sound) {t : Slot} (ht : c.hands t = .held)
    (reads : List ℕ) : Closing ((c.events (.cancelHeld t reads)).map .core) := by
  obtain ⟨a, free, backlog, queue, batch, -, hr⟩ := hg
  simp only [Core.events]
  split
  · exact closing_takes (h.silent hr .held ht)
  · exact closing_nil

/-- or from the queue. -/
theorem Core.Final.closing_queued (h : c.Final) (hg : c.Sound) {ptr : Link Slot}
    (hptr : ptr = .head ∨ ∃ x ∈ walk c.ring.next c.ring.opPoolN c.ring.queueHead, ptr = .nextOf x)
    (reads : List ℕ) : Closing ((c.events (.cancelQueued ptr reads)).map .core) := by
  obtain ⟨a, free, backlog, queue, batch, -, hr⟩ := hg
  simp only [Core.events]
  split
  · next hpc hread =>
    cases hr.placed.batch_nil (by simp [Pc.batchHead, hpc])
    obtain ⟨pre, suf, _, _, _, rfl, -⟩ := hr.placed.split_queue hptr hread
    exact closing_takes (h.silent hr .queued (by simp [Core.At]))
  · exact closing_nil

end Core

/-- The emission of an op the backend has. -/
def Core.Emits (c : Core) (ev : List PosixEvent) : Prop :=
  ∃ op i q, (c.hands op = .held ∨ c.pc.executing = some op) ∧ (c.ring.opPool op).seq = some i ∧
    ev = [.emits i q] ∧ q.more = true ∧ q.userData = (c.ring.opPool op).sqe.userData ∧
    (c.ring.opPool op).sqe.opcode.repeats = true

/-- What a step reports is an emission, or not, and closing events behind it. -/
def Core.Speaks (c : Core) (ev : List PosixEvent) : Prop :=
  ∃ ev₁ ev₂, ev = ev₁ ++ ev₂ ∧ (ev₁ = [] ∨ c.Emits ev₁) ∧ Closing ev₂

theorem speaks_closing {c : Core} {ev : List PosixEvent} (h : Closing ev) : c.Speaks ev :=
  ⟨[], ev, rfl, .inl rfl, h⟩

/-- What finishes an op or leaves it alone reports no completion. -/
theorem closing_leaves (c : Core) {l : CoreLabel} (hl : l.leaves = true) :
    Closing ((c.events l).map .core) := by
  apply closing_of_giveless
  intro i q he
  cases l with
  | execDone res | handBack op res =>
    simp only [Core.events, Core.about] at he
    repeat' split at he
    all_goals simp at he
  | execTake | execPending | waitReturn | waitFail => cases he
  | _ => cases hl

namespace Posix
variable {s s₀ : Posix} {wq : List Slot} {p : List PosixEvent × Posix} {l : CoreLabel} {b : BackPc}
  {op : Slot}

theorem closing_quiet (hs : s₀.quiet = some p) : Closing p.1 := by
  cases hs
  exact closing_nil

theorem closing_leaving (hs : s₀.inCore l b = some p) (hl : l.leaves = true) : Closing p.1 := by
  obtain ⟨c, -, hev, -⟩ := inCore_eq hs
  rw [hev]
  exact closing_leaves _ hl

theorem closing_taken {linked : Bool} {r : Ring}
    (hs : andThen (s₀.takeOp op linked r) (·.inCore .execPending .core) = some p) : Closing p.1 := by
  obtain ⟨q, u, hq, hu, rfl⟩ := andThen_eq hs
  exact (closing_leaving hq rfl).append (closing_leaving hu rfl)

theorem turn_emits (hop : s.core.hands op = .held ∨ s.core.pc.executing = some op) (a : OsAnswer)
    (reads : List ℕ) : (s.turn op a reads).1 = [] ∨ s.core.Emits (s.turn op a reads).1 := by
  unfold Posix.turn
  dsimp only
  split
  swap
  · exact .inl rfl
  next res flags hemits =>
  obtain ⟨hmulti, hmore⟩ := ((s.core.ring.opPool op).slipPosixTry_turn a).more _ hemits
  unfold about
  split
  · next i hi =>
    refine .inr ⟨op, i, _, hop, hi, rfl, ?_, rfl, repeats_of_multishot hmulti⟩
    simpa [Cqe.more] using hmore
  · exact .inl rfl

theorem speaks_turn (hop : s.core.hands op = .held ∨ s.core.pc.executing = some op) (a : OsAnswer)
    (reads : List ℕ) {u : List PosixEvent × Posix} (hu : Closing u.1) :
    s.core.Speaks ((s.turn op a reads).1 ++ u.1) :=
  ⟨_, _, rfl, turn_emits hop a reads, hu⟩

theorem execute_speaks {a : OsAnswer} {armed : Bool} {links : List (Slot × Option Slot)} {reads : List ℕ}
    (hs : s.execute a armed links reads = some p) : s.core.Speaks p.1 := by
  unfold Posix.execute at hs
  split at hs
  swap
  · cases hs
  next f op linked hpc =>
  split at hs
  · cases hs
  obtain ⟨q, u, hq, hu, rfl⟩ := andThen_eq hs
  cases hq
  apply speaks_turn (.inr (by rw [hpc]; rfl))
  split at hu
  · exact closing_quiet hu
  · exact closing_leaving hu rfl
  · dsimp only at hu
    split at hu
    · exact closing_taken hu
    · exact closing_leaving hu rfl
  · split at hu
    · exact closing_taken hu
    · exact closing_leaving hu rfl

theorem retry_speaks (h : s.Inv wq) {a : OsAnswer} {armed : Bool} {links : List (Slot × Option Slot)}
    {reads : List ℕ} (hs : s.retry a armed links reads = some p) : s.core.Speaks p.1 := by
  unfold Posix.retry at hs
  split at hs
  swap
  · cases hs
  next op ready hback =>
  obtain ⟨q, u, hq, hu, rfl⟩ := andThen_eq hs
  cases hq
  apply speaks_turn (h.has_of_tries (.inr (by simp [hback, BackPc.own])))
  split at hu
  · exact closing_quiet hu
  · exact closing_leaving hu rfl
  · exact closing_leaving hu rfl
  · dsimp only at hu
    split at hu
    · exact closing_quiet hu
    · exact closing_leaving hu rfl

namespace Inv

theorem final (h : s.Inv wq) : s.core.Final := h.live.imp fun _ _ hm => hm.1

theorem closing_cancel (h : s.Inv wq) (hg : s.core.Sound) {links : List (Slot × Option Slot)}
    {reads : List ℕ} (hs : s.cancelStep links reads = some p) : Closing p.1 := by
  have hfits := h.fits
  unfold Posix.cancelStep at hs
  split at hs
  · cases hs
  next c hc =>
  dsimp only at hs
  unfold Fits at hfits
  split at hs
  · split at hs
    · exact closing_quiet hs
    · cases hs
  · next i count hback =>
    split at hs
    · exact closing_quiet hs
    next t ht =>
    split at hs
    swap
    · exact closing_quiet hs
    have hmem : t ∈ s.core.ring.waiting := List.mem_of_getElem? ht
    obtain ⟨hk, hholds⟩ := h.unparks (b := .retrying t []) hg (by rw [hback]; rfl) hmem links rfl rfl
    obtain ⟨q, -, hev, -⟩ := inCore_eq hs
    have hfinal : (s.setRing (s.core.ring.unpark t links)).core.Final :=
      hholds.live.imp fun _ _ hm => hm.1
    rw [hev]
    apply hfinal.closing_held (hg.run (setRing_run hk))
    exact (h.held t).mpr (by simp [holders, hmem])
  · next ptr count hback =>
    rw [hback] at hfits
    obtain ⟨-, -, queue, hqueue, hptr⟩ := hfits
    split at hs
    · exact closing_quiet hs
    split at hs
    swap
    · exact closing_quiet hs
    obtain ⟨q, -, hev, -⟩ := inCore_eq hs
    rw [hev]
    apply h.final.closing_queued hg
    obtain ⟨queue', hq, hlen⟩ := hg.queue
    obtain rfl := threads_unique hqueue hq
    rw [walk_eq hq _ hlen]
    exact hptr
  · split at hs
    · cases hs
    · exact closing_quiet hs
    · exact closing_quiet hs
  · next ptr t count hback =>
    obtain ⟨q, -, hev, -⟩ := inCore_eq hs
    rw [hev]
    apply h.final.closing_held hg
    exact (h.held t).mpr (by simp [holders, hback, BackPc.own])
  · next count hback =>
    obtain ⟨q, u, hq, hu, rfl⟩ := andThen_eq hs
    cases hq
    refine .append (fun e he => ?_) (closing_leaving hu rfl)
    obtain rfl := List.mem_singleton.mp he
    exact ⟨fun _ _ hq => (by cases hq), fun _ _ hq => (by cases hq)⟩
  · cases hs

/-- What any step posts. -/
theorem speaks (h : s.Inv wq) (hg : s.core.Sound) {l : PosixLabel} (hs : s.out l = some p) :
    s.core.Speaks p.1 := by
  cases l with
  | tries a armed links reads =>
    simp only [Posix.out] at hs
    split at hs
    · exact execute_speaks hs
    · exact retry_speaks h hs
  | cancel links reads => exact speaks_closing (h.closing_cancel hg hs)
  | engine l =>
    simp only [Posix.out, Posix.engineStep] at hs
    split at hs
    swap
    · cases hs
    next hl =>
    obtain ⟨q, u, hq, hu, rfl⟩ := andThen_eq hs
    obtain ⟨c, -, hev, -⟩ := inCore_eq hq
    have hengine : Closing q.1 := by
      rw [hev]
      exact h.final.closing hg hl
    refine speaks_closing (hengine.append ?_)
    cases l with
    | settle reads =>
      dsimp only at hu
      split at hu
      · cases hu
        intro e he
        obtain rfl := List.mem_singleton.mp he
        exact ⟨fun _ _ hq => (by cases hq), fun _ _ hq => (by cases hq)⟩
      · exact closing_quiet hu
    | _ => exact closing_quiet hu
  | pending => exact speaks_closing (closing_leaving hs rfl)
  | wake reported ready =>
    simp only [Posix.out, Posix.wake] at hs
    repeat' split at hs
    all_goals first | exact speaks_closing (closing_quiet hs) | cases hs
  | drain =>
    simp only [Posix.out, Posix.drain] at hs
    split at hs
    swap
    · cases hs
    obtain ⟨⟨got, pipe⟩, -, hs⟩ := Option.bind_eq_some_iff.mp hs
    exact speaks_closing (closing_quiet hs)
  | ready links =>
    simp only [Posix.out, Posix.nextReady] at hs
    repeat' split at hs
    all_goals first | exact speaks_closing (closing_quiet hs) | cases hs
  | cameBack op res =>
    simp only [Posix.out, Posix.cameBack] at hs
    repeat' split at hs
    all_goals first | exact speaks_closing (closing_leaving hs rfl) | cases hs
  | back =>
    simp only [Posix.out, Posix.waitReturns] at hs
    repeat' split at hs
    all_goals first | exact speaks_closing (closing_leaving hs rfl) | cases hs
  | fail =>
    simp only [Posix.out] at hs
    split at hs
    · exact speaks_closing (closing_leaving hs rfl)
    · cases hs
  | workerTake =>
    simp only [Posix.out, Posix.workerTake] at hs
    split at hs
    · exact speaks_closing (closing_quiet hs)
    · cases hs
  | workerFinish res =>
    simp only [Posix.out, Posix.workerFinish] at hs
    split at hs
    swap
    · cases hs
    obtain ⟨q, u, hq, hu, rfl⟩ := andThen_eq hs
    obtain ⟨c, -, hev, -⟩ := inCore_eq hq
    refine speaks_closing (.append ?_ ?_)
    · rw [hev]
      apply closing_of_giveless
      intro i g he
      simp only [Core.events, Core.about] at he
      split at he
      all_goals simp at he
    · split at hu
      · cases hu
        intro e he
        obtain rfl := List.mem_singleton.mp he
        exact ⟨fun _ _ hq => (by cases hq), fun _ _ hq => (by cases hq)⟩
      · exact closing_quiet hu
  | workerPost reads =>
    simp only [Posix.out, Posix.workerPost] at hs
    split at hs
    swap
    · cases hs
    next op res hfin =>
    cases hs
    obtain ⟨a, free, backlog, queue, batch, -, hr⟩ := hg
    exact speaks_closing (closing_gives (h.final.silent hr (.off res) ((h.off op res).mpr hfin)) res)
  | workerPoke | senderPoke =>
    simp only [Posix.out] at hs
    split at hs
    swap
    · cases hs
    obtain ⟨pipe, -, hs⟩ := Option.bind_eq_some_iff.mp hs
    exact speaks_closing (closing_quiet hs)
  | senderEmit u res reads => exact speaks_closing (closing_quiet hs)
  | interrupted worker =>
    simp only [Posix.out] at hs
    repeat' split at hs
    all_goals first | exact speaks_closing (closing_quiet hs) | cases hs
  | table l => exact speaks_closing (closing_quiet hs)

end Inv

end Posix

/-! ### Runs -/

/-- The op is with the backend, or on its way from it to its completion. -/
def Core.UnderWay (c : Core) (x : Slot) : Prop :=
  c.has x ∨ ∃ res, c.pc.posting = some (x, res) ∨ (x, res) ∈ c.pc.done

/-- How an op speaks: some CQEs with F_MORE, if it is one that repeats, and then its completion, which has
none. The op is under way exactly until it has given that. -/
structure OneVoice (tr : List PosixEvent) (c : Core) (i : ℕ) (sqe : Sqe) : Prop where
  shape : ∃ ms, voice tr i = ms ++ (gives (coreEvents tr) i).reduceOption ∧
    ∀ c ∈ ms, c.more = true ∧ sqe.opcode.repeats = true
  last : (gives (coreEvents tr) i).length ≤ 1 ∧ ∀ c, some c ∈ gives (coreEvents tr) i → c.more = false
  own : ∀ c ∈ voice tr i, c.userData = sqe.userData
  gone : gives (coreEvents tr) i ≠ [] → ∀ x, c.UnderWay x → (c.ring.opPool x).seq ≠ some i
  kept : .start i ∈ coreEvents tr → gives (coreEvents tr) i = [] →
    ∃ x, c.UnderWay x ∧ (c.ring.opPool x).seq = some i

section Runs
variable {C : Chains → Act → Prop} {tr : List Event} {a : Chains} {i : ℕ}

/-- What was started is past the queue. -/
theorem History.started (h : History C tr a) :
    ∀ i, .start i ∈ tr → a.stage i ≠ .unborn ∧ a.stage i ≠ .queued := by
  refine h.invariant (fun tr a => ∀ i, .start i ∈ tr → a.stage i ≠ .unborn ∧ a.stage i ≠ .queued)
    (fun _ he => absurd he List.not_mem_nil) ?_
  rintro tr a ev a' hist hstarted ⟨act, -, hs⟩ i hi
  obtain ⟨hw, -⟩ := History.accounts hist
  have hunborn := (hw.born a.n).mpr le_rfl
  rcases List.mem_append.mp hi with hi | hi
  · have hold := hstarted i hi
    cases hs with
    | accept sqe =>
      have hne : i ≠ a.n := by
        rintro rfl
        exact hold.1 hunborn
      show (if i = a.n then Stage.queued else a.stage i) ≠ _ ∧ (if i = a.n then Stage.queued else a.stage i) ≠ _
      rw [if_neg hne]
      exact hold
    | pend | settle => exact hold
    | _ =>
      simp only [Chains.setStage]
      split
      · constructor <;> rintro ⟨⟩
      · exact hold
  · cases hs <;> simp at hi <;> subst hi <;> simp [Chains.setStage]

/-- Until its completion is given, a started op is under way. -/
theorem History.under_way (h : History C tr a) {s : Core} {free backlog queue batch : List Slot}
    (hr : Rep s a free backlog queue batch) :
    (gives tr i ≠ [] → ∀ x, s.UnderWay x → (s.ring.opPool x).seq ≠ some i) ∧
      (.start i ∈ tr → gives tr i = [] → ∃ x, s.UnderWay x ∧ (s.ring.opPool x).seq = some i) := by
  obtain ⟨hw, hacc, -⟩ := History.accounts h
  have hai := hacc i
  constructor
  · intro hg x hx hi
    have hat : ∃ st, s.At (queue ++ batch) x st := by
      obtain hx | ⟨res, hp | hd⟩ := hx
      · exact has_at hx
      · exact ⟨.posting res, hp⟩
      · exact ⟨.returned res, hd⟩
    obtain ⟨st, hst⟩ := hat
    obtain ⟨j, hj, hstage, -⟩ := hr.placed.tracks.owner x st hst
    obtain rfl := Option.some.inj (hj.symm.trans hi)
    rw [hstage] at hai
    cases st with
    | closed | unborn => exact hst.elim
    | _ => exact hg hai.2
  · intro hstart hg
    obtain ⟨hborn, hqueued⟩ := History.started h i hstart
    have hclosed : a.stage i ≠ .closed := by
      intro hc
      rw [hc] at hai
      obtain ⟨r, g, -, hg', -⟩ := hai
      rw [hg] at hg'
      cases hg'
    obtain ⟨x, hx, hi⟩ := hr.placed.tracks.slot i (by
      cases hst : a.stage i <;> first | rfl | (exact absurd hst hborn) | exact absurd hst hclosed)
    refine ⟨x, ?_, hi⟩
    cases hst : a.stage i with
    | unborn => exact absurd hst hborn
    | queued => exact absurd hst hqueued
    | closed => exact absurd hst hclosed
    | running =>
      rw [hst] at hx
      exact .inl (.inr hx)
    | held =>
      rw [hst] at hx
      exact .inl (.inl (by rw [show s.hands x = .held from hx]; rintro ⟨⟩))
    | off res =>
      rw [hst] at hx
      exact .inl (.inl (by rw [show s.hands x = .off res from hx]; rintro ⟨⟩))
    | posting res =>
      rw [hst] at hx
      exact .inr ⟨res, .inl hx⟩
    | returned res =>
      rw [hst] at hx
      exact .inr ⟨res, .inr hx⟩

end Runs

section Voices
variable {tr ev : List PosixEvent} {c : Core} {i : ℕ} {sqe : Sqe}

/-- What is posted for `i` so far: emissions of an accepted op that repeats, then the completion given. -/
def Voiced (tr : List PosixEvent) (i : ℕ) : Prop :=
  (∃ ms, voice tr i = ms ++ (gives (coreEvents tr) i).reduceOption ∧ ∀ c ∈ ms, c.more = true ∧
    ∃ sqe, .accept i sqe ∈ coreEvents tr ∧ c.userData = sqe.userData ∧ sqe.opcode.repeats = true) ∧
  ∀ c, some c ∈ gives (coreEvents tr) i → c.more = false

theorem Voiced.closes (h : Voiced tr i) (hev : Closing ev) : Voiced (tr ++ ev) i := by
  obtain ⟨⟨ms, hvoice, hms⟩, hfinal⟩ := h
  refine ⟨⟨ms, ?_, fun c hc => ?_⟩, fun c hc => ?_⟩
  · rw [voice_append, coreEvents_append, gives_append, List.reduceOption_append, hvoice, hev.voice,
      List.append_assoc]
  · obtain ⟨hmore, sqe, haccept, hown⟩ := hms c hc
    exact ⟨hmore, sqe, by rw [coreEvents_append]; exact List.mem_append_left _ haccept, hown⟩
  · rw [coreEvents_append, gives_append] at hc
    exact (List.mem_append.mp hc).elim (hfinal c) hev.final

/-- An op the backend has has not given its completion: it may emit. -/
theorem Voiced.emits (h : Voiced tr i) {C : Chains → Act → Prop} {a : Chains}
    {free backlog queue batch : List Slot} (hist : History C (coreEvents tr) a)
    (hr : Rep c a free backlog queue batch) (hev : c.Emits ev) : Voiced (tr ++ ev) i := by
  obtain ⟨op, j, q, hop, hj, rfl, hmore, hown, hrepeats⟩ := hev
  obtain ⟨⟨ms, hvoice, hms⟩, hfinal⟩ := h
  have hcore : coreEvents (tr ++ [.emits j q]) = coreEvents tr := by
    rw [coreEvents_append]
    exact List.append_nil _
  unfold Voiced
  rw [hcore, voice_append, hvoice]
  refine ⟨?_, hfinal⟩
  by_cases hij : j = i
  · subst hij
    obtain ⟨hw, hacc, haccept⟩ := History.accounts hist
    have haj := hacc j
    obtain ⟨st, hst, hgives⟩ : ∃ st, c.At (queue ++ batch) op st ∧ (st = .held ∨ st = .running) := by
      obtain hh | hx := hop
      · exact ⟨.held, hh, .inl rfl⟩
      · exact ⟨.running, hx, .inr rfl⟩
    obtain ⟨k, hk, hstage, hcopy⟩ := hr.placed.tracks.owner op st hst
    obtain rfl := Option.some.inj (hk.symm.trans hj)
    have hnone : gives (coreEvents tr) k = [] := by
      obtain rfl | rfl := hgives <;> rw [hstage] at haj <;> exact haj.2
    have hlt : k < a.n := by
      by_contra hn
      have hunborn := hstage.symm.trans ((hw.born k).mpr (not_lt.mp hn))
      obtain rfl | rfl := hgives <;> cases hunborn
    refine ⟨ms ++ [q], ?_, fun q' hq' => ?_⟩
    · simp [hnone, voice, voiceOf]
    · rcases List.mem_append.mp hq' with hq' | hq'
      · exact hms q' hq'
      · obtain rfl := List.mem_singleton.mp hq'
        exact ⟨hmore, a.sqe k, (haccept k _).mpr ⟨hlt, rfl⟩, by rw [hown, hcopy.userData],
          by rw [← hcopy.opcode, hrepeats]⟩
  · refine ⟨ms, ?_, hms⟩
    simp [voice, voiceOf, hij]

/-- What is voiced so far is one voice. -/
theorem Voiced.oneVoice {n : ℕ} {e : UInt32} (hvoiced : Voiced tr i)
    (hcore : Run coreMachine Keeps (setupCore n e) (coreEvents tr) c)
    (hi : .accept i sqe ∈ coreEvents tr) : OneVoice tr c i sqe := by
  obtain ⟨a, free, backlog, queue, batch, -, hist, hrep, -⟩ :=
    core_run_refines (C := fun _ _ => True) (fun _ _ h => h) (fun _ _ _ _ _ _ _ _ _ _ _ _ => trivial) hcore
  obtain ⟨hw, hacc, haccept⟩ := History.accounts hist
  obtain ⟨hlt, hsqe⟩ := (haccept i sqe).mp hi
  obtain ⟨⟨ms, hvoice, hms⟩, hfinal⟩ := hvoiced
  obtain ⟨hgone, hkept⟩ := History.under_way (i := i) hist hrep
  have hown {c : Cqe} (hc : c ∈ ms) : c.more = true ∧ c.userData = sqe.userData ∧
      sqe.opcode.repeats = true := by
    obtain ⟨hmore, sqe', ha, hrest⟩ := hms c hc
    obtain ⟨-, hsqe'⟩ := (haccept i sqe').mp ha
    obtain rfl := hsqe.symm.trans hsqe'
    exact ⟨hmore, hrest⟩
  refine ⟨⟨ms, hvoice, fun c hc => ⟨(hown hc).1, (hown hc).2.2⟩⟩, ⟨?_, hfinal⟩, fun c hc => ?_, hgone, hkept⟩
  · have hai := hacc i
    cases hst : a.stage i with
    | closed =>
      rw [hst] at hai
      obtain ⟨r, g, -, hg, -⟩ := hai
      rw [hg]
      exact le_rfl
    | _ =>
      rw [hst] at hai
      simp [hai.2]
  · rw [hvoice] at hc
    rcases List.mem_append.mp hc with hc | hc
    · exact (hown hc).2.1
    · have hmem : some c ∈ gives (coreEvents tr) i := List.reduceOption_mem_iff.mp hc
      have hai := hacc i
      cases hst : a.stage i with
      | closed =>
        rw [hst] at hai
        obtain ⟨r, g, -, hg, hcompl⟩ := hai
        rw [hg, List.mem_singleton] at hmem
        subst hmem
        cases r with
        | none => cases hcompl
        | some res =>
          have hcompl : a.Completion i res (some c) := hcompl
          unfold Chains.Completion at hcompl
          split at hcompl
          · cases hcompl
          · obtain ⟨flags, hc⟩ := hcompl
            cases hc
            rw [hsqe]
      | _ =>
        rw [hst] at hai
        simp [hai.2] at hmem

/-- A backend over which the engine runs, and whose steps speak, gives each op one voice. -/
theorem oneVoice_run {σ Λ : Type*} {M : Machine σ Λ PosixEvent} {C : σ → Λ → Prop} {s₀ s : σ} {n : ℕ}
    {e : UInt32} (core : σ → Core)
    (hcore : ∀ tr s, Run M C s₀ tr s → Run coreMachine Keeps (setupCore n e) (coreEvents tr) (core s))
    (hspeaks : ∀ tr s l s', Run M C s₀ tr s → C s l → M.step s l = some s' →
      (core s).Speaks (M.events s l))
    (hr : Run M C s₀ tr s) (hi : .accept i sqe ∈ coreEvents tr) : OneVoice tr (core s) i sqe := by
  suffices hvoiced : Voiced tr i from hvoiced.oneVoice (hcore tr s hr) hi
  refine hr.invariant (fun tr _ => Voiced tr i) ⟨⟨[], rfl, by simp⟩, by simp⟩ ?_
  intro tr s l s' hr h hc hs
  obtain ⟨a, free, backlog, queue, batch, -, hist, hrep, -⟩ :=
    core_run_refines (C := fun _ _ => True) (fun _ _ h => h) (fun _ _ _ _ _ _ _ _ _ _ _ _ => trivial)
      (hcore tr s hr)
  obtain ⟨ev, u, hp, hev, hu⟩ := hspeaks tr s l s' hr hc hs
  rw [hp, ← List.append_assoc]
  obtain rfl | hev := hev
  · rw [List.append_nil]
    exact h.closes hu
  · exact (h.emits hist hrep hev).closes hu

end Voices

/-- In every run of the backend each op speaks in one shape: what it emits has F_MORE, its one completion
has not and comes last, and it is under way for as long as that is to come. -/
theorem multishot_speaks_in_one_shape {n : ℕ} {e : UInt32} {b : Bool} {k : ℕ} {hk : 0 < k}
    {tr : List PosixEvent} {s : Posix} {i : ℕ} {sqe : Sqe}
    (hr : Run posixMachine Posix.Spares (setupPosix n e b k hk) tr s)
    (hi : .accept i sqe ∈ coreEvents tr) : OneVoice tr s.core i sqe := by
  refine oneVoice_run Posix.core (fun tr s hr => (posix_refines hr).1) ?_ hr hi
  intro tr s l s' hr hspares hs
  obtain ⟨hcore, wq, hinv⟩ := posix_refines hr
  exact hinv.speaks ((setupPosix_sound n e b k hk).run hcore) (Posix.step_out hs)

/-- A multishot accept takes one connection, parks, takes another when it is woken, and fails. -/
theorem multishot_speaks_in_one_shape_accept : ∃ tr s,
    Run posixMachine Posix.Spares (setupPosix 2 4 false 1 Nat.one_pos) tr s ∧
      (voice tr 0).map Cqe.more = [true, true, false] ∧ (voice tr 0).map Cqe.res = [5, 6, -9] ∧
      OneVoice tr s.core 0 { opcode := .accept, ioprio := 1, userData := 7 } := by
  obtain ⟨tr, s, hr, hmore, hres, haccept⟩ := Run.of_exec posixMachine Posix.Spares
    (setupPosix 2 4 false 1 Nat.one_pos)
    (fun tr _ => (voice tr 0).map Cqe.more = [true, true, false] ∧
      (voice tr 0).map Cqe.res = [5, 6, -9] ∧
      .accept 0 { opcode := .accept, ioprio := 1, userData := 7 } ∈ coreEvents tr)
    [.engine (.enter { minComplete := 2, getevents := true, entries := [
        some { opcode := .accept, ioprio := 1, userData := 7 }] }),
      .engine .takeSqe, .engine .append, .engine (.queueStep .own []), .tries (.got 5 0 0) true [] [],
      .tries .again true [] [], .engine (.queueStep .own []), .engine (.settle []), .engine (.check 0),
      .wake false [0], .ready [], .tries (.got 6 0 0) true [] [], .tries (.failed 9) true [] [], .back,
      .engine (.complete [])] (by decide +kernel)
  exact ⟨tr, s, hr, hmore, hres, multishot_speaks_in_one_shape hr haccept⟩

end SlipstreamIO.Engine
