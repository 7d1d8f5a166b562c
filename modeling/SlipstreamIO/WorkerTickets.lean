import SlipstreamIO.PosixSteps

/-! The ticket of a linked op on the worker: it goes up once, over no other, and is settled for the very
SQE whose result it tells, whoever has the slot by then. -/
namespace SlipstreamIO.Engine

open ThreadedList Runs

/-- How a member of a chain that ends with `res` leaves the rest of it. -/
def ticketVerdict (sqe : Sqe) (res : Int32) : ChainFailed :=
  if res < 0 then if sqe.flags.cqeSkipSuccess then .cancelsQuietly else .cancels else .holds

/-- What an event makes of the ticket that is up: `none` when a ticket goes up over another, or one is
settled that is not up. -/
def ticketStep (t : Option (ℕ × ChainFailed)) : PosixEvent → Option (Option (ℕ × ChainFailed))
  | .ticket i v =>
    match i, t with
    | some i, none => some (some (i, v))
    | _, _ => none
  | .settles i v =>
    match i, t with
    | some i, some up => if up = (i, v) then some none else none
    | _, _ => none
  | _ => some t

/-- The ticket that is up after these events, if no ticket was lost or settled for another op. -/
def ticketAfter (tr : List PosixEvent) : Option (Option (ℕ × ChainFailed)) := tr.foldlM ticketStep none

theorem ticketAfter_append (tr ev : List PosixEvent) :
    ticketAfter (tr ++ ev) = (ticketAfter tr).bind fun t => ev.foldlM ticketStep t :=
  List.foldlM_append

/-- The tickets settled for SQE `i`. -/
def settledFor (tr : List PosixEvent) (i : ℕ) : ℕ := tr.countP fun e => match e with
  | .settles j _ => j = some i
  | _ => false

/-- No ticket goes up and none is settled. -/
def Ticketless (ev : List PosixEvent) : Prop := ∀ e ∈ ev, ∀ i v, e ≠ .ticket i v ∧ e ≠ .settles i v

theorem Ticketless.after {tr ev : List PosixEvent} (h : Ticketless ev) :
    ticketAfter (tr ++ ev) = ticketAfter tr := by
  rw [ticketAfter_append]
  cases ticketAfter tr with
  | none => rfl
  | some t =>
    show ev.foldlM ticketStep t = some t
    induction ev with
    | nil => rfl
    | cons e ev ih =>
      have hstep : ticketStep t e = some t := by
        cases e with
        | ticket i v => exact absurd rfl (h _ List.mem_cons_self i v).1
        | settles i v => exact absurd rfl (h _ List.mem_cons_self i v).2
        | _ => rfl
      rw [List.foldlM_cons, hstep]
      exact ih fun e he => h e (List.mem_cons_of_mem _ he)

theorem Ticketless.settledFor {ev : List PosixEvent} (h : Ticketless ev) (i : ℕ) :
    settledFor ev i = 0 := by
  rw [Engine.settledFor, List.countP_eq_zero]
  intro e he
  cases e with
  | settles j v => exact absurd rfl (h _ he j v).2
  | _ => simp

theorem ticketless_core (ev : List Event) : Ticketless (ev.map .core) := by
  intro e he i v
  obtain ⟨x, -, rfl⟩ := List.mem_map.mp he
  exact ⟨nofun, nofun⟩

theorem Ticketless.append {ev ev' : List PosixEvent} (h : Ticketless ev) (h' : Ticketless ev') :
    Ticketless (ev ++ ev') :=
  fun e he => (List.mem_append.mp he).elim (h e) (h' e)

/-! ### The abstract ring -/

namespace Chains

/-- The pending op is in a chain that holds, and so is the op that runs if it is no cancel. -/
structure Calm (a : Chains) : Prop where
  waits : a.blocking ≠ none → a.failed = .holds
  runs : ∀ i, a.stage i = .running → (a.sqe i).opcode.cancels = false → a.failed = .holds

/-- Cancels take ops and are not held themselves. -/
def ByCancels (a : Chains) : Act → Prop
  | .takeHeld _ _ _ _ | .takeQueued _ _ _ _ => ∀ c, a.current = some c → (a.sqe c).opcode.cancels = true
  | .hold => ∀ i, a.current = some i → (a.sqe i).opcode.cancels = false
  | _ => True

theorem calm_empty : Calm {} := ⟨fun h => absurd rfl h, nofun⟩

end Chains

section Acts
variable {a a' : Chains} {act : Act} {ev : List Event}

/-- What runs is in hand. -/
theorem Chains.WellFormed.none_runs (hw : a.WellFormed) (hc : a.current = none) (i : ℕ) :
    a.stage i ≠ .running := by
  intro hi
  have hcur := (hw.running i hi).1
  rw [hc] at hcur
  cases hcur

/-- An op that leaves its stage for one that is not running: the others run as they did. -/
theorem Chains.runs_of_moved {i j : ℕ} {st : Stage} (hst : st ≠ .running)
    (hj : (if j = i then st else a.stage j) = .running) : j ≠ i ∧ a.stage j = .running := by
  split at hj
  · exact absurd hj hst
  · next hne => exact ⟨hne, hj⟩

theorem Act.Step.calm (hw : a.WellFormed) (h : a.Calm) (hb : a.ByCancels act)
    (hs : act.Step a ev a') : a'.Calm := by
  cases hs with
  | accept sqe =>
    refine ⟨h.waits, fun i hi hc => ?_⟩
    dsimp only at hi hc ⊢
    obtain ⟨hne, hi⟩ := Chains.runs_of_moved (by nofun) hi
    rw [if_neg hne] at hc
    exact h.runs i hi hc
  | cancelLoud hc hbl _ _ | cancelQuiet hc hbl _ _ | fail hc hbl _ _ _ | message hc hbl _ _ _ =>
    refine ⟨fun hne => absurd hbl hne, fun i hi _ => ?_⟩
    exact absurd (Chains.runs_of_moved (by nofun) hi).2 (hw.none_runs hc i)
  | begin hc hbl hq hf => exact ⟨fun _ => hf, fun _ _ _ => hf⟩
  | @answer i res hc hr =>
    refine ⟨fun hne => absurd (hw.running i hr).2 hne, fun j hj _ => ?_⟩
    obtain ⟨hne, hj⟩ := Chains.runs_of_moved (by nofun) hj
    cases hc.symm.trans (hw.running j hj).1
    exact absurd rfl hne
  | post hc _ _ | handBack hc _ | offPost _ _ | finish _ =>
    refine ⟨h.waits, fun j hj hcode => ?_⟩
    exact h.runs j (Chains.runs_of_moved (by nofun) hj).2 hcode
  | @hold i hc hr =>
    refine ⟨fun hne => ?_, fun j hj hcode => ?_⟩
    · exact h.runs i hr (hb i hc)
    · exact h.runs j (Chains.runs_of_moved (by nofun) hj).2 hcode
  | pend hc _ _ => exact ⟨h.waits, h.runs⟩
  | @complete i res g hc hr _ =>
    refine ⟨fun hne => ?_, fun j hj _ => ?_⟩
    · dsimp only at hne ⊢
      by_cases hi : a.blocking = some i
      · rw [if_pos hi] at hne
        exact absurd rfl hne
      · rw [if_neg hi] at hne ⊢
        have hlink : a.linked i = false := by
          rw [← Bool.not_eq_true]
          exact fun hl => hi (hw.returned i res hr hl)
        rw [Chains.failedAfter, hlink, if_neg (by simp)]
        exact h.waits hne
    · exact absurd (Chains.runs_of_moved (by nofun) hj).2 (hw.none_runs hc j)
  | settle hc _ _ =>
    refine ⟨fun hne => absurd rfl hne, fun j hj _ => ?_⟩
    exact absurd hj (hw.none_runs hc j)
  | @takeHeld c t g sc st hc hr _ _ | @takeQueued c t _ _ g sc st hc hr _ _ =>
    have hnone := (hw.running c hr).2
    refine ⟨fun hne => absurd (by simp [hnone, Chains.setStage]) hne, fun j hj hcode => ?_⟩
    · have hj := (Chains.runs_of_moved (by nofun) hj).2
      cases hc.symm.trans (hw.running j hj).1
      cases (hb c hc).symm.trans hcode

/-- Only an op that is held makes the ring wait; nothing else but a ticket's way up or its settling changes
it. -/
theorem Act.Step.tickets (hh : act ≠ .hold) (hs : act ≠ .settle) (hf : ∀ i res, act ≠ .finish i res)
    (h : act.Step a ev a') :
    a'.ticket = a.ticket ∧ (a'.blocking ≠ none → a'.blocking = a.blocking) := by
  cases h with
  | hold => exact absurd rfl hh
  | settle => exact absurd rfl hs
  | finish => exact absurd rfl (hf _ _)
  | complete | takeHeld =>
    refine ⟨rfl, fun hne => ?_⟩
    dsimp only at hne ⊢
    split at hne
    · exact absurd rfl hne
    · next hno => exact if_neg hno
  | _ => exact ⟨rfl, fun _ => rfl⟩

end Acts

/-! ### The core -/

/-- The label is about a ticket, or may make the queue wait. -/
def CoreLabel.tickets : CoreLabel → Bool
  | .execTake | .settle _ | .offFinish _ _ _ => true
  | _ => false

/-- A step of the contract that is about no ticket. -/
def Plain (s : Core) (l : CoreLabel) : Prop := Keeps s l ∧ l.tickets = false

/-- The ring tells what the abstract ring does, and its chains are calm. -/
structure Core.Follows (s : Core) (tr : List Event) (a : Chains) : Prop where
  history : History Chains.ByCancels tr a
  rep : ∃ free backlog queue batch, Rep s a free backlog queue batch
  calm : a.Calm

section Core
variable {s s' : Core} {l : CoreLabel} {a a' : Chains} {act : Act} {tr ev : List Event} {x : Slot}

theorem Core.Follows.wellFormed (h : s.Follows tr a) : a.WellFormed := h.history.accounts.1

theorem Core.Follows.sound (h : s.Follows tr a) : s.Sound := by
  obtain ⟨free, backlog, queue, batch, hrep⟩ := h.rep
  exact ⟨a, free, backlog, queue, batch, h.wellFormed, hrep⟩

/-- The op inside execute is the current one. -/
theorem Core.Follows.executing (h : s.Follows tr a) (hx : s.pc.executing = some x) :
    ∃ i, (s.ring.opPool x).seq = some i ∧ a.current = some i ∧
      Copies (s.ring.opPool x).sqe (a.sqe i) := by
  obtain ⟨free, backlog, queue, batch, hrep⟩ := h.rep
  unfold Pc.executing at hx
  split at hx
  · next f op linked hpc =>
    cases hx
    obtain ⟨i, -, hi, -, hcur, -, hcopy⟩ := hrep.executing h.wellFormed hpc
    exact ⟨i, hi, hcur, hcopy⟩
  · cases hx

/-- What the contract and the labels say of the act. -/
theorem byCancels_of_matches (h : s.Follows tr a) (hk : Keeps s l)
    (htake : l = .execTake → ∀ x, s.pc.executing = some x →
      (s.ring.opPool x).sqe.opcode.cancels = false) (hs : s.step l = some s')
    (hm : Matches s a l act) : a.ByCancels act := by
  have hcancels (hc : s.cancelling) (c : ℕ) (hcur : a.current = some c) :
      (a.sqe c).opcode.cancels = true := by
    obtain ⟨x, hx, hcode⟩ := hc
    obtain ⟨i, -, hi, hcopy⟩ := h.executing hx
    cases hcur.symm.trans hi
    rwa [← hcopy.opcode]
  cases l with
  | cancelHeld t reads =>
    cases act with
    | takeHeld i g sc st => exact hcancels hk.2
    | _ => exact hm.elim
  | cancelQueued p reads =>
    cases act with
    | takeQueued i g sc st => exact hcancels hk.2
    | _ => exact hm.elim
  | execTake =>
    cases act with
    | hold =>
      simp only [Core.step, Core.execTake] at hs
      split at hs
      swap
      · cases hs
      next f x linked hpc =>
      have hx : s.pc.executing = some x := by rw [hpc]; rfl
      obtain ⟨i, -, hi, hcopy⟩ := h.executing hx
      intro j hj
      cases hi.symm.trans hj
      rw [← hcopy.opcode]
      exact htake rfl x hx
    | _ => exact hm.elim
  | _ => cases act <;> trivial

/-- A step of the contract, and the abstract ring's. -/
theorem Core.Follows.step (h : s.Follows tr a) (hk : Keeps s l)
    (htake : l = .execTake → ∀ x, s.pc.executing = some x →
      (s.ring.opPool x).sqe.opcode.cancels = false) (hs : s.step l = some s') :
    ∃ a', s'.Follows (tr ++ s.events l) a' ∧
      ((s.events l = [] ∧ a' = a) ∨ ∃ act, Matches s a l act ∧ act.Step a (s.events l) a') := by
  obtain ⟨free, backlog, queue, batch, hrep⟩ := h.rep
  obtain ⟨a', free', backlog', queue', batch', _, hact, hrep', -⟩ :=
    core_step_simulated hrep h.wellFormed hk hs
  refine ⟨a', ?_, hact⟩
  obtain ⟨hev, rfl⟩ | ⟨act, hm, hstep⟩ := hact
  · rw [hev, List.append_nil]
    exact ⟨h.history, ⟨free', backlog', queue', batch', hrep'⟩, h.calm⟩
  · have hb := byCancels_of_matches h hk htake hs hm
    exact ⟨h.history.next ⟨act, hb, hstep⟩, ⟨free', backlog', queue', batch', hrep'⟩,
      hstep.calm h.wellFormed h.calm hb⟩

/-- Steps that are about no ticket leave the ticket, and end a wait at most. -/
theorem Core.Follows.plain (h : s.Follows tr a) (hr : Run coreMachine Plain s ev s') :
    ∃ a', s'.Follows (tr ++ ev) a' ∧ a'.ticket = a.ticket ∧
      (a'.blocking ≠ none → a'.blocking = a.blocking) := by
  induction hr with
  | start =>
    rw [List.append_nil]
    exact ⟨a, h, rfl, fun _ => rfl⟩
  | @next ev s₁ s₂ l hr hk hs ih =>
    obtain ⟨a₁, hf, hticket, hblocking⟩ := ih
    obtain ⟨hk, hplain⟩ := hk
    have htake : l = .execTake → ∀ x, s₁.pc.executing = some x →
        (s₁.ring.opPool x).sqe.opcode.cancels = false := by
      rintro rfl
      cases hplain
    obtain ⟨a₂, hf', hact⟩ := hf.step hk htake hs
    refine ⟨a₂, by rw [← List.append_assoc]; exact hf', ?_⟩
    obtain ⟨-, rfl⟩ | ⟨act, hm, hstep⟩ := hact
    · exact ⟨hticket, hblocking⟩
    · have hacts : act ≠ .hold ∧ act ≠ .settle ∧ ∀ i res, act ≠ .finish i res := by
        refine ⟨?_, ?_, fun i res => ?_⟩ <;> rintro rfl <;> cases l <;>
          first | exact hm.elim | cases hplain
      obtain ⟨ht, hb⟩ := hstep.tickets hacts.1 hacts.2.1 hacts.2.2
      refine ⟨ht.trans hticket, fun hne => ?_⟩
      have hb := hb hne
      rw [hb] at hne ⊢
      exact hblocking hne

/-- An op that is held and linked is the one the ring waits for, with no ticket up. -/
theorem Core.Follows.pending (h : s.Follows tr a) (hx : s.hands x = .held)
    (hl : s.ring.linked x = true) : s.waitingFor = some x ∧ a.ticket = none := by
  obtain ⟨free, backlog, queue, batch, hrep⟩ := h.rep
  have hw := h.wellFormed
  have hat : s.At (queue ++ batch) x .held := hx
  obtain ⟨i, hi, hstage, hcopy⟩ := hrep.placed.tracks.owner x .held hat
  rw [linked_eq hcopy] at hl
  have hblocking := hw.held i hstage hl
  refine ⟨(hrep.pending_iff hw hat hi (.inl rfl)).mpr hblocking, ?_⟩
  cases ht : a.ticket with
  | none => rfl
  | some t =>
    obtain ⟨hb, hoff⟩ := hw.ticket t.1 t.2 ht
    obtain rfl : i = t.1 := Option.some.inj (hblocking.symm.trans hb)
    rw [hstage] at hoff
    simp at hoff

end Core

/-! ### The backend -/

theorem mem_coreEvents {tr : List PosixEvent} {e : Event} : e ∈ coreEvents tr ↔ .core e ∈ tr := by
  unfold coreEvents
  rw [List.mem_filterMap]
  constructor
  · rintro ⟨x, hx, he⟩
    cases x <;> cases he
    exact hx
  · intro he
    exact ⟨_, he, rfl⟩

/-- The ticket is that of an accepted linked SQE, and says how its result ends the chain. -/
def Vouched (tr : List PosixEvent) (i : Option ℕ) (v : ChainFailed) : Prop :=
  ∃ j sqe res, i = some j ∧ .core (.accept j sqe) ∈ tr ∧ .core (.result j res) ∈ tr ∧
    sqe.flags.ioLink = true ∧ v = ticketVerdict sqe res

theorem Vouched.append {tr : List PosixEvent} {i : Option ℕ} {v : ChainFailed} (h : Vouched tr i v)
    (ev : List PosixEvent) : Vouched (tr ++ ev) i v := by
  obtain ⟨j, sqe, res, hi, hacc, hres, hl⟩ := h
  exact ⟨j, sqe, res, hi, List.mem_append_left _ hacc, List.mem_append_left _ hres, hl⟩

/-- The events tell the ticket of the abstract ring, and `blockSeq` whom it waits for. -/
structure Posix.Tells (s : Posix) (tr : List PosixEvent) (a : Chains) : Prop where
  follows : s.core.Follows (coreEvents tr) a
  ticket : ticketAfter tr = some a.ticket
  seq : a.blocking ≠ none → s.blockSeq = a.blocking
  settled : ∀ i, settledFor tr i + (if a.ticket.map Prod.fst = some i then 1 else 0) ≤
    (finishes (coreEvents tr) i).length
  vouched : ∀ i v, .ticket i v ∈ tr → Vouched tr i v

/-- The step is about no ticket. -/
structure Posix.Plainly (s : Posix) (p : List PosixEvent × Posix) : Prop where
  run : Run coreMachine Plain s.core (coreEvents p.1) p.2.core
  told : Ticketless p.1
  seq : p.2.blockSeq = s.blockSeq

section Posix
variable {s s' : Posix} {wq : List Slot} {p q : List PosixEvent × Posix} {tr : List PosixEvent}
  {a : Chains} {l : CoreLabel} {b : BackPc} {op : Slot} {r : Ring} {reads : List ℕ}

theorem settledFor_append (tr ev : List PosixEvent) (i : ℕ) :
    settledFor (tr ++ ev) i = settledFor tr i + settledFor ev i := List.countP_append

theorem ticketless_nil : Ticketless [] := fun _ he => absurd he List.not_mem_nil

theorem Writing.plain {c : Core} (h : Writing c l) : Plain c l := by
  refine ⟨h.keeps, ?_⟩
  cases l <;> first | rfl | exact h.elim

namespace Posix

theorem Tells.plainly (h : s.Tells tr a) (hp : s.Plainly p) : ∃ a', p.2.Tells (tr ++ p.1) a' := by
  obtain ⟨a', hf, hticket, hblocking⟩ := h.follows.plain hp.run
  refine ⟨a', by rw [coreEvents_append]; exact hf, ?_, fun hne => ?_, fun i => ?_, fun i v hi => ?_⟩
  · rw [hp.told.after, h.ticket, hticket]
  · rw [hp.seq, hblocking hne]
    rw [hblocking hne] at hne
    exact h.seq hne
  · rw [settledFor_append, hp.told.settledFor i, hticket, coreEvents_append, finishes_append,
      List.length_append]
    exact (h.settled i).trans (Nat.le_add_right _ _)
  · obtain hi | hi := List.mem_append.mp hi
    · exact (h.vouched i v hi).append p.1
    · exact absurd rfl (hp.told _ hi i v).1

/-- What stays outside the core and `blockSeq` does not matter. -/
theorem Tells.of_core (h : s.Tells tr a) (hc : s'.core = s.core) (hb : s'.blockSeq = s.blockSeq) :
    s'.Tells tr a :=
  ⟨hc ▸ h.follows, h.ticket, by rw [hb]; exact h.seq, h.settled, h.vouched⟩

theorem plainly_quiet (hs : s'.quiet = some p) (hc : s'.core = s.core)
    (hb : s'.blockSeq = s.blockSeq) : s.Plainly p := by
  cases hs
  exact ⟨by rw [hc]; exact .start, ticketless_nil, hb⟩

/-- A step of the core, from a state that differs outside it. -/
theorem plainly_inCore {s₀ : Posix} (hs : s₀.inCore l b = some p) (hc : s₀.core = s.core)
    (hb : s₀.blockSeq = s.blockSeq) (hk : Keeps s.core l) (hl : l.tickets = false) : s.Plainly p := by
  obtain ⟨c, hstep, hev, hp⟩ := inCore_eq hs
  rw [hc] at hstep hev
  refine ⟨?_, ?_, ?_⟩
  · rw [hev, coreEvents_core, hp]
    exact Run.start.next ⟨hk, hl⟩ hstep
  · rw [hev]
    exact ticketless_core _
  · rw [hp]
    exact hb

theorem Plainly.trans (h : s.Plainly q) (h' : q.2.Plainly p) : s.Plainly (q.1 ++ p.1, p.2) := by
  refine ⟨?_, h.told.append h'.told, h'.seq.trans h.seq⟩
  rw [coreEvents_append]
  exact h.run.append h'.run

theorem plainly_writing {ev : List PosixEvent} (hr : Run coreMachine Writing s.core (coreEvents ev) s'.core)
    (ht : Ticketless ev) (hb : s'.blockSeq = s.blockSeq) : s.Plainly (ev, s') :=
  ⟨hr.mono fun _ _ h => h.plain, ht, hb⟩

/-- After a write of the backend. -/
theorem plainly_written (hk : BackendWrites s.core r) (h : (s.setRing r).Plainly p) : s.Plainly p := by
  have hw : s.Plainly ([], s.setRing r) :=
    plainly_writing (setRing_writing hk) ticketless_nil rfl
  exact hw.trans h

theorem turn_ticketless (s : Posix) (op : Slot) (o : OsAnswer) (reads : List ℕ) :
    Ticketless (s.turn op o reads).1 := by
  intro e he i v
  unfold Posix.turn about at he
  dsimp only at he
  split at he
  · split at he
    · cases List.mem_singleton.mp he
      exact ⟨nofun, nofun⟩
    · exact absurd he List.not_mem_nil
  · exact absurd he List.not_mem_nil

theorem turn_plainly (hinv : s.Inv wq) (hg : s.core.Sound) (hop : Inv.Tries s op) (o : OsAnswer)
    (reads : List ℕ) : s.Plainly (s.turn op o reads) := by
  obtain ⟨r, hr, hrun, -⟩ := hinv.turn hg hop o reads
  refine ⟨?_, turn_ticketless s op o reads, ?_⟩
  · rw [hr]
    exact hrun.mono fun _ _ h => h.plain
  · rw [hr]
    rfl

theorem Inv.cancelStep_plainly (h : s.Inv wq) (hg : s.core.Sound) {links : List (Slot × Option Slot)}
    (hs : s.cancelStep links reads = some p) : s.Plainly p := by
  have hfits := h.fits
  unfold Posix.cancelStep at hs
  split at hs
  · cases hs
  next c hc =>
  dsimp only at hs
  unfold Fits at hfits
  split at hs
  · split at hs
    · exact plainly_quiet hs rfl rfl
    · cases hs
  · next i count hback =>
    rw [hback] at hfits
    split at hs
    · exact plainly_quiet hs rfl rfl
    · next t ht =>
      split at hs
      swap
      · exact plainly_quiet hs rfl rfl
      have hmem : t ∈ s.core.ring.waiting := List.mem_of_getElem? ht
      obtain ⟨hk, -⟩ := h.unparks (b := .retrying t []) hg (by rw [hback]; rfl) hmem links rfl rfl
      apply plainly_written hk
      refine plainly_inCore hs rfl rfl ⟨(h.held t).mpr (by simp [holders, hmem]), ?_⟩ rfl
      obtain ⟨x, hx, hcode⟩ := hfits.2.cancelling
      refine ⟨x, hx, ?_⟩
      rw [show (s.setRing (s.core.ring.unpark t links)).core.ring.opPool x =
        (s.core.ring.unpark t links).opPool x from rfl, hk.sqe]
      exact hcode
  · next ptr count hback =>
    rw [hback] at hfits
    obtain ⟨-, hsearched, queue, hqueue, hptr⟩ := hfits
    split at hs
    · exact plainly_quiet hs rfl rfl
    · split at hs
      swap
      · exact plainly_quiet hs rfl rfl
      refine plainly_inCore hs rfl rfl ⟨?_, hsearched.cancelling⟩ rfl
      obtain ⟨queue', hq, hlen⟩ := hg.queue
      obtain rfl := threads_unique hqueue hq
      rw [walk_eq hq _ hlen]
      exact hptr
  · next ptr count hback =>
    rw [hback] at hfits
    obtain ⟨-, pre, suf, rfl, rfl, -⟩ := hfits
    have hlen := h.wq_length_le hg
    rw [List.length_append] at hlen
    obtain ⟨hscan, -⟩ | ⟨mid, t, suf', rfl, hscan, -⟩ :=
      scanWq_spec (c := c) h.queues (s.core.ring.opPoolN + 1) (by omega)
    · rw [hscan] at hs
      exact plainly_quiet hs rfl rfl
    · rw [hscan] at hs
      have hwq : pre ++ (mid ++ t :: suf') = pre ++ mid ++ t :: suf' := by simp
      have hlink := (unlinkWq_spec (hwq ▸ h.queues) (by
        simp only [List.length_append, List.length_cons] at hlen ⊢
        omega)).1
      apply plainly_written
      · apply hlink.backend
        intro x hx
        refine .inl ((h.held x).mpr ?_)
        simp only [holders, List.mem_append] at hx ⊢
        tauto
      · exact plainly_quiet hs rfl rfl
  · next ptr t count hback =>
    rw [hback] at hfits
    obtain ⟨-, -, _, _, _, _, hsearched⟩ := hfits
    have hheld : s.core.hands t = .held := (h.held t).mpr (by simp [holders, hback, BackPc.own])
    exact plainly_inCore hs rfl rfl ⟨hheld, hsearched.cancelling⟩ rfl
  · obtain ⟨q, u, hq, hu, rfl⟩ := andThen_eq hs
    cases hq
    have hanswers (i : Option ℕ) (res : Int32) : s.Plainly ([.answers i res], s) := by
      refine ⟨.start, fun e he j v => ?_, rfl⟩
      cases List.mem_singleton.mp he
      constructor <;> rintro ⟨⟩
    exact (hanswers _ _).trans (plainly_inCore hu rfl rfl trivial rfl)
  · cases hs

theorem Inv.retry_plainly (h : s.Inv wq) (hg : s.core.Sound) {o : OsAnswer} {armed : Bool}
    {links : List (Slot × Option Slot)} (hs : s.retry o armed links reads = some p) : s.Plainly p := by
  unfold Posix.retry at hs
  split at hs
  swap
  · cases hs
  next op ready hback =>
  obtain ⟨q, u, hq, hu, rfl⟩ := andThen_eq hs
  cases hq
  have hop : Inv.Tries s op := .inr (by simp [hback, BackPc.own])
  apply (turn_plainly h hg hop o reads).trans
  obtain ⟨r, hr, -, hinv, -⟩ := h.turn hg hop o reads
  rw [hr] at hu ⊢
  have hheld : s.core.hands op = .held := (h.held op).mpr (by simp [holders, hback, BackPc.own])
  split at hu
  · exact plainly_quiet hu rfl rfl
  · exact plainly_inCore hu rfl rfl hheld rfl
  · exact plainly_inCore hu rfl rfl hheld rfl
  · dsimp only at hu
    split at hu
    · next r' hp => exact plainly_written (hinv.park_writes hop hp) (plainly_quiet hu rfl rfl)
    · next r' hp =>
      exact plainly_written (hinv.park_writes hop hp) (plainly_inCore hu rfl rfl hheld rfl)

/-- Every step but a settling, an execute and the end of the worker's blocking call. -/
theorem Inv.plainly (h : s.Inv wq) (hg : s.core.Sound) {l : PosixLabel}
    (hl : ∀ reads, l ≠ .engine (.settle reads))
    (hl' : ∀ o armed links reads, l = .tries o armed links reads → s.back ≠ .core)
    (hl'' : ∀ res, l ≠ .workerFinish res) (hs : s.out l = some p) : s.Plainly p := by
  cases l with
  | engine l =>
    simp only [Posix.out, Posix.engineStep] at hs
    split at hs
    swap
    · cases hs
    next hengine =>
    obtain ⟨q, u, hq, hu, rfl⟩ := andThen_eq hs
    have hk : Keeps s.core l ∧ l.tickets = false := by
      cases l <;> first | exact ⟨trivial, rfl⟩ | exact absurd rfl (hl _) | cases hengine
    apply (plainly_inCore hq rfl rfl hk.1 hk.2).trans
    cases l with
    | settle reads => exact absurd rfl (hl reads)
    | _ => exact plainly_quiet hu rfl rfl
  | tries o armed links reads =>
    simp only [Posix.out] at hs
    rw [if_neg (hl' o armed links reads rfl)] at hs
    exact h.retry_plainly hg hs
  | pending => exact plainly_inCore hs rfl rfl trivial rfl
  | cancel links reads => exact h.cancelStep_plainly hg hs
  | wake reported ready =>
    simp only [Posix.out, Posix.wake] at hs
    split at hs
    swap
    · cases hs
    split at hs
    · exact plainly_quiet hs rfl rfl
    · cases hs
  | drain =>
    simp only [Posix.out, Posix.drain] at hs
    split at hs
    swap
    · cases hs
    obtain ⟨⟨got, pipe⟩, -, hs⟩ := Option.bind_eq_some_iff.mp hs
    exact plainly_quiet hs rfl rfl
  | ready links =>
    have hfits := h.fits
    unfold Fits at hfits
    simp only [Posix.out, Posix.nextReady] at hs
    split at hs
    swap
    · cases hs
    next op ready hpc hback =>
    rw [hback] at hfits
    split at hs
    swap
    · cases hs
    have hop : op ∈ s.core.ring.waiting := hfits.2.2 op List.mem_cons_self
    obtain ⟨hk, -⟩ := h.unparks (b := .retrying op ready) hg (by rw [hback]; rfl) hop links rfl rfl
    exact plainly_written hk (plainly_quiet hs rfl rfl)
  | cameBack op res =>
    simp only [Posix.out, Posix.cameBack] at hs
    split at hs
    swap
    · cases hs
    split at hs
    swap
    · cases hs
    next haway =>
    have hheld : s.core.hands op = .held := (h.held op).mpr (by simp [holders, haway])
    exact plainly_inCore hs rfl rfl hheld rfl
  | back =>
    simp only [Posix.out, Posix.waitReturns] at hs
    split at hs
    swap
    · cases hs
    split at hs
    · exact plainly_inCore hs rfl rfl trivial rfl
    · cases hs
  | fail =>
    simp only [Posix.out] at hs
    split at hs
    · exact plainly_inCore hs rfl rfl trivial rfl
    · cases hs
  | workerTake =>
    simp only [Posix.out, Posix.workerTake] at hs
    split at hs
    swap
    · cases hs
    refine plainly_written ?_ (plainly_quiet hs rfl rfl)
    exact ⟨fun _ _ _ => rfl, fun _ => rfl, fun _ => rfl, rfl, rfl, rfl, rfl, rfl, rfl, rfl, rfl, rfl, rfl,
      rfl, rfl⟩
  | workerFinish res => exact absurd rfl (hl'' res)
  | workerPost reads =>
    simp only [Posix.out, Posix.workerPost] at hs
    split at hs <;> cases hs
    next op res hfin =>
    have hoff : s.core.hands op = .off res := (h.off op res).mpr hfin
    have hstep : s.core.step (.offPost op reads) = some { s.core.setHand op .none with
        ring := s.core.ring.inVault (·.slipEnginePost op res reads) } := by
      simp only [Core.step, Core.offPost, hoff]
    have hev : s.core.events (.offPost op reads) = s.core.gives op res := by
      simp only [Core.events, hoff]
    refine ⟨?_, ticketless_core _, rfl⟩
    rw [coreEvents_core, ← hev]
    exact Run.start.next (show Plain s.core (.offPost op reads) from ⟨trivial, rfl⟩) hstep
  | workerPoke =>
    simp only [Posix.out] at hs
    split at hs
    swap
    · cases hs
    obtain ⟨pipe, -, hs⟩ := Option.bind_eq_some_iff.mp hs
    exact plainly_quiet hs rfl rfl
  | senderEmit u res reads =>
    cases hs
    exact plainly_writing (emit_writing s.core u res 0 reads) ticketless_nil rfl
  | senderPoke =>
    simp only [Posix.out] at hs
    split at hs
    swap
    · cases hs
    obtain ⟨pipe, -, hs⟩ := Option.bind_eq_some_iff.mp hs
    exact plainly_quiet hs rfl rfl
  | interrupted worker =>
    simp only [Posix.out] at hs
    repeat' split at hs
    all_goals first | exact plainly_quiet hs rfl rfl | cases hs
  | table l => exact plainly_written (table_writes s.core l) (plainly_quiet hs rfl rfl)

/-- The op whose taking makes the ring wait is the one `blockSeq` is set for. -/
theorem Tells.take {f : Frame} {linked : Bool} (h : s.Tells tr a) (hpc : s.core.pc = .exec f op linked false)
    (hcode : (s.core.ring.opPool op).sqe.opcode.cancels = false) (hk : BackendWrites s.core r)
    (hs : s.takeOp op linked r = some p) : ∃ a', p.2.Tells (tr ++ p.1) a' := by
  have hwrite : s.Plainly ([], s.setRing r) := plainly_writing (setRing_writing hk) ticketless_nil rfl
  obtain ⟨a₁, h₁⟩ := h.plainly hwrite
  rw [List.append_nil] at h₁
  obtain ⟨c, hc, hev, hp⟩ := inCore_eq hs
  have hpc₁ : (s.setRing r).core.pc = .exec f op linked false := hpc
  obtain ⟨a', hf, hact⟩ := h₁.follows.step (l := .execTake) trivial (fun _ x hx => by
    rw [show (s.setRing r).core.ring.opPool x = r.opPool x from rfl, hk.sqe]
    rw [hpc₁] at hx
    cases hx
    exact hcode) hc
  rw [show (s.setRing r).core.events .execTake = [] from rfl, List.append_nil] at hf
  obtain ⟨_, _, _, _, hrep⟩ := h₁.follows.rep
  obtain ⟨hwait, -, hnone, -⟩ := hrep.in_execute h₁.follows.wellFormed hpc₁
  have hticket : a'.ticket = a₁.ticket := by
    obtain ⟨-, rfl⟩ | ⟨act, hm, hstep⟩ := hact
    · rfl
    · cases act with
      | hold =>
        cases hstep
        rfl
      | _ => exact hm.elim
  rw [show p.1 = [] from hev, List.append_nil, hp]
  refine ⟨a', hf, by rw [hticket]; exact h₁.ticket, fun hne => ?_, by rw [hticket]; exact h₁.settled,
    h₁.vouched⟩
  obtain ⟨i, hi⟩ := Option.ne_none_iff_exists'.mp hne
  obtain ⟨_, _, _, _, hrep'⟩ := hf.rep
  simp only [Core.step, Core.execTake, hpc₁] at hc
  cases hc
  have hsome := hrep'.governs.waiting
  rw [hi] at hsome
  cases linked with
  | false =>
    have hnot : (s.setRing r).core.ring.blocking = none := by
      simpa [Core.waitingFor, hpc₁] using hwait
    simp [Core.waitingFor, Core.setHand, hnot] at hsome
  | true =>
    have hlive := (hrep'.governs.pends op i rfl hi).live (hticket.trans hnone)
    rw [hi, ← hlive.2.1]
    exact (hk.seq op).symm

theorem Tells.settle (h : s.Tells tr a) (hs : s.engineStep (.settle reads) = some p) :
    ∃ a', p.2.Tells (tr ++ p.1) a' := by
  unfold engineStep at hs
  rw [if_pos (show (CoreLabel.settle reads).isEngine = true from rfl)] at hs
  obtain ⟨q, u, hq, hu, rfl⟩ := andThen_eq hs
  obtain ⟨c, hc, hev, hq2⟩ := inCore_eq hq
  obtain ⟨a', hf, hact⟩ := h.follows.step (l := .settle reads) trivial nofun hc
  rw [show s.core.events (.settle reads) = [] from rfl] at hf hact hev
  rw [List.append_nil] at hf
  obtain ⟨_, _, _, _, hrep⟩ := h.follows.rep
  obtain ⟨_, _, _, _, hrep'⟩ := hf.rep
  have hwaits : s.core.waitingFor = s.core.ring.blocking ∧ c.waitingFor = c.ring.blocking := by
    simp only [Core.step, Core.settle] at hc
    split at hc <;> cases hc
    next f hpc => exact ⟨by simp [Core.waitingFor, hpc], rfl⟩
  have hblocking := hrep.governs.waiting
  have hblocking' := hrep'.governs.waiting
  rw [hwaits.1] at hblocking
  rw [hwaits.2] at hblocking'
  rw [show q.1 = [] from hev, List.nil_append]
  dsimp only at hu
  rw [hq2] at hu
  obtain ⟨-, rfl⟩ | ⟨act, hm, hstep⟩ := hact
  · -- nothing is settled
    rw [if_neg] at hu
    · cases hu
      rw [List.append_nil]
      exact ⟨a', hf, h.ticket, h.seq, h.settled, h.vouched⟩
    · rintro ⟨hne, hnone⟩
      rw [show c.ring.blocking = none from hnone, ← hblocking] at hblocking'
      apply hne
      simpa using hblocking'.symm
  · cases act with
    | settle =>
      cases hstep with
      | @settle i v hcur ht hb =>
      rw [hb] at hblocking
      have hverdict : c.ring.chainFailed = v := by
        rw [hrep'.governs.failed]
        dsimp only
        split
        · next hv => rw [hv, h.follows.calm.waits (by simp [hb])]
        · rfl
      have hset : s.core.ring.blocking ≠ none := by
        intro hnone
        rw [hnone] at hblocking
        cases hblocking
      rw [if_pos ⟨hset, by simpa using hblocking'⟩] at hu
      cases hu
      have hseq : s.blockSeq = some i := (h.seq (by simp [hb])).trans hb
      dsimp only
      rw [hseq, hverdict]
      have hnone : coreEvents (tr ++ [.settles (some i) v]) = coreEvents tr := by simp [coreEvents]
      rw [← hnone] at hf
      refine ⟨_, hf, ?_, fun hne => absurd rfl hne, fun j => ?_, fun j w hj => ?_⟩
      · rw [ticketAfter_append, h.ticket, ht]
        simp [ticketStep]
      · have hsettled := h.settled j
        rw [ht] at hsettled
        rw [settledFor_append, hnone]
        by_cases hj : j = i
        · subst hj
          simp [settledFor] at hsettled ⊢
          omega
        · simp [settledFor, Ne.symm hj] at hsettled ⊢
          omega
      · obtain hj | hj := List.mem_append.mp hj
        · exact (h.vouched j w hj).append _
        · cases List.mem_singleton.mp hj
    | _ => exact hm.elim

/-- The ticket of a linked op goes up over no other, for the op whose result the worker has. -/
theorem Tells.finish (h : s.Tells tr a) (hinv : s.Inv wq) {res : Int32}
    (hs : s.workerFinish res = some p) : ∃ a', p.2.Tells (tr ++ p.1) a' := by
  unfold Posix.workerFinish at hs
  split at hs
  swap
  · cases hs
  next op hruns =>
  obtain ⟨q, u, hq, hu, rfl⟩ := andThen_eq hs
  have hheld : s.core.hands op = .held := (hinv.held op).mpr (by simp [holders, hruns, WorkerPc.runs])
  have hmarked := hinv.marked op (by simp [hruns, WorkerPc.runs])
  rw [hmarked] at hq hu
  obtain ⟨c, hc, hev, hq2⟩ := inCore_eq hq
  obtain ⟨_, _, _, _, hrep⟩ := h.follows.rep
  have hw := h.follows.wellFormed
  obtain ⟨i, hi, hstage, hcopy⟩ := hrep.placed.tracks.owner op .held hheld
  have hlink : s.core.ring.linked op = a.linked i := linked_eq hcopy
  have hresult : s.core.events (.offFinish op res (s.core.ring.linked op)) = [.result i res] := by
    simp only [Core.events, about_eq hi]
  obtain ⟨a', hf, hact⟩ := h.follows.step
    (show Keeps s.core (.offFinish op res (s.core.ring.linked op)) from ⟨hheld, rfl⟩) (by rintro ⟨⟩) hc
  rw [hresult] at hf hact
  rw [show q.1 = [.core (.result i res)] by rw [hev]; exact congrArg _ hresult]
  have hborn : i < a.n := by
    rw [← not_le, ← hw.born i, hstage]
    rintro ⟨⟩
  have haccept : .accept i (a.sqe i) ∈ coreEvents tr :=
    (h.follows.history.accounts.2.2 i (a.sqe i)).mpr ⟨hborn, rfl⟩
  obtain ⟨hnil, -⟩ | ⟨act, hm, hstep⟩ := hact
  · cases hnil
  cases act with
  | finish j res' =>
    cases hstep with
    | finish hst =>
    cases hl : a.linked i with
    | false =>
      rw [hlink, hl] at hu
      rw [hl, if_neg Bool.false_ne_true] at hf
      cases hu
      have hcore : coreEvents (tr ++ [.core (.result i res)]) = coreEvents tr ++ [.result i res] := by
        rw [coreEvents_append]
        rfl
      have htold : Ticketless [.core (.result i res)] := ticketless_core [.result i res]
      rw [List.append_nil, hq2]
      rw [← hcore] at hf
      refine ⟨_, hf, htold.after.trans h.ticket, h.seq, fun j => ?_, fun j v hj => ?_⟩
      · rw [settledFor_append, htold.settledFor, coreEvents_append, finishes_append, List.length_append]
        exact (h.settled j).trans (Nat.le_add_right _ _)
      · obtain hj | hj := List.mem_append.mp hj
        · exact (h.vouched j v hj).append _
        · exact absurd rfl (htold _ hj j v).1
    | true =>
      rw [hlink, hl] at hu
      rw [hl, if_pos rfl] at hf
      cases hu
      have hnone : a.ticket = none := (h.follows.pending hheld (hlink.trans hl)).2
      have hup : q.2.core.ring.blockedFailed = if res < 0 then a.verdict i else .holds := by
        rw [hq2]
        rw [hlink, hl] at hc
        cases hc
        show (if res < 0 then slipChainFailureOf (s.core.ring.opPool op) else .holds) = _
        rw [verdict_eq hcopy]
      have hseq : (q.2.core.ring.opPool op).seq = some i := by
        rw [hq2]
        rw [hlink, hl] at hc
        cases hc
        exact hi
      rw [hup, hseq, hq2]
      have hcore (v : ChainFailed) :
          coreEvents (tr ++ ([.core (.result i res)] ++ [.ticket (some i) v])) =
            coreEvents tr ++ [.result i res] := by simp [coreEvents]
      generalize hv : (if res < 0 then a.verdict i else ChainFailed.holds) = v at hf ⊢
      rw [← hcore v] at hf
      refine ⟨_, hf, ?_, h.seq, fun j => ?_, fun j w hj => ?_⟩
      · rw [ticketAfter_append, h.ticket, hnone]
        rfl
      · have hsettled := h.settled j
        rw [hnone] at hsettled
        rw [settledFor_append, hcore, finishes_append, List.length_append]
        by_cases hj : j = i
        · subst hj
          simp [settledFor, finishOf] at hsettled ⊢
          omega
        · simp [settledFor, finishOf, Ne.symm hj] at hsettled ⊢
          omega
      · obtain hj | hj := List.mem_append.mp hj
        · exact (h.vouched j w hj).append _
        · simp only [List.cons_append, List.nil_append, List.mem_cons, List.not_mem_nil, or_false,
            reduceCtorEq, false_or] at hj
          cases hj
          refine ⟨i, a.sqe i, res, rfl, List.mem_append_left _ (mem_coreEvents.mp haccept), by simp, hl, ?_⟩
          rw [← hv]
          rfl
  | _ => exact hm.elim

theorem Tells.execute (h : s.Tells tr a) (hinv : s.Inv wq) {o : OsAnswer} {armed : Bool}
    {links : List (Slot × Option Slot)} (hs : s.execute o armed links reads = some p) :
    ∃ a', p.2.Tells (tr ++ p.1) a' := by
  have hg := h.follows.sound
  unfold Posix.execute at hs
  split at hs
  swap
  · cases hs
  next f op linked hpc =>
  split at hs
  · cases hs
  next hcode =>
  rw [Bool.not_eq_true] at hcode
  obtain ⟨q, u, hq, hu, rfl⟩ := andThen_eq hs
  cases hq
  have hop : Inv.Tries s op := .inl (by rw [hpc]; rfl)
  obtain ⟨a₁, h₁⟩ := h.plainly (turn_plainly hinv hg hop o reads)
  obtain ⟨r, hr, hrun, hinv', hpool⟩ := hinv.turn hg hop o reads
  rw [hr] at hu h₁
  rw [← List.append_assoc]
  have hpc₁ : (s.setRing r).core.pc = .exec f op linked false := hpc
  have hcode₁ : ((s.setRing r).core.ring.opPool op).sqe.opcode.cancels = false := by
    show (r.opPool op).sqe.opcode.cancels = false
    rw [hpool, ((s.core.ring.opPool op).slipPosixTry_turn o).tried.sqe]
    exact hcode
  have htake {r' : Ring} {t : Posix} (hc : t.core = (s.setRing r).core) (hb : t.blockSeq = (s.setRing r).blockSeq)
      (hk : BackendWrites t.core r')
      (hu : andThen (t.takeOp op linked r') (·.inCore .execPending .core) = some u) :
      ∃ a', u.2.Tells (tr ++ (s.turn op o reads).1 ++ u.1) a' := by
    obtain ⟨v, w, hv, hw, rfl⟩ := andThen_eq hu
    obtain ⟨a₂, h₂⟩ := (h₁.of_core hc hb).take (by rw [hc]; exact hpc₁) (by rw [hc]; exact hcode₁) hk hv
    rw [← List.append_assoc]
    exact h₂.plainly (plainly_inCore hw rfl rfl trivial rfl)
  split at hu
  · exact h₁.plainly (plainly_quiet hu rfl rfl)
  · exact h₁.plainly (plainly_inCore hu rfl rfl trivial rfl)
  · dsimp only at hu
    split at hu
    · next r' hp => exact htake rfl rfl (hinv'.park_writes hop hp) hu
    · next r' hp =>
      exact h₁.plainly (plainly_written (hinv'.park_writes hop hp) (plainly_inCore hu rfl rfl trivial rfl))
  · split at hu
    · have hsame : Ring.Relinks (fun _ => False) r r := .refl r
      exact htake (t := { s.setRing r with away := s.away ++ [op] }) rfl rfl
        (hsame.backend fun _ hx => hx.elim) hu
    · exact h₁.take hpc₁ hcode₁ (hinv'.file_writes h₁.follows.sound (by rw [hpc₁]; rfl)) hu

theorem Tells.step {l : PosixLabel} (h : s.Tells tr a) (hinv : s.Inv wq) (hs : s.out l = some p) :
    ∃ a', p.2.Tells (tr ++ p.1) a' := by
  by_cases hsettle : ∃ reads, l = .engine (.settle reads)
  · obtain ⟨reads, rfl⟩ := hsettle
    exact h.settle hs
  by_cases hexec : s.back = .core ∧ ∃ o armed links reads, l = .tries o armed links reads
  · obtain ⟨hback, o, armed, links, reads, rfl⟩ := hexec
    simp only [Posix.out] at hs
    rw [if_pos hback] at hs
    exact h.execute hinv hs
  by_cases hfinish : ∃ res, l = .workerFinish res
  · obtain ⟨res, rfl⟩ := hfinish
    exact h.finish hinv hs
  · apply h.plainly
    apply hinv.plainly h.follows.sound _ _ _ hs
    · exact fun reads he => hsettle ⟨reads, he⟩
    · exact fun o armed links reads he hback => hexec ⟨hback, o, armed, links, reads, he⟩
    · exact fun res he => hfinish ⟨res, he⟩

/-- A ticket is up in the ring when it is in the abstract ring, and says the same. -/
theorem Tells.up (h : s.Tells tr a) : (a.ticket = none ↔ s.core.ring.blockedDone = none) ∧
    ∀ i v, a.ticket = some (i, v) → s.core.ring.blockedFailed = v := by
  obtain ⟨_, _, _, _, hrep⟩ := h.follows.rep
  have hw := h.follows.wellFormed
  have hpends (i : ℕ) (v : ChainFailed) (ht : a.ticket = some (i, v)) :
      s.core.ring.blockedDone ≠ none ∧ s.core.ring.blockedFailed = v := by
    have hb := (hw.ticket i v ht).1
    have hwait := hrep.governs.waiting
    rw [hb] at hwait
    obtain ⟨x, hx⟩ := Option.isSome_iff_exists.mp hwait
    obtain ⟨-, hdone, hfailed, -⟩ := (hrep.governs.pends x i hx hb).ticketed i v ht
    exact ⟨by simp [hdone], hfailed⟩
  refine ⟨⟨fun hnone => ?_, fun hnone => ?_⟩, fun i v ht => (hpends i v ht).2⟩
  · cases hwait : s.core.waitingFor with
    | none => exact hrep.governs.idle hwait
    | some x =>
      have hsome := hrep.governs.waiting
      rw [hwait] at hsome
      obtain ⟨i, hi⟩ := Option.isSome_iff_exists.mp hsome.symm
      exact ((hrep.governs.pends x i hwait hi).live hnone).1
  · cases ht : a.ticket with
    | none => rfl
    | some t => exact absurd hnone (hpends t.1 t.2 ht).1

end Posix

theorem tells_run {n : ℕ} {e : UInt32} {b : Bool} {k : ℕ} {hk : 0 < k}
    (hr : Run posixMachine Posix.Spares (setupPosix n e b k hk) tr s) : ∃ a, s.Tells tr a := by
  refine (hr.invariant (fun tr s => (∃ wq, s.Inv wq) ∧ ∃ a, s.Tells tr a)
    ⟨⟨[], setupPosix_inv n e b k hk⟩, {}, ?_⟩ ?_).2
  · exact ⟨⟨.start, ⟨_, _, _, _, setupCore_rep n e⟩, Chains.calm_empty⟩, rfl, fun h => absurd rfl h,
      fun _ => Nat.le_refl _, fun _ _ h => absurd h List.not_mem_nil⟩
  · rintro tr s l s' - ⟨⟨wq, hinv⟩, a, htells⟩ hk hs
    have hout := Posix.step_out hs
    exact ⟨(hinv.step htells.follows.sound hk hout).2, htells.step hinv hout⟩

/-- `t` is the ticket that is up, for which SQE and with which verdict, after a run in which no ticket went
up over another and each that was settled was the one up. The ops with the worker are those in its queue
and the one in its blocking call. -/
structure Posix.TicketsKept (s : Posix) (wq : List Slot) (tr : List PosixEvent)
    (t : Option (ℕ × ChainFailed)) : Prop where
  follows : ticketAfter tr = some t
  up : t = none ↔ s.core.ring.blockedDone = none
  failed : ∀ i v, t = some (i, v) → s.core.ring.blockedFailed = v
  one : ((wq ++ s.worker.runs).filter fun x => s.core.ring.linked x).length +
    (if t = none then 0 else 1) ≤ 1
  once : ∀ i, settledFor tr i ≤ 1
  vouched : ∀ i v, .ticket i v ∈ tr → Vouched tr i v
  settles : ∀ reads s', posixMachine.step s (.engine (.settle reads)) = some s' →
    (t ≠ none ↔ s.core.ring.blocking ≠ none ∧ s'.core.ring.blocking = none)

/-- The op a linked op with the worker is: the one the ring waits for. -/
theorem Posix.Tells.alone (h : s.Tells tr a) (hinv : s.Inv wq) :
    ((wq ++ s.worker.runs).filter fun x => s.core.ring.linked x).length +
      (if a.ticket = none then 0 else 1) ≤ 1 := by
  have hmem (x : Slot) (hx : x ∈ (wq ++ s.worker.runs).filter fun x => s.core.ring.linked x) :
      s.core.waitingFor = some x ∧ a.ticket = none := by
    obtain ⟨hx, hl⟩ := List.mem_filter.mp hx
    apply h.follows.pending _ hl
    apply (hinv.held x).mpr
    simp only [holders, List.mem_append] at hx ⊢
    tauto
  have hnd : ((wq ++ s.worker.runs).filter fun x => s.core.ring.linked x).Nodup := by
    apply List.Nodup.filter
    have hnd := hinv.nodup
    unfold holders at hnd
    rw [List.append_assoc _ wq] at hnd
    exact (List.nodup_append.mp (List.nodup_append.mp hnd).1).2.1
  generalize (wq ++ s.worker.runs).filter (fun x => s.core.ring.linked x) = l at hmem hnd ⊢
  cases l with
  | nil => split <;> simp
  | cons x l =>
    cases l with
    | nil =>
      rw [if_pos (hmem x List.mem_cons_self).2]
      exact Nat.le_refl 1
    | cons y l =>
      have hx := (hmem x List.mem_cons_self).1
      have hy := (hmem y (List.mem_cons_of_mem x List.mem_cons_self)).1
      cases hx.symm.trans hy
      exact absurd List.mem_cons_self (List.nodup_cons.mp hnd).1

/-- A settling settles the ticket that is up, and nothing when none is. -/
theorem Posix.Tells.settles (h : s.Tells tr a)
    (hs : posixMachine.step s (.engine (.settle reads)) = some s') :
    a.ticket ≠ none ↔ s.core.ring.blocking ≠ none ∧ s'.core.ring.blocking = none := by
  obtain ⟨_, _, _, _, hrep⟩ := h.follows.rep
  have hpc : s.core.waitingFor = s.core.ring.blocking ∧
      s'.core.ring = s.core.ring.settleWorkerTicket reads := by
    have hout := step_out hs
    simp only [Posix.out, engineStep] at hout
    rw [if_pos (show (CoreLabel.settle reads).isEngine = true from rfl)] at hout
    obtain ⟨q, u, hq, hu, hp⟩ := andThen_eq hout
    obtain ⟨c, hc, -, hq2⟩ := inCore_eq hq
    have hu2 : u.2 = q.2 := by
      split at hu <;> cases hu <;> rfl
    have hs' : s' = u.2 := congrArg Prod.snd hp
    rw [hs', hu2, hq2]
    simp only [Core.step, Core.settle] at hc
    split at hc <;> cases hc
    next f hpc => exact ⟨by simp [Core.waitingFor, hpc], rfl⟩
  obtain ⟨hwait, hring⟩ := hpc
  rw [hring, ne_eq, h.up.1]
  have hpends (hne : s.core.ring.blockedDone ≠ none) :
      s.core.ring.blockedDone = s.core.ring.blocking := by
    cases ht : a.ticket with
    | none => exact absurd (h.up.1.mp ht) hne
    | some t =>
      have hb := (h.follows.wellFormed.ticket t.1 t.2 ht).1
      have hsome := hrep.governs.waiting
      rw [hb] at hsome
      obtain ⟨x, hx⟩ := Option.isSome_iff_exists.mp hsome
      rw [← hwait, hx, ((hrep.governs.pends x _ hx hb).ticketed _ _ ht).2.1]
  unfold Ring.settleWorkerTicket
  by_cases hne : s.core.ring.blockedDone ≠ none
  · have hsame := hpends hne
    rw [if_pos ⟨hne, hsame⟩, ← hsame]
    refine iff_of_true hne ⟨hne, ?_⟩
    split <;> rfl
  · rw [if_neg fun hset => hne hset.1]
    refine iff_of_false hne fun hset => hset.1 hset.2

/-- In every run in which the worker does not take the op a CANCEL_ALL has its saved pointer in. -/
theorem worker_tickets_kept {n : ℕ} {e : UInt32} {b : Bool} {k : ℕ} {hk : 0 < k}
    (hr : Run posixMachine Posix.Spares (setupPosix n e b k hk) tr s) :
    ∃ wq t, s.core.ring.Queues wq ∧ s.TicketsKept wq tr t := by
  obtain ⟨a, h⟩ := tells_run hr
  obtain ⟨-, wq, hinv⟩ := posix_refines hr
  refine ⟨wq, a.ticket, hinv.queues, h.ticket, h.up.1, h.up.2, h.alone hinv, fun i => ?_, h.vouched,
    fun _ _ => h.settles⟩
  have hsettled := h.settled i
  have hone := h.follows.history.finished_once i
  omega

/-- A chain of two blocking ops: the first one's ticket is settled for it, and the second is running. -/
theorem worker_tickets_kept_pair : ∃ tr s wq t,
    Run posixMachine Posix.Spares (setupPosix 2 4 false 1 Nat.one_pos) tr s ∧
      settledFor tr 0 = 1 ∧ s.worker = .running 1 ∧ s.TicketsKept wq tr t := by
  obtain ⟨tr, s, hr, hsettled, hworker⟩ := Run.of_exec posixMachine Posix.Spares
    (setupPosix 2 4 false 1 Nat.one_pos)
    (fun tr s => settledFor tr 0 = 1 ∧ s.worker = .running 1)
    [.engine (.enter { entries := [some { opcode := .openat, flags := { ioLink := true } },
        some { opcode := .openat }], minComplete := 2, getevents := true }),
      .engine .takeSqe, .engine .takeSqe, .engine .append, .engine (.queueStep .own []),
      .tries .again false [] [], .workerTake, .workerFinish 3, .pending, .engine (.queueStep .own []),
      .engine (.settle []), .workerPost [], .engine (.check 0), .workerPoke, .wake true [], .drain,
      .drain, .back, .engine (.complete []), .engine (.queueStep .own []), .tries .again false [] [],
      .workerTake] (by decide +kernel)
  obtain ⟨wq, t, -, hkept⟩ := worker_tickets_kept hr
  exact ⟨tr, s, wq, t, hr, hsettled, hworker, hkept⟩

/-- A CANCEL_ALL stands in front of the lock with its saved pointer in the first OPENAT when the worker
takes that one. What the cancel then unlinks and frees stays the worker's queue; the linked OPENAT that gets
its slot is run twice, and the second ticket goes up over the first. -/
theorem worker_ticket_overwritten : ∃ tr s,
    Run posixMachine (fun _ _ => True) (setupPosix 6 8 false 4 (by decide)) tr s ∧
      ¬ ∃ wq t, s.TicketsKept wq tr t := by
  obtain ⟨tr, s, hr, hnone⟩ := Run.of_exec posixMachine (fun _ _ => True)
    (setupPosix 6 8 false 4 (by decide)) (fun tr _ => ticketAfter tr = none)
    [.engine (.enter { entries := [some { opcode := .openat, userData := 1 },
        some { opcode := .openat, userData := 9 }, some { opcode := .openat, userData := 9 },
        some { opcode := .asyncCancel, addr := 9, opFlags := ioringAsyncCancelAll }] }),
      .engine .takeSqe, .engine .takeSqe, .engine .takeSqe, .engine .takeSqe, .engine .append,
      .engine (.queueStep .own []), .tries .again false [] [], .pending,
      .engine (.queueStep .own []), .tries .again false [] [], .pending,
      .engine (.queueStep .own []), .tries .again false [] [], .pending,
      .engine (.queueStep .own []), .cancel [] [], .cancel [] [], .cancel [] [], .cancel [] [],
      .cancel [] [], .workerTake, .cancel [] [], .cancel [] [], .cancel [] [], .cancel [] [],
      .engine (.post []), .engine (.queueStep .own []),
      .engine (.enter { entries := [some {}, some { opcode := .openat, flags := { ioLink := true } }] }),
      .engine .takeSqe, .engine .takeSqe, .engine .append, .engine (.queueStep .own []),
      .tries .again false [] [], .engine (.post []), .engine (.queueStep .own []),
      .tries .again false [] [], .pending, .workerFinish 0, .workerPost [], .workerPoke, .workerTake,
      .workerFinish 0, .workerPost [], .workerPoke, .workerTake, .workerFinish 0] (by decide +kernel)
  refine ⟨tr, s, hr, ?_⟩
  rintro ⟨wq, t, hkept⟩
  have hfollows := hkept.follows
  rw [hnone] at hfollows
  cases hfollows

end Posix

end SlipstreamIO.Engine
