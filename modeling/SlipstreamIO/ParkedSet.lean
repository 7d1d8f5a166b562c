import SlipstreamIO.CoreFrames
import SlipstreamIO.PosixWrites

/-! The parked set through parks, unparks, cancels and whole passes over ready ops, on any backend of
`engine_posix.c`: an indexed bag that loses no op and holds none twice. -/
namespace SlipstreamIO.Engine

open ThreadedList Runs IndexedBag

/-- What the system answers to the retry of a ready op, turn by turn and with the caller's reads at
what a turn emits, and what the backend does and answers when the op leaves and when it comes back. -/
structure Attempt where
  leaves : List (Slot × Option Slot) := []
  turns : List (OsAnswer × List ℕ) := []
  armed : Bool := true
  links : List (Slot × Option Slot) := []

namespace Ring

/-- One turn of the try of `op`. -/
def tryTurn (r : Ring) (op : Slot) (a : OsAnswer) (reads : List ℕ) : Ring :=
  let o := r.opPool op
  let t := o.slipPosixTry a
  match t.emits with
  | some (res, flags) =>
    (r.inVault (·.slipEngineEmit o.sqe.userData res flags reads)).inVault (·.setOp op t.op)
  | none => r.inVault (·.setOp op t.op)

/-- The turns of a try up to its verdict; with no verdict it has not returned. -/
def slipPosixTry (op : Slot) : Ring → List (OsAnswer × List ℕ) → Option (Ring × Verdict)
  | _, [] => none
  | r, (a, reads) :: turns =>
    match ((r.opPool op).slipPosixTry a).verdict with
    | some v => some (r.tryTurn op a reads, v)
    | none => slipPosixTry op (r.tryTurn op a reads) turns

/-- What becomes of a ready op that was tried: it goes to `out` with its answer, or parks again. -/
def afterTry (r : Ring) (op : Slot) (t : Attempt) : Verdict → Ring × Option (Slot × Int32)
  | .ran res => (r, some (op, res))
  -- a parked op never becomes a file op
  | .file => (r, some (op, -eopnotsupp))
  | .park _ =>
    match r.park op t.armed t.links with
    | (r, true) => (r, none)
    | (r, false) => (r, some (op, -ebusy))

/-- One turn of the loop of slip_posix_finish_ready. -/
def retry (r : Ring) (op : Slot) (t : Attempt) : Option (Ring × Option (Slot × Int32)) :=
  (slipPosixTry op (r.unpark op t.leaves) t.turns).map fun p => p.1.afterTry op t p.2

/-- slip_posix_finish_ready over what is left of `ready`, where `out` is what it has by now. -/
def slipPosixFinishReady (attempts : Slot → Attempt) (max : ℕ) :
    Ring → List Slot → List (Slot × Int32) → Option (Ring × List (Slot × Int32))
  | r, [], out => some (r, out)
  | r, op :: ready, out =>
    if out.length < max then
      match r.retry op (attempts op) with
      | none => none
      | some (r, d) => slipPosixFinishReady attempts max r ready (out ++ d.toList)
    else some (r, out)

/-- The loop of cancel_matching through `waiting[]`, from index `i`: the ring and how many ops were
taken. `takes` is what the backend does when an op leaves, with the caller's reads at its post; there
is no result when the loop goes round more often than the fuel. -/
def cancelWaiting (c : Slot) (takes : Slot → List (Slot × Option Slot) × List ℕ) :
    ℕ → Ring → ℕ → ℕ → Option (Ring × ℕ)
  | 0, _, _, _ => none
  | fuel + 1, r, i, count =>
    match r.waiting[i]? with
    | none => some (r, count)
    | some t =>
      if cancelNames (r.opPool c).sqe (r.opPool t).sqe then
        let r' := (r.unpark t (takes t).1).cancelTarget t (takes t).2
        if cancelAll (r.opPool c).sqe then cancelWaiting c takes fuel r' i (count + 1)
        else some (r', count + 1)
      else cancelWaiting c takes fuel r (i + 1) count

end Ring

/-- A ring, and the ops the engine has in its hands: in a queue, inside execute, with a worker, or
handed out of a pass. The hands are ghost. -/
structure ParkedSet where
  ring : Ring
  hands : List Slot := []

/-- What can happen to the ring: an op is taken off the free list, written, posted or parked while it
is in hand, the caller reads, something is emitted, an op is unparked, and there are cancels and
passes. -/
inductive ParkedSetLabel where
  | take (sqe : Sqe)
  | write (op : Slot) (o : EngOp)
  | post (op : Slot) (res : Int32) (reads : List ℕ)
  | read (k : ℕ)
  | emit (userData : UInt64) (res : Int32) (flags : UInt32) (reads : List ℕ)
  | park (op : Slot) (armed : Bool) (links : List (Slot × Option Slot))
  | unpark (op : Slot) (links : List (Slot × Option Slot))
  | cancel (c : Slot) (takes : Slot → List (Slot × Option Slot) × List ℕ)
  | pass (attempts : Slot → Attempt) (ready : List Slot) (max : ℕ)

namespace ParkedSet

/-- op_alloc in a submit: the op is fresh but for its SQE. -/
def take (s : ParkedSet) (sqe : Sqe) : Option ParkedSet :=
  s.ring.opAllocLocked.map fun (op, v) =>
    { ring := { s.ring with toVault := v.setOp op { v.opPool op with sqe := sqe } }
      hands := s.hands ++ [op] }

def park (s : ParkedSet) (op : Slot) (armed : Bool) (links : List (Slot × Option Slot)) : ParkedSet :=
  match s.ring.park op armed links with
  | (r, true) => ⟨r, s.hands.erase op⟩
  | (r, false) => ⟨r, s.hands⟩

/-- An op that leaves the set is in hand. -/
def unpark (s : ParkedSet) (op : Slot) (links : List (Slot × Option Slot)) : ParkedSet :=
  ⟨s.ring.unpark op links, if op ∈ s.ring.waiting then op :: s.hands else s.hands⟩

def step (s : ParkedSet) : ParkedSetLabel → Option ParkedSet
  | .take sqe => s.take sqe
  | .write op o => some ⟨s.ring.inVault (·.setOp op o), s.hands⟩
  | .post op res reads => some ⟨s.ring.inVault (·.slipEnginePost op res reads), s.hands.erase op⟩
  | .read k => some ⟨s.ring.inVault (·.callerReads k), s.hands⟩
  | .emit u res fl reads => some ⟨s.ring.inVault (·.slipEngineEmit u res fl reads), s.hands⟩
  | .park op armed links => some (s.park op armed links)
  | .unpark op links => some (s.unpark op links)
  | .cancel c takes =>
    (Ring.cancelWaiting c takes (s.ring.waiting.length + 1) s.ring 0 0).map fun p => ⟨p.1, s.hands⟩
  | .pass attempts ready max =>
    (Ring.slipPosixFinishReady attempts max s.ring ready []).map fun p =>
      ⟨p.1, p.2.map Prod.fst ++ s.hands⟩

/-- What the engine writes, posts, parks and executes is in its hands, and a pass is over distinct
parked ops. -/
def Owns (s : ParkedSet) : ParkedSetLabel → Prop
  | .write op _ | .post op _ _ | .park op _ _ | .cancel op _ => op ∈ s.hands
  | .pass _ ready _ => ready.Nodup ∧ ∀ x ∈ ready, x ∈ s.ring.waiting
  | _ => True

def machine : Machine ParkedSet ParkedSetLabel Empty := ⟨step, fun _ _ => []⟩

/-- The ring as setup leaves it. -/
def setup (n : ℕ) (cqEntries : UInt32) : ParkedSet := { ring := { toVault := emptyVault n cqEntries } }

end ParkedSet

/-! ### What each part of a step keeps -/

/-- An op that stays parked keeps its SQE, and what it waits for. -/
structure EngOp.Kept (o o' : EngOp) : Prop where
  sqe : o'.sqe = o.sqe
  waitEvents : o'.waitEvents = o.waitEvents

theorem EngOp.Kept.refl (o : EngOp) : o.Kept o := ⟨rfl, rfl⟩

theorem EngOp.Kept.trans {o o' o'' : EngOp} (h : o.Kept o') (h' : o'.Kept o'') : o.Kept o'' :=
  ⟨h'.sqe.trans h.sqe, h'.waitEvents.trans h.waitEvents⟩

theorem Ring.Relinks.kept {own : Slot → Prop} {r r' : Ring} (h : Ring.Relinks own r r') (x : Slot) :
    (r.opPool x).Kept (r'.opPool x) := by
  rw [h.alike x]
  exact ⟨rfl, rfl⟩

namespace ParkedSet
variable {s : ParkedSet} {r r' : Ring} {free backlog hands hands' : List Slot} {op x : Slot}

/-- The parked ops know their places, and every op of the pool is free, in the backlog, parked or in
hand, and that once. -/
structure Inv (s : ParkedSet) (free backlog : List Slot) : Prop where
  vault : s.ring.toVault.Rep free backlog
  bagged : s.ring.Bagged
  places : ∀ x, free.count x + backlog.count x + s.ring.waiting.count x + s.hands.count x =
    (List.range s.ring.opPoolN).count x

def InOrder (s : ParkedSet) : Prop := ∃ free backlog, s.Inv free backlog

theorem InOrder.perm (h : InOrder ⟨r, hands⟩) (hp : hands.Perm hands') : InOrder ⟨r, hands'⟩ := by
  obtain ⟨free, backlog, hinv⟩ := h
  refine ⟨free, backlog, hinv.vault, hinv.bagged, ?_⟩
  intro x
  rw [← hinv.places x, hp.count_eq]

namespace Inv

theorem once (h : s.Inv free backlog) (x : Slot) :
    free.count x + backlog.count x + s.ring.waiting.count x + s.hands.count x ≤ 1 := by
  rw [h.places x]
  exact List.nodup_iff_count_le_one.mp List.nodup_range x

theorem nodup (h : s.Inv free backlog) : (free ++ backlog).Nodup := by
  apply List.nodup_iff_count_le_one.mpr
  intro x
  have honce := h.once x
  rw [List.count_append]
  omega

theorem length_le (h : s.Inv free backlog) :
    backlog.length ≤ s.ring.opPoolN ∧ s.ring.waiting.length ≤ s.ring.opPoolN := by
  have hperm : (free ++ backlog ++ s.ring.waiting ++ s.hands).Perm (List.range s.ring.opPoolN) := by
    apply List.perm_iff_count.mpr
    intro x
    simp only [List.count_append]
    exact h.places x
  have hlen := hperm.length_eq
  simp only [List.length_append, List.length_range] at hlen
  omega

theorem outside (h : s.Inv free backlog) (hx : x ∈ s.ring.waiting ∨ x ∈ s.hands) :
    x ∉ free ∧ x ∉ backlog := by
  have honce := h.once x
  simp only [← List.count_pos_iff] at hx ⊢
  omega

theorem apart (h : s.Inv free backlog) (hx : x ∈ s.hands) : x ∉ s.ring.waiting := by
  have honce := h.once x
  simp only [← List.count_pos_iff] at hx ⊢
  omega

/-- Ops move between the set and the hands, and nothing is written in what is free or in the backlog. -/
theorem moves (h : s.Inv free backlog) (hpool : ∀ x, x ∉ s.ring.waiting → x ∉ s.hands →
      r'.opPool x = s.ring.opPool x)
    (hcore : r'.core = s.ring.core) (hbagged : r'.Bagged)
    (hcount : ∀ x, r'.waiting.count x + hands'.count x = s.ring.waiting.count x + s.hands.count x) :
    Inv ⟨r', hands'⟩ free backlog := by
  have hnext (l : List Slot) (hl : ∀ x ∈ l, x ∈ free ∨ x ∈ backlog) (x : Slot) (hx : x ∈ l) :
      r'.next x = s.ring.next x := by
    rw [Vault.next, hpool x]
    · rfl
    · intro hw
      exact (hl x hx).elim (h.outside (.inl hw)).1 (h.outside (.inl hw)).2
    · intro hh
      exact (hl x hx).elim (h.outside (.inr hh)).1 (h.outside (.inr hh)).2
  refine ⟨⟨?_, ?_⟩, hbagged, ?_⟩
  · rw [show r'.opFree = s.ring.opFree from congrArg (·.opFree) hcore]
    exact h.vault.free.congr (hnext free fun x hx => .inl hx)
  · rw [show r'.backlogHead = s.ring.backlogHead from congrArg (·.backlogHead) hcore,
      show r'.backlogTail = s.ring.backlogTail from congrArg (·.backlogTail) hcore]
    exact h.vault.backlog.congr (hnext backlog fun x hx => .inr hx)
  · intro x
    have hold := h.places x
    have hnew := hcount x
    show free.count x + backlog.count x + r'.waiting.count x + hands'.count x =
      (List.range r'.opPoolN).count x
    rw [show r'.opPoolN = s.ring.opPoolN from congrArg (·.opPoolN) hcore]
    omega

/-- Completions give back ops that were in hand, and touch no other op that is in use. -/
theorem completes (h : s.Inv free backlog) (r' : Ring) {ops free' backlog' : List Slot}
    {given : List (Option ℕ × Cqe)}
    (hc : s.ring.toVault.Completes r'.toVault free backlog ops given free' backlog')
    (hw : r'.waiting = s.ring.waiting) (hhands : ∀ x, ops.count x + hands'.count x = s.hands.count x) :
    Inv ⟨r', hands'⟩ free' backlog' ∧
      ∀ x, x ∈ s.ring.waiting ∨ x ∈ hands' → r'.opPool x = s.ring.opPool x := by
  have hsame : ∀ x, x ∈ s.ring.waiting ∨ x ∈ hands' → r'.opPool x = s.ring.opPool x := by
    intro x hx
    have honce := h.once x
    have hsplit := hhands x
    have hin : x ∈ s.ring.waiting ∨ x ∈ s.hands := by
      simp only [← List.count_pos_iff] at hx ⊢
      omega
    apply hc.others x (h.outside hin).1 (h.outside hin).2
    simp only [← List.count_pos_iff] at hx ⊢
    omega
  refine ⟨⟨hc.rep, ?_, ?_⟩, hsame⟩
  · intro i x hi
    have hi : s.ring.waiting[i]? = some x := hw ▸ hi
    show (r'.opPool x).waitSlot = i
    rw [hsame x (.inl (List.mem_of_getElem? hi))]
    exact h.bagged i x hi
  · intro x
    have hplaces := h.places x
    have hcount := hc.places x
    have hsplit := hhands x
    show free'.count x + backlog'.count x + r'.waiting.count x + hands'.count x =
      (List.range r'.opPoolN).count x
    rw [hc.opPoolN, hw]
    omega

/-- An op in hand is written. -/
theorem write (h : s.Inv free backlog) (hop : op ∈ s.hands) (o : EngOp) :
    Inv ⟨s.ring.inVault (·.setOp op o), s.hands⟩ free backlog ∧
      ∀ x ∈ s.ring.waiting, (s.ring.inVault (·.setOp op o)).opPool x = s.ring.opPool x := by
  have hne {x : Slot} (hx : x ≠ op) : (s.ring.inVault (·.setOp op o)).opPool x = s.ring.opPool x := by
    rw [Ring.inVault_toVault, Vault.setOp_opPool, if_neg hx]
  have hparked : ∀ x ∈ s.ring.waiting,
      (s.ring.inVault (·.setOp op o)).opPool x = s.ring.opPool x := by
    intro x hx
    apply hne
    rintro rfl
    exact h.apart hop hx
  refine ⟨h.moves ?_ rfl ?_ (fun _ => rfl), hparked⟩
  · intro x _ hx
    apply hne
    rintro rfl
    exact hx hop
  · intro i x hi
    show ((s.ring.inVault (·.setOp op o)).opPool x).waitSlot = i
    rw [hparked x (List.mem_of_getElem? hi)]
    exact h.bagged i x hi

theorem park (h : s.Inv free backlog) (hop : op ∈ s.hands) {armed ok : Bool}
    {links : List (Slot × Option Slot)} (hp : s.ring.park op armed links = (r', ok)) :
    Inv ⟨r', if ok then s.hands.erase op else s.hands⟩ free backlog ∧
      r'.waiting = s.ring.waiting ++ (if ok then [op] else []) ∧
      ∀ x, (s.ring.opPool x).Kept (r'.opPool x) := by
  obtain ⟨hlinks, -, -, hw, -⟩ := park_spec hp
  refine ⟨h.moves ?_ hlinks.core (park_bagged h.bagged (h.apart hop) hp) ?_, hw, hlinks.kept⟩
  · intro x hx hxh
    apply hlinks.others
    intro hmem
    rcases List.mem_cons.mp hmem with rfl | hmem
    · exact hxh hop
    · exact hx hmem
  · intro x
    rw [hw]
    cases ok with
    | false => simp
    | true =>
      have hpos := List.count_pos_iff.mpr hop
      simp only [if_true, List.count_append, List.count_erase, List.count_singleton]
      by_cases hx : x = op
      · simp only [hx, beq_self_eq_true, if_true]
        omega
      · have hbeq : (op == x) = false := by simpa using Ne.symm hx
        simp [hbeq]

theorem unpark (h : s.Inv free backlog) (hop : op ∈ s.ring.waiting)
    (links : List (Slot × Option Slot)) :
    Inv ⟨s.ring.unpark op links, op :: s.hands⟩ free backlog ∧
      s.ring.waiting.Perm (op :: (s.ring.unpark op links).waiting) ∧
      ∀ x, (s.ring.opPool x).Kept ((s.ring.unpark op links).opPool x) := by
  obtain ⟨hlinks, -, -, hw, hbagged⟩ := unpark_spec h.bagged hop links
  have hperm : s.ring.waiting.Perm (op :: (s.ring.unpark op links).waiting) := by
    rw [hw]
    exact perm_swapRemove h.bagged (h.bagged.mem_iff.mp hop)
  refine ⟨h.moves ?_ hlinks.core hbagged ?_, hperm, hlinks.kept⟩
  · exact fun x hx _ => hlinks.others x hx
  · intro x
    rw [hperm.count_eq x, List.count_cons, List.count_cons]
    omega

/-- An op that is not parked cannot answer the identity check. -/
theorem unpark_else (h : s.Inv free backlog) (hop : op ∉ s.ring.waiting)
    (links : List (Slot × Option Slot)) : s.ring.unpark op links = s.ring := by
  unfold Ring.unpark
  dsimp only
  rw [if_pos]
  exact fun hi => hop (h.bagged.mem_iff.mpr hi)

theorem emit (h : s.Inv free backlog) (u : UInt64) (res : Int32) (fl : UInt32) (reads : List ℕ) :
    ∃ free' backlog',
      Inv ⟨s.ring.inVault (·.slipEngineEmit u res fl reads), s.hands⟩ free' backlog' ∧
      ∀ x, x ∈ s.ring.waiting ∨ x ∈ s.hands →
        (s.ring.inVault (·.slipEngineEmit u res fl reads)).opPool x = s.ring.opPool x := by
  obtain ⟨given, free', backlog', hc, -⟩ :=
    Vault.slipEngineEmit_completes h.vault h.nodup h.length_le.1 u res fl reads
  refine ⟨free', backlog', h.completes (s.ring.inVault _) hc rfl ?_⟩
  intro x
  rw [List.count_nil, Nat.zero_add]

/-- An op in hand is posted. -/
theorem post (h : s.Inv free backlog) (hop : op ∈ s.hands) (res : Int32) (reads : List ℕ) :
    ∃ free' backlog',
      Inv ⟨s.ring.inVault (·.slipEnginePost op res reads), s.hands.erase op⟩ free' backlog' := by
  obtain ⟨hf, hb⟩ := h.outside (.inr hop)
  have hnodup : (free ++ backlog ++ [op]).Nodup := by
    apply List.nodup_append.mpr
    refine ⟨h.nodup, List.nodup_singleton op, ?_⟩
    intro a ha b hb' hab
    rw [hab, List.mem_singleton.mp hb', List.mem_append] at ha
    exact ha.elim hf hb
  obtain ⟨free', backlog', hc⟩ :=
    Vault.slipEnginePost_completes h.vault hnodup h.length_le.1 res reads
  refine ⟨free', backlog', (h.completes (s.ring.inVault (·.slipEnginePost op res reads)) hc rfl ?_).1⟩
  intro x
  have hpos := List.count_pos_iff.mpr hop
  rw [List.count_erase, List.count_singleton]
  by_cases hx : x = op
  · simp only [hx, beq_self_eq_true, if_true]
    omega
  · have hbeq : (op == x) = false := by simpa using Ne.symm hx
    simp [hbeq]

theorem read (h : s.Inv free backlog) (k : ℕ) :
    Inv ⟨s.ring.inVault (·.callerReads k), s.hands⟩ free backlog := by
  have hc := Vault.Completes.callerReads h.vault k
  refine (h.completes (s.ring.inVault (·.callerReads k)) hc rfl ?_).1
  intro x
  rw [List.count_nil, Nat.zero_add]

/-- A fresh op comes off the free list into the hands. -/
theorem take (h : s.Inv free backlog) {sqe : Sqe} {s' : ParkedSet} (hs : s.take sqe = some s') :
    InOrder s' := by
  unfold ParkedSet.take at hs
  obtain ⟨⟨op, v⟩, halloc, hs⟩ := Option.map_eq_some_iff.mp hs
  cases free with
  | nil =>
    rw [(Vault.opAllocLocked_none h.vault).mpr rfl] at halloc
    cases halloc
  | cons y free =>
    obtain ⟨w, hw, hrep, -, hothers, hn, -⟩ := Vault.opAllocLocked_cons h.vault h.nodup
    obtain ⟨rfl, rfl⟩ := Prod.mk.inj (Option.some.inj (halloc.symm.trans hw))
    have hout : op ∉ free ∧ op ∉ backlog := by
      simpa using (List.nodup_cons.mp h.nodup).1
    subst hs
    refine ⟨free, backlog, hrep.setOp hout.1 hout.2 _, ?_, ?_⟩
    · intro i x hi
      have hx : x ∈ s.ring.waiting := List.mem_of_getElem? hi
      have hne : x ≠ op := by
        rintro rfl
        exact (h.outside (.inl hx)).1 List.mem_cons_self
      show (Vault.opPool (v.setOp op _) x).waitSlot = i
      rw [Vault.setOp_opPool, if_neg hne, hothers x hne]
      exact h.bagged i x hi
    · intro x
      have hold := h.places x
      show free.count x + backlog.count x + s.ring.waiting.count x + (s.hands ++ [op]).count x =
        (List.range v.opPoolN).count x
      rw [hn, List.count_append, List.count_singleton]
      rw [List.count_cons] at hold
      omega

end Inv

/-! ### The retry of a ready op -/

theorem Inv.tryTurn (h : s.Inv free backlog) (hop : op ∈ s.hands) (a : OsAnswer) (reads : List ℕ) :
    ∃ free' backlog', Inv ⟨s.ring.tryTurn op a reads, s.hands⟩ free' backlog' ∧
      (s.ring.tryTurn op a reads).waiting = s.ring.waiting ∧
      ∀ x ∈ s.ring.waiting, (s.ring.tryTurn op a reads).opPool x = s.ring.opPool x := by
  unfold Ring.tryTurn
  dsimp only
  cases ((s.ring.opPool op).slipPosixTry a).emits with
  | none =>
    obtain ⟨hinv, hsame⟩ := h.write hop ((s.ring.opPool op).slipPosixTry a).op
    exact ⟨free, backlog, hinv, rfl, hsame⟩
  | some c =>
    obtain ⟨free', backlog', hemit, hkept⟩ := h.emit (s.ring.opPool op).sqe.userData c.1 c.2 reads
    obtain ⟨hinv, hsame⟩ := hemit.write hop ((s.ring.opPool op).slipPosixTry a).op
    refine ⟨free', backlog', hinv, rfl, ?_⟩
    exact fun x hx => (hsame x hx).trans (hkept x (.inl hx))

/-- However many turns a try takes, it leaves the parked ops alone. -/
theorem Inv.slipPosixTry (h : s.Inv free backlog) (hop : op ∈ s.hands)
    {turns : List (OsAnswer × List ℕ)} {v : Verdict}
    (ht : Ring.slipPosixTry op s.ring turns = some (r', v)) :
    ∃ free' backlog', Inv ⟨r', s.hands⟩ free' backlog' ∧ r'.waiting = s.ring.waiting ∧
      ∀ x ∈ s.ring.waiting, r'.opPool x = s.ring.opPool x := by
  obtain ⟨r, hands⟩ := s
  induction turns generalizing r free backlog with
  | nil => cases ht
  | cons turn turns ih =>
    obtain ⟨a, reads⟩ := turn
    obtain ⟨free', backlog', hinv, hw, hsame⟩ := h.tryTurn hop a reads
    cases hv : ((r.opPool op).slipPosixTry a).verdict with
    | some v' =>
      simp only [Ring.slipPosixTry, hv, Option.some.injEq, Prod.mk.injEq] at ht
      obtain ⟨rfl, -⟩ := ht
      exact ⟨free', backlog', hinv, hw, hsame⟩
    | none =>
      simp only [Ring.slipPosixTry, hv] at ht
      obtain ⟨free'', backlog'', hinv', hw', hsame'⟩ := ih _ hinv hop ht
      refine ⟨free'', backlog'', hinv', hw'.trans hw, ?_⟩
      intro x hx
      exact (hsame' x (hw ▸ hx)).trans (hsame x hx)

/-- What has become of some ready ops: those in `done` are in hand, the others of the set are parked, and
the parked ops that were not ready are as they were. -/
structure Passed (r r' : Ring) (hands ready done : List Slot) : Prop where
  order : InOrder ⟨r', done ++ hands⟩
  set : r.waiting.Perm (done ++ r'.waiting)
  gone : done.Sublist ready
  kept : ∀ x ∈ r.waiting, x ∉ ready → (r.opPool x).Kept (r'.opPool x)

/-- One ready op: it is finished and in hand, or it is parked again. -/
theorem Inv.retry (h : s.Inv free backlog) (hop : op ∈ s.ring.waiting) {t : Attempt}
    {d : Option (Slot × Int32)} (hr : s.ring.retry op t = some (r', d)) :
    Passed s.ring r' s.hands [op] (d.toList.map Prod.fst) := by
  obtain ⟨hout, hperm, hkept⟩ := h.unpark hop t.leaves
  have hne {x : Slot} (hx : x ∈ s.ring.waiting) (hxop : x ∉ [op]) :
      x ∈ (s.ring.unpark op t.leaves).waiting := by
    rcases List.mem_cons.mp (hperm.mem_iff.mp hx) with rfl | hx
    · exact absurd (List.mem_singleton_self x) hxop
    · exact hx
  obtain ⟨⟨r₁, v⟩, htry, hr⟩ := Option.map_eq_some_iff.mp hr
  obtain ⟨free', backlog', hinv, hw, hsame⟩ := hout.slipPosixTry List.mem_cons_self htry
  have hkept₁ : ∀ x ∈ s.ring.waiting, x ∉ [op] → (s.ring.opPool x).Kept (r₁.opPool x) := by
    intro x hx hxop
    rw [hsame x (hne hx hxop)]
    exact hkept x
  have hfinished (res : Int32) : Passed s.ring r₁ s.hands [op] [(op, res).1] :=
    ⟨⟨free', backlog', hinv⟩, by rwa [hw], List.Sublist.refl _, hkept₁⟩
  cases v with
  | ran res =>
    cases hr
    exact hfinished res
  | file =>
    cases hr
    exact hfinished _
  | park events =>
    cases hp : r₁.park op t.armed t.links with
    | mk r₂ ok =>
      obtain ⟨hparked, hw₂, hkept₂⟩ := hinv.park List.mem_cons_self hp
      have hkept' : ∀ x ∈ s.ring.waiting, x ∉ [op] → (s.ring.opPool x).Kept (r₂.opPool x) :=
        fun x hx hxop => (hkept₁ x hx hxop).trans (hkept₂ x)
      simp only [Ring.afterTry, hp] at hr
      cases ok with
      | false =>
        cases hr
        refine ⟨⟨free', backlog', hparked⟩, ?_, List.Sublist.refl _, hkept'⟩
        rw [hw₂, hw]
        simpa using hperm
      | true =>
        cases hr
        refine ⟨⟨free', backlog', ?_⟩, ?_, List.nil_sublist _, hkept'⟩
        · simpa using hparked
        · rw [hw₂, hw]
          exact hperm.trans (List.perm_append_singleton op _).symm

/-! ### Whole passes and cancels -/

theorem Passed.none (h : InOrder ⟨r, hands⟩) (ready : List Slot) : Passed r r hands ready [] :=
  ⟨h, List.Perm.refl _, List.nil_sublist _, fun _ _ _ => EngOp.Kept.refl _⟩

/-- A parked op that was not ready is parked. -/
theorem Passed.stays {ready done : List Slot} (h : Passed r r' hands ready done) (hx : x ∈ r.waiting)
    (hready : x ∉ ready) : x ∈ r'.waiting := by
  rcases List.mem_append.mp (h.set.mem_iff.mp hx) with hdone | hw
  · exact absurd (h.gone.subset hdone) hready
  · exact hw

theorem Passed.trans {r₁ : Ring} {ready ready' done done' : List Slot}
    (h : Passed r r₁ hands ready done) (h' : Passed r₁ r' (done ++ hands) ready' done') :
    Passed r r' hands (ready ++ ready') (done ++ done') := by
  refine ⟨?_, ?_, h.gone.append h'.gone, ?_⟩
  · apply h'.order.perm
    rw [← List.append_assoc]
    exact List.perm_append_comm.append_right hands
  · rw [List.append_assoc]
    exact h.set.trans (h'.set.append_left done)
  · intro x hx hready
    rw [List.mem_append, not_or] at hready
    exact (h.kept x hx hready.1).trans (h'.kept x (h.stays hx hready.1) hready.2)

/-- A pass over distinct parked ops: by induction on what is left of them. -/
theorem InOrder.finishReady (h : InOrder ⟨r, hands⟩) {attempts : Slot → Attempt} {max : ℕ}
    {ready : List Slot} {out out' : List (Slot × Int32)} (hnodup : ready.Nodup)
    (hready : ∀ x ∈ ready, x ∈ r.waiting)
    (hf : Ring.slipPosixFinishReady attempts max r ready out = some (r', out')) :
    ∃ done, out' = out ++ done ∧ Passed r r' hands ready (done.map Prod.fst) := by
  induction ready generalizing r hands out with
  | nil =>
    cases hf
    exact ⟨[], (List.append_nil _).symm, Passed.none h []⟩
  | cons op ready ih =>
    unfold Ring.slipPosixFinishReady at hf
    by_cases hroom : out.length < max
    swap
    · rw [if_neg hroom] at hf
      cases hf
      exact ⟨[], (List.append_nil _).symm, Passed.none h _⟩
    rw [if_pos hroom] at hf
    cases hretry : r.retry op (attempts op) with
    | none =>
      rw [hretry] at hf
      cases hf
    | some p =>
      obtain ⟨r₁, d⟩ := p
      rw [hretry] at hf
      obtain ⟨free, backlog, hinv⟩ := h
      obtain ⟨hop, hnodup⟩ := List.nodup_cons.mp hnodup
      have hone := hinv.retry (hready op List.mem_cons_self) hretry
      have hleft : ∀ x ∈ ready, x ∈ r₁.waiting := by
        intro x hx
        apply hone.stays (hready x (List.mem_cons_of_mem op hx))
        rw [List.mem_singleton]
        rintro rfl
        exact hop hx
      obtain ⟨done, hout, hrest⟩ := ih hone.order hnodup hleft hf
      refine ⟨d.toList ++ done, ?_, ?_⟩
      · rw [hout, List.append_assoc]
      · rw [List.map_append]
        exact hone.trans hrest

/-- A parked op is cancelled: it leaves the set and is posted. -/
theorem InOrder.cancelTarget (h : InOrder ⟨r, hands⟩) (hop : op ∈ r.waiting)
    (links : List (Slot × Option Slot)) (reads : List ℕ) :
    InOrder ⟨(r.unpark op links).cancelTarget op reads, hands⟩ ∧
      ((r.unpark op links).cancelTarget op reads).waiting.length + 1 = r.waiting.length := by
  obtain ⟨free, backlog, hinv⟩ := h
  obtain ⟨hout, hperm, -⟩ := hinv.unpark hop links
  obtain ⟨free', backlog', hposted⟩ := hout.post List.mem_cons_self (-ecanceled) reads
  rw [List.erase_cons_head] at hposted
  rw [cancelTarget_eq]
  exact ⟨⟨free', backlog', hposted.vault, hposted.bagged, hposted.places⟩, hperm.length_eq.symm⟩

/-- The loop of a cancel ends: an op leaves at the index, or the index goes up. -/
theorem InOrder.cancelWaiting (h : InOrder ⟨r, hands⟩) (c : Slot)
    (takes : Slot → List (Slot × Option Slot) × List ℕ) {fuel i : ℕ} (hi : i ≤ r.waiting.length)
    (hfuel : r.waiting.length < fuel + i) (count : ℕ) :
    ∃ r' count', Ring.cancelWaiting c takes fuel r i count = some (r', count') ∧
      InOrder ⟨r', hands⟩ := by
  induction fuel generalizing r i count with
  | zero => omega
  | succ fuel ih =>
    unfold Ring.cancelWaiting
    cases ht : r.waiting[i]? with
    | none => exact ⟨r, count, rfl, h⟩
    | some t =>
      have hlt : i < r.waiting.length := (List.getElem?_eq_some_iff.mp ht).1
      obtain ⟨htaken, hlen⟩ :=
        h.cancelTarget (List.mem_of_getElem? ht) (takes t).1 (takes t).2
      dsimp only
      by_cases hname : cancelNames (r.opPool c).sqe (r.opPool t).sqe = true
      · rw [if_pos hname]
        by_cases hall : cancelAll (r.opPool c).sqe = true
        · -- the swap has put another op at the index
          rw [if_pos hall]
          exact ih htaken (by omega) (by omega) _
        · rw [if_neg hall]
          exact ⟨_, _, rfl, htaken⟩
      · rw [if_neg hname]
        exact ih h hlt (by omega) count

theorem InOrder.step (h : s.InOrder) {l : ParkedSetLabel} {s' : ParkedSet} (hown : s.Owns l)
    (hs : machine.step s l = some s') : s'.InOrder := by
  obtain ⟨free, backlog, hinv⟩ := h
  cases l with
  | take sqe => exact hinv.take hs
  | write op o =>
    cases hs
    exact ⟨free, backlog, (hinv.write hown o).1⟩
  | post op res reads =>
    cases hs
    exact hinv.post hown res reads
  | read k =>
    cases hs
    exact ⟨free, backlog, hinv.read k⟩
  | emit u res fl reads =>
    cases hs
    obtain ⟨free', backlog', hemit, -⟩ := hinv.emit u res fl reads
    exact ⟨free', backlog', hemit⟩
  | park op armed links =>
    cases hs
    unfold ParkedSet.park
    cases hp : s.ring.park op armed links with
    | mk r ok =>
      obtain ⟨hparked, -⟩ := hinv.park hown hp
      cases ok with
      | true => exact ⟨free, backlog, hparked⟩
      | false => exact ⟨free, backlog, hparked⟩
  | unpark op links =>
    cases hs
    unfold ParkedSet.unpark
    by_cases hop : op ∈ s.ring.waiting
    · rw [if_pos hop]
      exact ⟨free, backlog, (hinv.unpark hop links).1⟩
    · rw [if_neg hop, hinv.unpark_else hop links]
      exact ⟨free, backlog, hinv⟩
  | cancel c takes =>
    obtain ⟨⟨r, count⟩, hcancel, rfl⟩ := Option.map_eq_some_iff.mp hs
    have horder : InOrder ⟨s.ring, s.hands⟩ := ⟨free, backlog, hinv⟩
    obtain ⟨r', count', hcancel', hend⟩ :=
      horder.cancelWaiting c takes (Nat.zero_le _) (Nat.lt_succ_self _) 0
    rw [hcancel] at hcancel'
    cases hcancel'
    exact hend
  | pass attempts ready max =>
    obtain ⟨⟨r, out⟩, hpass, rfl⟩ := Option.map_eq_some_iff.mp hs
    have horder : InOrder ⟨s.ring, s.hands⟩ := ⟨free, backlog, hinv⟩
    obtain ⟨done, rfl, hpassed⟩ := horder.finishReady hown.1 hown.2 hpass
    exact hpassed.order

theorem setup_inOrder (n : ℕ) (e : UInt32) : (setup n e).InOrder := by
  refine ⟨List.range n, [], Vault.emptyVault_rep n e, indexed_nil _, ?_⟩
  exact fun _ => rfl

end ParkedSet

/-! ### Passes return, and are those of the whole machine -/

theorem EngOp.onceUnlessDontwait_again (o : EngOp) (events : UInt16) :
    (o.onceUnlessDontwait events .again).verdict ≠ none := by
  unfold EngOp.onceUnlessDontwait
  split <;> nofun

/-- A call that would block ends the try. -/
theorem EngOp.again_returns (o : EngOp) : (o.slipPosixTry .again).verdict ≠ none := by
  unfold EngOp.slipPosixTry
  cases o.sqe.opcode with
  | recv =>
    dsimp only
    split
    · nofun
    split
    · nofun
    · exact o.onceUnlessDontwait_again _
  | send | sendmsg => exact o.onceUnlessDontwait_again _
  | recvmsg =>
    dsimp only
    split
    · unfold EngOp.runRecvmsgMultishot
      split
      · nofun
      split <;> nofun
    · exact o.onceUnlessDontwait_again _
  | pollAdd =>
    dsimp only
    split
    · unfold EngOp.runPollMultishot
      dsimp only
      split <;> nofun
    · unfold EngOp.runPoll
      split <;> nofun
  | connect =>
    dsimp only
    unfold EngOp.tryConnect
    split
    · split <;> nofun
    · nofun
  | accept | socket =>
    dsimp only
    split <;> nofun
  | nop | read | write | close | bind | listen | shutdown | statx | unlinkat | uringCmd | openat | openat2
  | pollRemove | asyncCancel | msgRing | other code => nofun

section Returns
variable {attempts : Slot → Attempt}

theorem Ring.slipPosixTry_returns {turns : List (OsAnswer × List ℕ)} (op : Slot) (r : Ring)
    (hturns : ∃ turn ∈ turns, turn.1 = .again) : ∃ p, Ring.slipPosixTry op r turns = some p := by
  induction turns generalizing r with
  | nil =>
    obtain ⟨turn, hmem, -⟩ := hturns
    exact absurd hmem List.not_mem_nil
  | cons turn turns ih =>
    obtain ⟨a, reads⟩ := turn
    cases hv : ((r.opPool op).slipPosixTry a).verdict with
    | some v =>
      simp only [Ring.slipPosixTry, hv]
      exact ⟨_, rfl⟩
    | none =>
      simp only [Ring.slipPosixTry, hv]
      apply ih
      obtain ⟨turn, hmem, hagain⟩ := hturns
      rcases List.mem_cons.mp hmem with rfl | hmem
      · -- a turn that goes round was not answered EAGAIN
        have hagain : a = .again := hagain
        rw [hagain] at hv
        exact absurd hv (EngOp.again_returns _)
      · exact ⟨turn, hmem, hagain⟩

theorem Ring.retry_returns {t : Attempt} (op : Slot) (r : Ring)
    (hturns : ∃ turn ∈ t.turns, turn.1 = .again) : ∃ p, r.retry op t = some p := by
  obtain ⟨p, htry⟩ := Ring.slipPosixTry_returns op (r.unpark op t.leaves) hturns
  unfold Ring.retry
  rw [htry]
  exact ⟨_, rfl⟩

/-- A pass whose calls come to an EAGAIN returns. -/
theorem Ring.slipPosixFinishReady_returns {ready : List Slot} (r : Ring) (max : ℕ)
    (out : List (Slot × Int32))
    (hturns : ∀ x ∈ ready, ∃ turn ∈ (attempts x).turns, turn.1 = .again) :
    ∃ p, Ring.slipPosixFinishReady attempts max r ready out = some p := by
  induction ready generalizing r out with
  | nil => exact ⟨_, rfl⟩
  | cons op ready ih =>
    unfold Ring.slipPosixFinishReady
    by_cases hroom : out.length < max
    · obtain ⟨⟨r₁, d⟩, hretry⟩ := Ring.retry_returns op r (hturns op List.mem_cons_self)
      rw [if_pos hroom, hretry]
      exact ih r₁ _ fun x hx => hturns x (List.mem_cons_of_mem op hx)
    · rw [if_neg hroom]
      exact ⟨_, rfl⟩

end Returns

section Whole
variable {s : Posix} {r r' : Ring} {op : Slot} {ready : List Slot} {f : Frame} {forever : Bool}
  {done : List (Slot × Int32)}

theorem Posix.turn_ring (s : Posix) (op : Slot) (a : OsAnswer) (reads : List ℕ) :
    (s.turn op a reads).2 = s.setRing (s.core.ring.tryTurn op a reads) := by
  unfold Posix.turn Ring.tryTurn
  dsimp only
  cases ((s.core.ring.opPool op).slipPosixTry a).emits <;> rfl

/-- The turns of a try, in the machine with the worker and the other rings. -/
theorem Posix.try_run {t : Attempt} {turns : List (OsAnswer × List ℕ)} {v : Verdict}
    (hpc : s.core.pc = .wait f forever done) (hback : s.back = .retrying op ready)
    (ht : Ring.slipPosixTry op s.core.ring turns = some (r, v)) :
    ∃ tr s', Run posixMachine (fun _ _ => True) s tr s' ∧ s'.core.ring = (r.afterTry op t v).1 ∧
      s'.back = .finishing ready ∧
      s'.core.pc = .wait f forever (done ++ (r.afterTry op t v).2.toList) := by
  induction turns generalizing s with
  | nil => cases ht
  | cons turn turns ih =>
    obtain ⟨a, reads⟩ := turn
    have hout : s.out (.tries a t.armed t.links reads) = s.retry a t.armed t.links reads := by
      simp only [Posix.out, hback, reduceCtorEq, if_false]
    cases hv : ((s.core.ring.opPool op).slipPosixTry a).verdict with
    | none =>
      simp only [Ring.slipPosixTry, hv] at ht
      let s₁ : Posix := s.setRing (s.core.ring.tryTurn op a reads)
      have hpc₁ : s₁.core.pc = .wait f forever done := hpc
      have hback₁ : s₁.back = .retrying op ready := hback
      have hstep : posixMachine.step s (.tries a t.armed t.links reads) = some s₁ := by
        simp only [posixMachine, hout, Posix.retry, hback, Posix.andThen, Option.bind_some, hv,
          Posix.quiet, Option.map_some, Posix.turn_ring]
        rfl
      obtain ⟨tr, s', hrun, hend⟩ := ih hpc₁ hback₁ ht
      exact ⟨_, s', Run.cons trivial hstep hrun, hend⟩
    | some v' =>
      simp only [Ring.slipPosixTry, hv, Option.some.injEq, Prod.mk.injEq] at ht
      obtain ⟨rfl, rfl⟩ := ht
      suffices h : ∃ s', posixMachine.step s (.tries a t.armed t.links reads) = some s' ∧
          s'.core.ring = ((s.core.ring.tryTurn op a reads).afterTry op t v').1 ∧
          s'.back = .finishing ready ∧ s'.core.pc = .wait f forever
            (done ++ ((s.core.ring.tryTurn op a reads).afterTry op t v').2.toList) by
        obtain ⟨s', hstep, hend⟩ := h
        exact ⟨_, s', Run.start.next trivial hstep, hend⟩
      have hdone (r₁ : Ring) (res : Int32) : ∃ p,
          (s.setRing r₁).inCore (.handBack op res) (.finishing ready) = some p ∧
          p.2.core.ring = r₁ ∧ p.2.back = .finishing ready ∧
          p.2.core.pc = .wait f forever (done ++ [(op, res)]) := by
        simp only [Posix.inCore, Core.step, Core.handBack, Posix.setRing, hpc, Option.map_some]
        exact ⟨_, rfl, rfl, rfl, rfl⟩
      simp only [posixMachine, hout, Posix.retry, hback, Posix.andThen, Option.bind_some, hv,
        Posix.turn_ring]
      cases v' with
      | ran res =>
        obtain ⟨p, hp, hend⟩ := hdone (s.core.ring.tryTurn op a reads) res
        simp only [hp, Option.map_some]
        exact ⟨p.2, rfl, hend⟩
      | file =>
        obtain ⟨p, hp, hend⟩ := hdone (s.core.ring.tryTurn op a reads) (-eopnotsupp)
        simp only [hp, Option.map_some]
        exact ⟨p.2, rfl, hend⟩
      | park events =>
        cases hpark : (s.core.ring.tryTurn op a reads).park op t.armed t.links with
        | mk r₂ ok =>
          have hpark' : (s.setRing (s.core.ring.tryTurn op a reads)).core.ring.park op t.armed t.links =
            (r₂, ok) := hpark
          simp only [hpark', Ring.afterTry, hpark]
          cases ok with
          | true => exact ⟨_, rfl, rfl, rfl, by simpa [Posix.setRing] using hpc⟩
          | false =>
            obtain ⟨p, hp, hend⟩ := hdone r₂ (-ebusy)
            have hset : (s.setRing (s.core.ring.tryTurn op a reads)).setRing r₂ = s.setRing r₂ := rfl
            simp only [hset, hp, Option.map_some]
            exact ⟨p.2, rfl, hend⟩

/-- A turn of the loop is one of the machine's, where the done ops have room. -/
theorem Posix.retry_run {t : Attempt} {d : Option (Slot × Int32)}
    (hpc : s.core.pc = .wait f forever done) (hback : s.back = .finishing (op :: ready))
    (hroom : done.length < s.core.ring.opPoolN) (hr : s.core.ring.retry op t = some (r', d)) :
    ∃ tr s', Run posixMachine (fun _ _ => True) s tr s' ∧ s'.core.ring = r' ∧
      s'.back = .finishing ready ∧ s'.core.pc = .wait f forever (done ++ d.toList) := by
  obtain ⟨⟨r, v⟩, htry, hafter⟩ := Option.map_eq_some_iff.mp hr
  let s₁ : Posix := { s.setRing (s.core.ring.unpark op t.leaves) with back := .retrying op ready }
  have hpc₁ : s₁.core.pc = .wait f forever done := hpc
  have hback₁ : s₁.back = .retrying op ready := rfl
  have hstep : posixMachine.step s (.ready t.leaves) =
      some s₁ := by
    simp only [posixMachine, Posix.out, Posix.nextReady, hpc, hback, if_pos hroom, Posix.quiet,
      Option.map_some]
    rfl
  obtain ⟨tr, s', hrun, hring, hfin, hdone⟩ := Posix.try_run hpc₁ hback₁ htry
  refine ⟨_, s', Run.cons trivial hstep hrun, ?_, hfin, ?_⟩
  · rw [hring]
    exact congrArg Prod.fst hafter
  · rw [hdone]
    exact congrArg (fun p => Pc.wait f forever (done ++ p.2.toList)) hafter

/-! The pool is as large as before. -/

theorem Ring.unpark_opPoolN (r : Ring) (op : Slot) (links : List (Slot × Option Slot)) :
    (r.unpark op links).opPoolN = r.opPoolN := by
  unfold Ring.unpark
  dsimp only
  split
  · rfl
  · rw [show (Ring.relink _ op links).opPoolN = _ from congrArg (·.opPoolN) (relink_spec _ op links).1.core]
    unfold ReadyBackend.leaveWaiting Ring.core
    dsimp only
    split <;> rfl

theorem Ring.slipPosixTry_opPoolN {turns : List (OsAnswer × List ℕ)} {v : Verdict}
    (ht : Ring.slipPosixTry op r turns = some (r', v)) : r'.opPoolN = r.opPoolN := by
  have hturn (r : Ring) (a : OsAnswer) (reads : List ℕ) : (r.tryTurn op a reads).opPoolN = r.opPoolN := by
    unfold Ring.tryTurn
    dsimp only
    split
    · exact slipEngineEmit_opPoolN _ _ _ _ _
    · rfl
  induction turns generalizing r with
  | nil => cases ht
  | cons turn turns ih =>
    obtain ⟨a, reads⟩ := turn
    cases hv : ((r.opPool op).slipPosixTry a).verdict with
    | none =>
      simp only [Ring.slipPosixTry, hv] at ht
      exact (ih ht).trans (hturn r a reads)
    | some v' =>
      simp only [Ring.slipPosixTry, hv, Option.some.injEq, Prod.mk.injEq] at ht
      rw [← ht.1]
      exact hturn r a reads

theorem Ring.retry_opPoolN {t : Attempt} {d : Option (Slot × Int32)}
    (hr : r.retry op t = some (r', d)) : r'.opPoolN = r.opPoolN := by
  obtain ⟨⟨r₁, v⟩, htry, hafter⟩ := Option.map_eq_some_iff.mp hr
  have htried : r₁.opPoolN = r.opPoolN :=
    (Ring.slipPosixTry_opPoolN htry).trans (r.unpark_opPoolN op t.leaves)
  rw [← htried, show r' = (r₁.afterTry op t v).1 from (congrArg Prod.fst hafter).symm]
  cases v with
  | ran res => rfl
  | file => rfl
  | park events =>
    cases hp : r₁.park op t.armed t.links with
    | mk r₂ ok =>
      have hpool : r₂.opPoolN = r₁.opPoolN := congrArg (·.opPoolN) (park_spec hp).1.core
      simp only [Ring.afterTry, hp]
      cases ok <;> exact hpool

/-- A pass over what a wait found is the machine's pass. -/
theorem Posix.finishReady_run {attempts : Slot → Attempt} {out : List (Slot × Int32)}
    (hpc : s.core.pc = .wait f forever done) (hback : s.back = .finishing ready)
    (hf : Ring.slipPosixFinishReady attempts s.core.ring.opPoolN s.core.ring ready done =
      some (r', out)) :
    ∃ tr s', Run posixMachine (fun _ _ => True) s tr s' ∧ s'.core.ring = r' ∧
      s'.core.pc = .wait f forever out := by
  induction ready generalizing s done with
  | nil =>
    obtain ⟨rfl, rfl⟩ := Prod.mk.inj (Option.some.inj hf)
    exact ⟨[], s, Run.start, rfl, hpc⟩
  | cons op ready ih =>
    unfold Ring.slipPosixFinishReady at hf
    by_cases hroom : done.length < s.core.ring.opPoolN
    · cases hretry : s.core.ring.retry op (attempts op) with
      | none =>
        rw [if_pos hroom, hretry] at hf
        cases hf
      | some p =>
        obtain ⟨r₁, d⟩ := p
        rw [if_pos hroom, hretry] at hf
        dsimp only at hf
        obtain ⟨tr, s₁, hrun, hring, hback₁, hpc₁⟩ := Posix.retry_run hpc hback hroom hretry
        rw [← Ring.retry_opPoolN hretry, ← hring] at hf
        obtain ⟨tr', s', hrest, hend⟩ := ih hpc₁ hback₁ hf
        exact ⟨tr ++ tr', s', hrun.append hrest, hend⟩
    · rw [if_neg hroom] at hf
      obtain ⟨rfl, rfl⟩ := Prod.mk.inj (Option.some.inj hf)
      exact ⟨[], s, Run.start, rfl, hpc⟩

end Whole

namespace ParkedSet
variable {s : ParkedSet} {r r' : Ring} {hands : List Slot}

/-! ### The bag, over every run -/

/-- `waiting[]` is an indexed bag within the pool. -/
structure Indexes (r : Ring) : Prop where
  bound : r.waiting.length ≤ r.opPoolN
  places : ∀ j x, r.waiting[j]? = some x → (r.opPool x).waitSlot = j
  once : r.waiting.Nodup

/-- Each ready op is finished or parked, and that once; every other parked op stays as it is. -/
structure Ends (r r' : Ring) (ready out : List Slot) : Prop where
  each : ∀ x ∈ ready, (out.count x = 1 ∧ x ∉ r'.waiting) ∨ (r'.waiting.count x = 1 ∧ x ∉ out)
  only : ∀ x ∈ out, x ∈ ready
  others : ∀ x ∈ r.waiting, x ∉ ready → r'.waiting.count x = 1 ∧ (r.opPool x).Kept (r'.opPool x)

theorem InOrder.indexes (h : s.InOrder) : Indexes s.ring := by
  obtain ⟨free, backlog, hinv⟩ := h
  exact ⟨hinv.length_le.2, hinv.bagged, hinv.bagged.nodup⟩

theorem Passed.ends {ready done : List Slot} (h : Passed r r' hands ready done)
    (hnodup : r.waiting.Nodup) (hready : ∀ x ∈ ready, x ∈ r.waiting) : Ends r r' ready done := by
  have hcount : ∀ x ∈ r.waiting, done.count x + r'.waiting.count x = 1 := by
    intro x hx
    rw [← List.count_append, ← h.set.count_eq x]
    exact List.count_eq_one_of_mem hnodup hx
  refine ⟨?_, fun x hx => h.gone.subset hx, ?_⟩
  · intro x hx
    have hone := hcount x (hready x hx)
    simp only [← List.count_eq_zero]
    omega
  · intro x hx hout
    have hone := hcount x hx
    have hzero : done.count x = 0 := List.count_eq_zero.mpr fun hmem => hout (h.gone.subset hmem)
    exact ⟨by omega, h.kept x hx hout⟩

/-- Whatever the backend's arm and the retries answer, and in whatever order. -/
theorem parked_set_sound {n : ℕ} {e : UInt32} {tr : List Empty}
    (hr : Run machine Owns (setup n e) tr s) :
    Indexes s.ring ∧ ∀ (attempts : Slot → Attempt) (ready : List Slot) (max : ℕ) (r' : Ring)
      (out : List (Slot × Int32)), ready.Nodup → (∀ x ∈ ready, x ∈ s.ring.waiting) →
      ready.length ≤ max → Ring.slipPosixFinishReady attempts max s.ring ready [] = some (r', out) →
      Ends s.ring r' ready (out.map Prod.fst) := by
  have horder : s.InOrder := by
    apply hr.invariant (fun _ s => s.InOrder)
    · exact setup_inOrder n e
    · exact fun _ _ _ _ _ h hown hs => h.step hown hs
  refine ⟨horder.indexes, ?_⟩
  intro attempts ready max r' out hnodup hready _ hf
  have hring : InOrder ⟨s.ring, s.hands⟩ := horder
  obtain ⟨done, rfl, hpassed⟩ := hring.finishReady hnodup hready hf
  exact hpassed.ends horder.indexes.once hready

/-- Two ops park; the first is ready, reads five bytes and is done, and the second goes to its place. -/
theorem parked_set_sound_two : ∃ tr s r' out, Run machine Owns (setup 2 1) tr s ∧ Indexes s.ring ∧
    s.ring.waiting = [0, 1] ∧ Ends s.ring r' [0] (out.map Prod.fst) ∧ out = [(0, 5)] ∧
    r'.waiting = [1] := by
  let attempts : Slot → Attempt := fun _ => { turns := [(.got 5 0 0, [])] }
  have h : Run machine Owns (setup 2 1) [] _ := .start
  have h := h.next (l := .take { opcode := .read, fd := 3 }) (by exact trivial) rfl
  have h := h.next (l := .park 0 true []) (by exact List.mem_singleton_self 0) rfl
  have h := h.next (l := .take { opcode := .read, fd := 4 }) (by exact trivial) rfl
  have h := h.next (l := .park 1 true []) (by exact List.mem_singleton_self 1) rfl
  obtain ⟨hindexes, hpass⟩ := parked_set_sound h
  have hends := hpass attempts [0] 2 _ [(0, 5)] (by decide) (by decide) (by decide) rfl
  exact ⟨_, _, _, _, h, hindexes, rfl, hends, rfl, rfl⟩

end ParkedSet

end SlipstreamIO.Engine
