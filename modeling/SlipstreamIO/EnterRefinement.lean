import SlipstreamIO.ChainInvariants
import SlipstreamIO.CompletionSpecs

/-! The engine refines the abstract ring: which list each slot of the pool is on, which SQE it
carries, and the step of the abstract ring that each step of the engine is. -/
namespace SlipstreamIO.Engine

open ThreadedList Runs

namespace Pc

/-- The op that waits for its post in `process_queue`. -/
def posting : Pc → Option (Slot × Int32)
  | .post _ op res => some (op, res)
  | _ => none

/-- The ops `be->wait` has handed back and `complete` has not finished. -/
def done : Pc → List (Slot × Int32)
  | .wait _ _ done | .complete _ done => done
  | _ => []

def batchHead : Pc → Option Slot
  | .take _ _ _ h _ => h
  | _ => none

def batchTail : Pc → Option Slot
  | .take _ _ _ _ t => t
  | _ => none

/-- The slots enter has in its own hands. -/
def inEnter (pc : Pc) : List Slot :=
  pc.executing.toList ++ pc.posting.toList.map Prod.fst ++ pc.done.map Prod.fst

end Pc

namespace Core

/-- The linked op the queue waits for: from the moment the backend takes it. -/
def waitingFor (s : Core) : Option Slot :=
  match s.pc with
  | .exec _ op true true => some op
  | _ => s.ring.blocking

/-- `process_queue` has an op in hand. -/
def busy (s : Core) : Bool :=
  match s.pc with
  | .exec _ _ _ _ | .post _ _ _ => true
  | _ => false

/-- The slot is where an op of the given stage is. -/
def At (s : Core) (queued : List Slot) (x : Slot) : Stage → Prop
  | .queued => x ∈ queued
  | .running => s.pc.executing = some x
  | .posting res => s.pc.posting = some (x, res)
  | .held => s.hands x = .held
  | .off res => s.hands x = .off res
  | .returned res => (x, res) ∈ s.pc.done
  | .unborn | .closed => False

/-- The backend holds the slot. -/
def holds (s : Core) (x : Slot) : ℕ := if s.hands x = .none then 0 else 1

end Core

/-- The parts of an SQE that no step changes. -/
structure Copies (t s : Sqe) : Prop where
  userData : t.userData = s.userData
  opcode : t.opcode = s.opcode
  ioLink : t.flags.ioLink = s.flags.ioLink
  cqeSkipSuccess : t.flags.cqeSkipSuccess = s.flags.cqeSkipSuccess

theorem Copies.refl (s : Sqe) : Copies s s := ⟨rfl, rfl, rfl, rfl⟩

theorem Copies.trans {u t s : Sqe} (h : Copies u t) (h' : Copies t s) : Copies u s :=
  ⟨h.1.trans h'.1, h.2.trans h'.2, h.3.trans h'.3, h.4.trans h'.4⟩

/-- Each slot at a place carries an SQE of that stage, each live SQE is at one slot. -/
structure Tracks (at_ : Slot → Stage → Prop) (op : Slot → EngOp) (a : Chains) : Prop where
  owner : ∀ x st, at_ x st →
    ∃ i, (op x).seq = some i ∧ a.stage i = st ∧ Copies (op x).sqe (a.sqe i)
  slot : ∀ i, (a.stage i).isLive = true → ∃ x, at_ x (a.stage i) ∧ (op x).seq = some i
  inj : ∀ x y st st', at_ x st → at_ y st' → (op x).seq = (op y).seq → x = y

theorem Tracks.update {at_ at' : Slot → Stage → Prop} {op op' : Slot → EngOp} {a a' : Chains}
    (h : Tracks at_ op a) (x : Slot) (i : ℕ) (st : Stage)
    (hmine : ∀ y u, at_ y u → (op y).seq = some i → y = x)
    (hx : ∀ u, at_ x u → (op x).seq = some i)
    (hat : ∀ y u, at' y u ↔ (y = x ∧ u = st ∧ st.isLive = true) ∨ (y ≠ x ∧ at_ y u))
    (hseq : st.isLive = true → (op' x).seq = some i ∧ Copies (op' x).sqe (a'.sqe i))
    (hop : ∀ y u, y ≠ x → at_ y u →
      (op' y).seq = (op y).seq ∧ Copies (op' y).sqe (op y).sqe)
    (hstage : ∀ j, a'.stage j = if j = i then st else a.stage j)
    (hsqe : ∀ j, j ≠ i → a'.sqe j = a.sqe j) : Tracks at' op' a' := by
  have hne (y : Slot) (u : Stage) (j : ℕ) (hy : at_ y u) (hyx : y ≠ x)
      (hj : (op y).seq = some j) : j ≠ i := by
    rintro rfl
    exact hyx (hmine y u hy hj)
  refine ⟨fun y u hy => ?_, fun j hj => ?_, fun y z u u' hy hz he => ?_⟩
  · rcases (hat y u).mp hy with ⟨rfl, rfl, hl⟩ | ⟨hyx, hy⟩
    · exact ⟨i, (hseq hl).1, by rw [hstage, if_pos rfl], (hseq hl).2⟩
    · obtain ⟨j, hj, hst, hc⟩ := h.owner y u hy
      have hji := hne y u j hy hyx hj
      obtain ⟨hs, hc'⟩ := hop y u hyx hy
      exact ⟨j, hs.trans hj, by rw [hstage, if_neg hji, hst], by rw [hsqe j hji]; exact hc'.trans hc⟩
  · rw [hstage] at hj ⊢
    split at hj
    · next hji =>
      rw [if_pos hji]
      exact ⟨x, (hat x st).mpr (Or.inl ⟨rfl, rfl, hj⟩), by rw [(hseq hj).1, hji]⟩
    · next hji =>
      rw [if_neg hji]
      obtain ⟨y, hy, hys⟩ := h.slot j hj
      have hyx : y ≠ x := by
        rintro rfl
        exact hji (Option.some.inj (hys.symm.trans (hx _ hy)))
      exact ⟨y, (hat y _).mpr (Or.inr ⟨hyx, hy⟩), (hop y _ hyx hy).1.trans hys⟩
  · rcases (hat y u).mp hy with ⟨rfl, rfl, hl⟩ | ⟨hyx, hy⟩
    · rcases (hat z u').mp hz with ⟨rfl, -, -⟩ | ⟨hzx, hz⟩
      · rfl
      · rw [(hseq hl).1, (hop z u' hzx hz).1] at he
        exact absurd (hmine z u' hz he.symm) hzx
    · rcases (hat z u').mp hz with ⟨rfl, rfl, hl⟩ | ⟨hzx, hz⟩
      · rw [(hseq hl).1, (hop y u hyx hy).1] at he
        exact absurd (hmine y u hy he) hyx
      · rw [(hop y u hyx hy).1, (hop z u' hzx hz).1] at he
        exact h.inj y z u u' hy hz he

/-- An op moves from one place to another, or leaves for the free list or the backlog. -/
theorem Tracks.move {at_ at' : Slot → Stage → Prop} {op op' : Slot → EngOp} {a a' : Chains}
    (h : Tracks at_ op a) {x : Slot} {i : ℕ} {u : Stage} (st : Stage) (hx : at_ x u)
    (hi : (op x).seq = some i)
    (hat : ∀ y w, at' y w ↔ (y = x ∧ w = st ∧ st.isLive = true) ∨ (y ≠ x ∧ at_ y w))
    (hop : ∀ y w, at_ y w → (y ≠ x ∨ st.isLive = true) →
      (op' y).seq = (op y).seq ∧ Copies (op' y).sqe (op y).sqe)
    (hstage : ∀ j, a'.stage j = if j = i then st else a.stage j) (hsqe : a'.sqe = a.sqe) :
    Tracks at' op' a' := by
  refine h.update x i st (fun y w hy hyi => h.inj y x w u hy hx (hyi.trans hi.symm)) (fun _ _ => hi) hat
    (fun hl => ?_) (fun y w hyx hy => hop y w hy (Or.inl hyx)) hstage (fun j _ => by rw [hsqe])
  obtain ⟨hs, hc⟩ := hop x u hx (Or.inr hl)
  obtain ⟨j, hj, -, hcj⟩ := h.owner x u hx
  cases hj.symm.trans hi
  exact ⟨hs.trans hi, by rw [hsqe]; exact hc.trans hcj⟩

/-- Nothing moves. -/
theorem Tracks.same {at_ at' : Slot → Stage → Prop} {op op' : Slot → EngOp} {a a' : Chains}
    (h : Tracks at_ op a) (hat : ∀ y w, at' y w ↔ at_ y w)
    (hop : ∀ y w, at_ y w → (op' y).seq = (op y).seq ∧ Copies (op' y).sqe (op y).sqe)
    (hstage : a'.stage = a.stage) (hsqe : a'.sqe = a.sqe) : Tracks at' op' a' where
  owner := by
    intro x st hx
    obtain ⟨i, hi, hst, hc⟩ := h.owner x st ((hat x st).mp hx)
    obtain ⟨hs, hc'⟩ := hop x st ((hat x st).mp hx)
    exact ⟨i, hs.trans hi, by rw [hstage, hst], by rw [hsqe]; exact hc'.trans hc⟩
  slot := by
    intro i hi
    rw [hstage] at hi ⊢
    obtain ⟨x, hx, hs⟩ := h.slot i hi
    exact ⟨x, (hat x _).mpr hx, (hop x _ hx).1.trans hs⟩
  inj := by
    intro x y st st' hx hy he
    rw [hat] at hx hy
    rw [(hop x st hx).1, (hop y st' hy).1] at he
    exact h.inj x y st st' hx hy he

/-- The pending op of the two levels: held or handed back, or finished with its ticket up. Its slot
may then carry another SQE, but one that has not left the queue. -/
structure Pends (s : Core) (queued : List Slot) (a : Chains) (b : Slot) (i : ℕ) : Prop where
  live : a.ticket = none → s.ring.blockedDone = none ∧ (s.ring.opPool b).seq = some i ∧
    s.At queued b (a.stage i)
  ticketed : ∀ j v, a.ticket = some (j, v) →
    j = i ∧ s.ring.blockedDone = some b ∧ s.ring.blockedFailed = v ∧
      ∀ st, s.At queued b st → st = .queued ∨ ∃ res, st = .off res

/-- No op changes its place. -/
structure SamePlaces (s s' : Core) : Prop where
  executing : s'.pc.executing = s.pc.executing
  posting : s'.pc.posting = s.pc.posting
  done : s'.pc.done = s.pc.done
  batchHead : s'.pc.batchHead = s.pc.batchHead
  batchTail : s'.pc.batchTail = s.pc.batchTail
  queueHead : s'.ring.queueHead = s.ring.queueHead
  queueTail : s'.ring.queueTail = s.ring.queueTail
  hands : s'.hands = s.hands
  accepted : s'.accepted = s.accepted

theorem SamePlaces.inEnter {s s' : Core} (h : SamePlaces s s') :
    s'.pc.inEnter = s.pc.inEnter := by
  rw [Pc.inEnter, Pc.inEnter, h.executing, h.posting, h.done]

theorem SamePlaces.at_iff {s s' : Core} (h : SamePlaces s s') (queued : List Slot) (x : Slot)
    (st : Stage) : s'.At queued x st ↔ s.At queued x st := by
  cases st <;> simp only [Core.At, h.executing, h.posting, h.done, h.hands]

/-- The slots of the pool are on the lists they should be on, and carry the SQEs of the abstract
ring. `batch` is what the current call has taken off the submission ring and not yet put behind
the queue. -/
structure Placed (s : Core) (a : Chains) (free backlog queue batch : List Slot) : Prop where
  vault : s.ring.toVault.Rep free backlog
  queueList : IsQueue s.ring.next s.ring.queueHead s.ring.queueTail queue
  batchList : IsQueue s.ring.next s.pc.batchHead s.pc.batchTail batch
  places : ∀ x, free.count x + backlog.count x + queue.count x + batch.count x +
    s.pc.inEnter.count x + s.holds x = if x < s.ring.opPoolN then 1 else 0
  queueSeq : (queue ++ batch).map (fun x => (s.ring.opPool x).seq) = a.queue.map some
  tracks : Tracks (s.At (queue ++ batch)) s.ring.opPool a
  accepted : a.n = s.accepted

/-- The chain's standing, the op in hand and the pending op are those of the abstract ring. -/
structure Governs (s : Core) (a : Chains) (queued : List Slot) : Prop where
  failed : s.ring.chainFailed = a.failed
  busy : s.busy = a.current.isSome
  exec : ∀ f op l t, s.pc = .exec f op l t →
    s.ring.blocking = none ∧ ∃ i, a.current = some i ∧ l = a.linked i
  waiting : s.waitingFor.isSome = a.blocking.isSome
  pends : ∀ b i, s.waitingFor = some b → a.blocking = some i → Pends s queued a b i
  idle : s.waitingFor = none → s.ring.blockedDone = none

section Places
variable {s s' : Core} {a a' : Chains} {free backlog queue batch free' backlog' : List Slot}
  {given : List (Option ℕ × Cqe)} {x : Slot} {i : ℕ} {st u : Stage}

theorem Core.At.pos (hx : s.At (queue ++ batch) x st) :
    0 < queue.count x + batch.count x + s.pc.inEnter.count x + s.holds x := by
  have hcount (l : List Slot) (h : x ∈ l) : 0 < l.count x := List.count_pos_iff.mpr h
  cases st with
  | queued =>
    rcases List.mem_append.mp hx with h | h <;> have := hcount _ h <;> omega
  | running =>
    have := hcount s.pc.inEnter (by simp [Pc.inEnter, show s.pc.executing = some x from hx])
    omega
  | posting res =>
    have := hcount s.pc.inEnter (by simp [Pc.inEnter, show s.pc.posting = some (x, res) from hx])
    omega
  | returned res =>
    have := hcount s.pc.inEnter (by
      simp only [Pc.inEnter, List.mem_append, List.mem_map]
      exact Or.inr ⟨(x, res), hx, rfl⟩)
    omega
  | held => simp [Core.holds, show s.hands x = .held from hx]
  | off res => simp [Core.holds, show s.hands x = .off res from hx]
  | unborn => exact hx.elim
  | closed => exact hx.elim

/-- A slot is at one place only. -/
theorem Placed.exclusive (h : Placed s a free backlog queue batch)
    (hx : s.At (queue ++ batch) x st) (hx' : s.At (queue ++ batch) x u) : st = u := by
  obtain ⟨i, hi, hst, -⟩ := h.tracks.owner x st hx
  obtain ⟨j, hj, hu, -⟩ := h.tracks.owner x u hx'
  cases hi.symm.trans hj
  exact hst.symm.trans hu

theorem Placed.outside (h : Placed s a free backlog queue batch)
    (hx : s.At (queue ++ batch) x st) : x ∉ free ∧ x ∉ backlog ∧ x < s.ring.opPoolN := by
  have hp := h.places x
  have hpos := hx.pos
  simp only [← List.count_pos_iff]
  split at hp
  · next hlt => exact ⟨by omega, by omega, hlt⟩
  · omega

theorem Placed.nodup (h : Placed s a free backlog queue batch) : (free ++ backlog).Nodup := by
  rw [List.nodup_iff_count_le_one]
  intro x
  have hp := h.places x
  rw [List.count_append]
  split at hp <;> omega

theorem Placed.nodup_with (h : Placed s a free backlog queue batch)
    (hx : s.At (queue ++ batch) x st) : (free ++ backlog ++ [x]).Nodup := by
  obtain ⟨hf, hb, -⟩ := h.outside hx
  refine List.nodup_append.mpr ⟨h.nodup, List.nodup_singleton x, ?_⟩
  rintro y hy z hz rfl
  rw [List.mem_singleton] at hz
  subst hz
  simp [hf, hb] at hy

theorem Placed.length_le (h : Placed s a free backlog queue batch) :
    free.length ≤ s.ring.opPoolN ∧ backlog.length ≤ s.ring.opPoolN ∧
      queue.length ≤ s.ring.opPoolN := by
  have hnd : (free ++ backlog ++ queue).Nodup := by
    rw [List.nodup_iff_count_le_one]
    intro x
    have hp := h.places x
    rw [List.count_append, List.count_append]
    split at hp <;> omega
  have hsub : free ++ backlog ++ queue ⊆ List.range s.ring.opPoolN := by
    intro x hx
    have hp := h.places x
    have hpos := List.count_pos_iff.mpr hx
    rw [List.count_append, List.count_append] at hpos
    rw [List.mem_range]
    split at hp
    · assumption
    · omega
  have hlen := (List.subperm_of_subset hnd hsub).length_le
  rw [List.length_append, List.length_append, List.length_range] at hlen
  omega

/-- What happens in the vault leaves every op at a place outside it alone. -/
theorem Placed.untouched (h : Placed s a free backlog queue batch) {v : Vault} {ops : List Slot}
    (hc : s.ring.toVault.Completes v free backlog ops given free' backlog')
    (hx : s.At (queue ++ batch) x st) (hne : x ∉ ops) : v.opPool x = s.ring.opPool x := by
  obtain ⟨hf, hb, -⟩ := h.outside hx
  exact hc.others x hf hb hne

/-- The vault works and no op changes its place. -/
theorem Placed.idle (h : Placed s a free backlog queue batch)
    (hc : s.ring.toVault.Completes s'.ring.toVault free backlog [] given free' backlog')
    (hs : SamePlaces s s') (hn : a'.n = a.n) (hsqe : a'.sqe = a.sqe)
    (hstage : a'.stage = a.stage) (hqueue : a'.queue = a.queue) :
    Placed s' a' free' backlog' queue batch := by
  have hsame (y : Slot) (hy : y ∈ queue ++ batch) : s'.ring.opPool y = s.ring.opPool y :=
    h.untouched hc (show s.At (queue ++ batch) y .queued from hy) (List.not_mem_nil)
  have hnext (y : Slot) (hy : y ∈ queue ++ batch) : s'.ring.next y = s.ring.next y := by
    rw [Vault.next, hsame y hy]
    rfl
  refine ⟨hc.rep, ?_, ?_, fun y => ?_, ?_, ?_, by rw [hn, hs.accepted, h.accepted]⟩
  · rw [hs.queueHead, hs.queueTail]
    exact h.queueList.congr (fun y hy => hnext y (List.mem_append_left _ hy))
  · rw [hs.batchHead, hs.batchTail]
    exact h.batchList.congr (fun y hy => hnext y (List.mem_append_right _ hy))
  · have hp := h.places y
    have hcp := hc.places y
    rw [List.count_nil] at hcp
    rw [hs.inEnter, hc.opPoolN, Core.holds, hs.hands]
    rw [Core.holds] at hp
    omega
  · rw [hqueue, ← h.queueSeq]
    exact List.map_congr_left (fun y hy => by rw [hsame y hy])
  · refine h.tracks.same (hs.at_iff _) (fun y w hy => ?_) hstage hsqe
    rw [h.untouched hc hy List.not_mem_nil]
    exact ⟨rfl, .refl _⟩

/-- The op at `x` leaves its place for the free list or the backlog. -/
theorem Placed.close (h : Placed s a free backlog queue batch)
    (hx : s.At (queue ++ batch) x st) (hnq : st ≠ .queued) (hi : (s.ring.opPool x).seq = some i)
    (hc : s.ring.toVault.Completes s'.ring.toVault free backlog [x] given free' backlog')
    (hqh : s'.ring.queueHead = s.ring.queueHead) (hqt : s'.ring.queueTail = s.ring.queueTail)
    (hbh : s'.pc.batchHead = s.pc.batchHead) (hbt : s'.pc.batchTail = s.pc.batchTail)
    (hin : ∀ y, s'.pc.inEnter.count y + s'.holds y + [x].count y =
      s.pc.inEnter.count y + s.holds y)
    (hleft : ∀ y w, s'.At (queue ++ batch) y w → s.At (queue ++ batch) y w ∧ (y = x → w ≠ st))
    (hstay : ∀ y w, s.At (queue ++ batch) y w → y ≠ x → s'.At (queue ++ batch) y w)
    (hacc : s'.accepted = s.accepted) (hn : a'.n = a.n) (hsqe : a'.sqe = a.sqe)
    (hstage : ∀ j, a'.stage j = if j = i then .closed else a.stage j) (hqueue : a'.queue = a.queue) :
    Placed s' a' free' backlog' queue batch := by
  have hat (y : Slot) (w : Stage) :
      s'.At (queue ++ batch) y w ↔ y ≠ x ∧ s.At (queue ++ batch) y w := by
    refine ⟨fun hy => ⟨?_, (hleft y w hy).1⟩, fun hy => hstay y w hy.2 hy.1⟩
    rintro rfl
    exact (hleft y w hy).2 rfl (h.exclusive (hleft y w hy).1 hx)
  have hxq : x ∉ queue ++ batch :=
    fun hmem => hnq (h.exclusive hx (show s.At (queue ++ batch) x .queued from hmem))
  have hsame (y : Slot) (hy : y ∈ queue ++ batch) : s'.ring.opPool y = s.ring.opPool y := by
    refine h.untouched hc (show s.At (queue ++ batch) y .queued from hy) ?_
    rw [List.mem_singleton]
    rintro rfl
    exact hxq hy
  have hnext (y : Slot) (hy : y ∈ queue ++ batch) : s'.ring.next y = s.ring.next y := by
    rw [Vault.next, hsame y hy]
    rfl
  refine ⟨hc.rep, ?_, ?_, fun y => ?_, ?_, ?_, by rw [hn, hacc, h.accepted]⟩
  · rw [hqh, hqt]
    exact h.queueList.congr (fun y hy => hnext y (List.mem_append_left _ hy))
  · rw [hbh, hbt]
    exact h.batchList.congr (fun y hy => hnext y (List.mem_append_right _ hy))
  · have hp := h.places y
    have hcp := hc.places y
    have hiny := hin y
    rw [hc.opPoolN]
    omega
  · rw [hqueue, ← h.queueSeq]
    exact List.map_congr_left (fun y hy => by rw [hsame y hy])
  · refine h.tracks.move .closed hx hi (fun y w => ?_) (fun y w hy hor => ?_) hstage hsqe
    · rw [hat]
      simp [Stage.isLive]
    · have hne : y ∉ [x] := by simpa [Stage.isLive] using hor
      rw [h.untouched hc hy hne]
      exact ⟨rfl, .refl _⟩

/-- The op at `x` moves to another place; the vault keeps its lists. -/
theorem Placed.moved (h : Placed s a free backlog queue batch) (st : Stage)
    (hx : s.At (queue ++ batch) x u) (hi : (s.ring.opPool x).seq = some i)
    (hlive : st.isLive = true) (hring : s'.ring.toVault = s.ring.toVault)
    (hqh : s'.ring.queueHead = s.ring.queueHead) (hqt : s'.ring.queueTail = s.ring.queueTail)
    (hbh : s'.pc.batchHead = s.pc.batchHead) (hbt : s'.pc.batchTail = s.pc.batchTail)
    (hin : ∀ y, s'.pc.inEnter.count y + s'.holds y = s.pc.inEnter.count y + s.holds y)
    (hcame : s'.At (queue ++ batch) x st)
    (hleft : ∀ y w, s'.At (queue ++ batch) y w → (y = x ∧ w = st) ∨
      (s.At (queue ++ batch) y w ∧ (y = x → w ≠ u)))
    (hstay : ∀ y w, s.At (queue ++ batch) y w → y ≠ x → s'.At (queue ++ batch) y w)
    (hacc : s'.accepted = s.accepted) (hn : a'.n = a.n) (hsqe : a'.sqe = a.sqe)
    (hstage : ∀ j, a'.stage j = if j = i then st else a.stage j) (hqueue : a'.queue = a.queue) :
    Placed s' a' free backlog queue batch := by
  have hat (y : Slot) (w : Stage) : s'.At (queue ++ batch) y w ↔ (y = x ∧ w = st) ∨
      (y ≠ x ∧ s.At (queue ++ batch) y w) := by
    constructor
    · intro hy
      rcases hleft y w hy with hnew | ⟨hold, hne⟩
      · exact Or.inl hnew
      · refine Or.inr ⟨?_, hold⟩
        rintro rfl
        exact hne rfl (h.exclusive hold hx)
    · rintro (⟨rfl, rfl⟩ | ⟨hne, hy⟩)
      · exact hcame
      · exact hstay y w hy hne
  refine ⟨by rw [hring]; exact h.vault, ?_, ?_, fun y => ?_, ?_, ?_,
    by rw [hn, hacc, h.accepted]⟩
  · rw [hring, hqh, hqt]
    exact h.queueList
  · rw [hring, hbh, hbt]
    exact h.batchList
  · have hp := h.places y
    have hiny := hin y
    rw [hring]
    omega
  · rw [hqueue, hring, h.queueSeq]
  · refine h.tracks.move st hx hi (fun y w => ?_) (fun y w _ _ => ?_) hstage hsqe
    · rw [hat]
      simp [hlive]
    · rw [hring]
      exact ⟨rfl, .refl _⟩

theorem Placed.front (h : Placed s a free backlog (x :: queue) batch) :
    ∃ i rest, a.queue = i :: rest ∧ (s.ring.opPool x).seq = some i ∧
      (queue ++ batch).map (fun y => (s.ring.opPool y).seq) = rest.map some := by
  have hq := h.queueSeq
  rw [List.cons_append, List.map_cons] at hq
  cases ha : a.queue with
  | nil => simp [ha] at hq
  | cons i rest =>
    rw [ha, List.map_cons, List.cons.injEq] at hq
    exact ⟨i, rest, rfl, hq.1, hq.2⟩

theorem Placed.queue_nodup (h : Placed s a free backlog queue batch) :
    (queue ++ batch).Nodup := by
  rw [List.nodup_iff_count_le_one]
  intro y
  have hp := h.places y
  rw [List.count_append]
  split at hp <;> omega

/-- The head of the queue goes into enter's hand. -/
theorem Placed.pop (st : Stage) (h : Placed s a free backlog (x :: queue) []) {rest : List ℕ}
    (hi : (s.ring.opPool x).seq = some i) (hlive : st.isLive = true)
    (hpool : ∀ y, y ≠ x → s'.ring.opPool y = s.ring.opPool y)
    (hseq : (s'.ring.opPool x).seq = (s.ring.opPool x).seq)
    (hcopy : Copies (s'.ring.opPool x).sqe (s.ring.opPool x).sqe)
    (hfree : s'.ring.opFree = s.ring.opFree) (hN : s'.ring.opPoolN = s.ring.opPoolN)
    (hlh : s'.ring.backlogHead = s.ring.backlogHead)
    (hlt : s'.ring.backlogTail = s.ring.backlogTail)
    (hqh : s'.ring.queueHead = s.ring.next x)
    (hqt : s'.ring.queueTail = if s.ring.next x = none then none else s.ring.queueTail)
    (hbh : s'.pc.batchHead = none) (hbt : s'.pc.batchTail = none)
    (hin : s'.pc.inEnter = x :: s.pc.inEnter) (hhands : s'.hands = s.hands)
    (hat : ∀ y w, s'.At queue y w ↔ (y = x ∧ w = st) ∨ (y ≠ x ∧ s.At (x :: queue) y w))
    (hacc : s'.accepted = s.accepted) (hn : a'.n = a.n) (hsqe : a'.sqe = a.sqe)
    (hstage : ∀ j, a'.stage j = if j = i then st else a.stage j)
    (hrest : a.queue = i :: rest) (hqueue : a'.queue = rest) :
    Placed s' a' free backlog queue [] := by
  have hxat : s.At (x :: queue ++ []) x .queued := by simp [Core.At]
  obtain ⟨hxf, hxb, -⟩ := h.outside hxat
  have hxq : x ∉ queue := by
    have hnd := h.queue_nodup
    rw [List.append_nil, List.nodup_cons] at hnd
    exact hnd.1
  have hnext (y : Slot) (hy : y ≠ x) : s'.ring.next y = s.ring.next y := by
    rw [Vault.next, hpool y hy]
    rfl
  have hne (l : List Slot) (hl : x ∉ l) (y : Slot) (hy : y ∈ l) : s'.ring.next y = s.ring.next y :=
    hnext y (by rintro rfl; exact hl hy)
  refine ⟨⟨?_, ?_⟩, ?_, ?_, fun y => ?_, ?_, ?_, by rw [hn, hacc, h.accepted]⟩
  · rw [hfree]
    exact h.vault.free.congr (hne free hxf)
  · rw [hlh, hlt]
    exact h.vault.backlog.congr (hne backlog hxb)
  · rw [hqh, hqt]
    exact h.queueList.pop.congr (hne queue hxq)
  · rw [hbh, hbt]
    exact isQueue_nil _
  · have hp := h.places y
    rw [hin, hN, Core.holds, hhands]
    rw [Core.holds] at hp
    simp only [List.count_cons, List.count_nil] at hp ⊢
    omega
  · rw [hqueue]
    have hq := h.queueSeq
    rw [hrest, List.cons_append, List.map_cons, List.map_cons, List.cons.injEq] at hq
    rw [← hq.2]
    refine List.map_congr_left (fun y hy => ?_)
    rw [hpool y]
    rintro rfl
    exact hxq (by simpa using hy)
  · rw [List.append_nil]
    have ht := h.tracks
    rw [List.append_nil] at ht
    refine ht.move st (by simpa using hxat) hi (fun y w => ?_) (fun y w hy _ => ?_) hstage hsqe
    · rw [hat]
      simp [hlive]
    · by_cases hyx : y = x
      · rw [hyx]
        exact ⟨hseq, hcopy⟩
      · rw [hpool y hyx]
        exact ⟨rfl, .refl _⟩

/-- The batch goes behind the queue. -/
theorem Placed.append (h : Placed s a free backlog queue batch) (hne : batch ≠ [])
    (hv : ∀ y, s'.ring.opPool y = { s.ring.opPool y with next := s'.ring.next y })
    (hset : ∀ t, s.ring.queueTail = some t → s'.ring.next t = s.pc.batchHead)
    (hkeep : ∀ y, s.ring.queueTail ≠ some y → s'.ring.next y = s.ring.next y)
    (hfree : s'.ring.opFree = s.ring.opFree) (hN : s'.ring.opPoolN = s.ring.opPoolN)
    (hlh : s'.ring.backlogHead = s.ring.backlogHead)
    (hlt : s'.ring.backlogTail = s.ring.backlogTail)
    (hqh : s'.ring.queueHead =
      if s.ring.queueTail.isNone then s.pc.batchHead else s.ring.queueHead)
    (hqt : s'.ring.queueTail = s.pc.batchTail)
    (hbh : s'.pc.batchHead = none) (hbt : s'.pc.batchTail = none)
    (hin : s'.pc.inEnter = s.pc.inEnter) (hhands : s'.hands = s.hands)
    (hat : ∀ y w, s'.At (queue ++ batch) y w ↔ s.At (queue ++ batch) y w)
    (hacc : s'.accepted = s.accepted) :
    Placed s' a free backlog (queue ++ batch) [] := by
  have hlast (y : Slot) (hy : s.ring.queueTail = some y) : y ∈ queue :=
    List.mem_of_getLast? (h.queueList.tail.symm.trans hy)
  have houter (l : List Slot) (hl : ∀ y ∈ l, y ∉ queue) (y : Slot) (hy : y ∈ l) :
      s'.ring.next y = s.ring.next y :=
    hkeep y (fun ht => hl y hy (hlast y ht))
  have hfq (y : Slot) (hy : y ∈ free) : y ∉ queue := by
    intro hq
    exact (h.outside (show s.At (queue ++ batch) y .queued from List.mem_append_left _ hq)).1 hy
  have hbq (y : Slot) (hy : y ∈ backlog) : y ∉ queue := by
    intro hq
    exact (h.outside (show s.At (queue ++ batch) y .queued from List.mem_append_left _ hq)).2.1 hy
  have hdisj (y : Slot) (hy : y ∈ queue) : y ∉ batch :=
    fun hb => (List.nodup_append.mp h.queue_nodup).2.2 y hy y hb rfl
  refine ⟨⟨?_, ?_⟩, ?_, ?_, fun y => ?_, ?_, ?_, by rw [hacc, h.accepted]⟩
  · rw [hfree]
    exact h.vault.free.congr (houter free hfq)
  · rw [hlh, hlt]
    exact h.vault.backlog.congr (houter backlog hbq)
  · rw [hqt]
    exact h.queueList.append h.batchList hdisj hne hqh hset hkeep
  · rw [hbh, hbt]
    exact isQueue_nil _
  · have hp := h.places y
    rw [hin, hN, Core.holds, hhands]
    rw [Core.holds] at hp
    simp only [List.count_append, List.count_nil] at hp ⊢
    omega
  · rw [List.append_nil, ← h.queueSeq]
    exact List.map_congr_left (fun y _ => by rw [hv y])
  · rw [List.append_nil]
    refine h.tracks.same hat (fun y w _ => ?_) rfl rfl
    rw [hv y]
    exact ⟨rfl, .refl _⟩

/-- An op is taken off the free list, filled and put behind the batch. -/
theorem Placed.accept (h : Placed s a (x :: free) backlog queue batch) (hw : a.WellFormed)
    {sqe : Sqe} (hnew : (s'.ring.opPool x).seq = some a.n ∧ (s'.ring.opPool x).sqe = sqe)
    (hpool : ∀ y, y ≠ x → s'.ring.opPool y = { s.ring.opPool y with next := s'.ring.next y })
    (hset : ∀ t, s.pc.batchTail = some t → s'.ring.next t = some x)
    (hnone : s'.ring.next x = none)
    (hkeep : ∀ y, y ≠ x → s.pc.batchTail ≠ some y → s'.ring.next y = s.ring.next y)
    (hfree : s'.ring.opFree = s.ring.next x) (hN : s'.ring.opPoolN = s.ring.opPoolN)
    (hlh : s'.ring.backlogHead = s.ring.backlogHead)
    (hlt : s'.ring.backlogTail = s.ring.backlogTail)
    (hqh : s'.ring.queueHead = s.ring.queueHead) (hqt : s'.ring.queueTail = s.ring.queueTail)
    (hbh : s'.pc.batchHead = if s.pc.batchTail.isNone then some x else s.pc.batchHead)
    (hbt : s'.pc.batchTail = some x)
    (hin : s'.pc.inEnter = s.pc.inEnter) (hhands : s'.hands = s.hands)
    (hat : ∀ y w, s'.At (queue ++ (batch ++ [x])) y w ↔
      (y = x ∧ w = .queued) ∨ (y ≠ x ∧ s.At (queue ++ batch) y w))
    (hacc : s'.accepted = s.accepted + 1) (hn : a'.n = a.n + 1)
    (hsqe : ∀ j, a'.sqe j = if j = a.n then sqe else a.sqe j)
    (hstage : ∀ j, a'.stage j = if j = a.n then .queued else a.stage j)
    (hqueue : a'.queue = a.queue ++ [a.n]) :
    Placed s' a' free backlog queue (batch ++ [x]) := by
  have hpx := h.places x
  rw [List.count_cons_self] at hpx
  have hzero : free.count x = 0 ∧ backlog.count x = 0 ∧ queue.count x = 0 ∧ batch.count x = 0 ∧
      s.pc.inEnter.count x = 0 ∧ s.holds x = 0 := by
    split at hpx <;> omega
  simp only [List.count_eq_zero] at hzero
  obtain ⟨hxf, hxb, hxq, hxbatch, -, -⟩ := hzero
  have hnot (w : Stage) : ¬ s.At (queue ++ batch) x w :=
    fun hw => (h.outside hw).1 List.mem_cons_self
  have hlast (y : Slot) (hy : s.pc.batchTail = some y) : y ∈ batch :=
    List.mem_of_getLast? (h.batchList.tail.symm.trans hy)
  have houter (l : List Slot) (hxl : x ∉ l) (hl : ∀ y ∈ l, y ∉ batch) (y : Slot) (hy : y ∈ l) :
      s'.ring.next y = s.ring.next y :=
    hkeep y (by rintro rfl; exact hxl hy) (fun ht => hl y hy (hlast y ht))
  have hat_batch (y : Slot) (hy : y ∈ batch) : s.At (queue ++ batch) y .queued :=
    List.mem_append_right _ hy
  refine ⟨⟨?_, ?_⟩, ?_, ?_, fun y => ?_, ?_, ?_, by rw [hn, hacc, h.accepted]⟩
  · rw [hfree]
    refine h.vault.free.2.congr (houter free hxf (fun y hy hb => ?_))
    exact (h.outside (hat_batch y hb)).1 (List.mem_cons_of_mem x hy)
  · rw [hlh, hlt]
    exact h.vault.backlog.congr (houter backlog hxb (fun y hy hb =>
      (h.outside (hat_batch y hb)).2.1 hy))
  · rw [hqh, hqt]
    refine h.queueList.congr (houter queue hxq (fun y hy hb => ?_))
    exact (List.nodup_append.mp h.queue_nodup).2.2 y hy y hb rfl
  · rw [hbt]
    have hnewq : IsQueue (fun y => if y = x then none else s.ring.next y) (some x) (some x) [x] :=
      ⟨⟨rfl, by simp⟩, rfl⟩
    have hold : IsQueue (fun y => if y = x then none else s.ring.next y)
        s.pc.batchHead s.pc.batchTail batch :=
      h.batchList.congr (fun y hy => if_neg (by rintro rfl; exact hxbatch hy))
    refine hold.append hnewq (fun y hy => ?_) (by simp) hbh hset (fun y hy => ?_)
    · rw [List.mem_singleton]
      rintro rfl
      exact hxbatch hy
    · by_cases hyx : y = x
      · rw [hyx, if_pos rfl, hnone]
      · rw [if_neg hyx, hkeep y hyx hy]
  · have hp := h.places y
    rw [hin, hN, Core.holds, hhands]
    rw [Core.holds] at hp
    simp only [List.count_append, List.count_cons, List.count_nil] at hp ⊢
    omega
  · have hseq : (a.queue ++ [a.n]).map some =
        (queue ++ batch).map (fun y => (s.ring.opPool y).seq) ++ [some a.n] := by
      rw [List.map_append, h.queueSeq]
      rfl
    rw [hqueue, hseq, ← List.append_assoc, List.map_append, List.map_singleton, hnew.1]
    congr 1
    refine List.map_congr_left (fun y hy => ?_)
    rw [hpool y]
    rintro rfl
    exact hnot .queued hy
  · have hunborn : a.stage a.n = .unborn := (hw.born a.n).mpr le_rfl
    refine h.tracks.update x a.n .queued (fun y w hy hs => ?_)
      (fun w hx => absurd hx (hnot w)) (fun y w => by rw [hat]; simp [Stage.isLive])
      (fun _ => ⟨hnew.1, by rw [hsqe, if_pos rfl, hnew.2]; exact .refl _⟩) (fun y w hyx _ => ?_)
      hstage (fun j hj => by rw [hsqe, if_neg hj])
    · obtain ⟨j, hj, hst, -⟩ := h.tracks.owner y w hy
      cases hj.symm.trans hs
      rw [hunborn] at hst
      subst hst
      exact hy.elim
    · rw [hpool y hyx]
      exact ⟨rfl, .refl _⟩

/-- An op is unlinked from the queue, behind the cell `Link.after pre`, into the backend's hands. -/
theorem Placed.unlink {pre suf : List Slot} {pre' suf' : List ℕ}
    (h : Placed s a free backlog (pre ++ x :: suf) [])
    (hi : (s.ring.opPool x).seq = some i)
    (hpool : ∀ y, s'.ring.opPool y = { s.ring.opPool y with next := s'.ring.next y })
    (hhead : Link.after pre = .head → s'.ring.queueHead = s.ring.next x)
    (hhead' : Link.after pre ≠ .head → s'.ring.queueHead = s.ring.queueHead)
    (hset : ∀ b, Link.after pre = .nextOf b → s'.ring.next b = s.ring.next x)
    (hkeep : ∀ b, Link.after pre ≠ .nextOf b → s'.ring.next b = s.ring.next b)
    (htail : s.ring.queueTail = some x →
      s'.ring.queueTail = walkLast s'.ring.next s.ring.opPoolN s'.ring.queueHead none)
    (htail' : s.ring.queueTail ≠ some x → s'.ring.queueTail = s.ring.queueTail)
    (hfree : s'.ring.opFree = s.ring.opFree) (hN : s'.ring.opPoolN = s.ring.opPoolN)
    (hlh : s'.ring.backlogHead = s.ring.backlogHead)
    (hlt : s'.ring.backlogTail = s.ring.backlogTail) (hpc : s'.pc = s.pc)
    (hbh : s.pc.batchHead = none) (hbt : s.pc.batchTail = none)
    (hhands : ∀ y, s'.hands y = if y = x then .held else s.hands y)
    (hacc : s'.accepted = s.accepted) (hn : a'.n = a.n) (hsqe : a'.sqe = a.sqe)
    (hstage : ∀ j, a'.stage j = if j = i then .held else a.stage j)
    (hq : a.queue = pre' ++ i :: suf') (hlen : pre'.length = pre.length)
    (hqueue : a'.queue = pre' ++ suf') :
    Placed s' a' free backlog (pre ++ suf) [] := by
  have hxat : s.At (pre ++ x :: suf ++ []) x .queued := by simp [Core.At]
  have hpre (y : Slot) (hy : Link.after pre = .nextOf y) : y ∈ pre := by
    rcases List.eq_nil_or_concat pre with rfl | ⟨l, b, rfl⟩
    · cases hy
    · rw [List.concat_eq_append, link_after_concat] at hy
      cases hy
      simp
  have houter (l : List Slot) (hl : ∀ y ∈ l, y ∉ pre) (y : Slot) (hy : y ∈ l) :
      s'.ring.next y = s.ring.next y :=
    hkeep y (fun ht => hl y hy (hpre y ht))
  have hat_pre (y : Slot) (hy : y ∈ pre) : s.At (pre ++ x :: suf ++ []) y .queued := by
    simp [Core.At, hy]
  have hnd := h.queue_nodup
  rw [List.append_nil] at hnd
  have hzero : s.holds x = 0 := by
    have hp := h.places x
    simp only [List.count_append, List.count_cons_self] at hp
    split at hp <;> omega
  have hhx : s.hands x = .none := by
    simpa [Core.holds] using hzero
  refine ⟨⟨?_, ?_⟩, ?_, ?_, fun y => ?_, ?_, ?_, by rw [hn, hacc, h.accepted]⟩
  · rw [hfree]
    exact h.vault.free.congr (houter free (fun y hy hp => (h.outside (hat_pre y hp)).1 hy))
  · rw [hlh, hlt]
    exact h.vault.backlog.congr (houter backlog (fun y hy hp => (h.outside (hat_pre y hp)).2.1 hy))
  · refine h.queueList.unlink hhead hhead' hset hkeep s.ring.opPoolN ?_ htail htail'
    have hlen := h.length_le.2.2
    simp only [List.length_append, List.length_cons] at hlen ⊢
    omega
  · rw [hpc, hbh, hbt]
    exact isQueue_nil _
  · have hp := h.places y
    rw [hpc, hN, Core.holds, hhands y]
    rw [Core.holds] at hp
    simp only [List.count_append, List.count_cons, List.count_nil] at hp ⊢
    by_cases hyx : y = x
    · subst hyx
      simp only [hhx] at hp
      simp at hp ⊢
      omega
    · have hxy : ¬ x = y := fun hxy => hyx hxy.symm
      simp only [hyx, if_false]
      simp [hxy] at hp
      omega
  · have hseq := h.queueSeq
    rw [hq, List.append_nil, List.map_append, List.map_append, List.map_cons, List.map_cons] at hseq
    obtain ⟨h1, h2⟩ := List.append_inj hseq (by simpa using hlen.symm)
    rw [List.cons.injEq] at h2
    rw [hqueue, List.append_nil, List.map_append, List.map_append, ← h1, ← h2.2]
    congr 1 <;> exact List.map_congr_left (fun y _ => by rw [hpool y])
  · rw [List.append_nil]
    refine h.tracks.move .held hxat hi (fun y w => ?_) (fun y w _ _ => ?_) hstage hsqe
    · have hmem : y ∈ pre ++ suf ↔ y ≠ x ∧ y ∈ pre ++ x :: suf := by
        have hnot := (List.nodup_cons.mp (List.nodup_middle.mp hnd)).1
        constructor
        · intro hy
          refine ⟨by rintro rfl; exact hnot hy, ?_⟩
          rw [List.mem_append] at hy ⊢
          exact hy.imp_right (List.mem_cons_of_mem x)
        · rintro ⟨hne, hy⟩
          simpa [hne] using hy
      have hrun : s.pc.executing ≠ some x ∧ (∀ res, s.pc.posting ≠ some (x, res)) ∧
          ∀ res, (x, res) ∉ s.pc.done := by
        have hp := h.places x
        have hin : s.pc.inEnter.count x = 0 := by
          simp only [List.count_append, List.count_cons_self] at hp
          split at hp <;> omega
        rw [List.count_eq_zero] at hin
        simp only [Pc.inEnter, List.mem_append, List.mem_map, not_or, not_exists] at hin
        refine ⟨fun he => hin.1.1 (by simp [he]), fun res he => hin.1.2 (x, res) (by simp [he]),
          fun res he => hin.2 (x, res) ⟨he, rfl⟩⟩
      cases w <;> simp only [Core.At, hpc, hhands y, Stage.isLive, List.append_nil]
      case queued => rw [hmem]; simp
      case held =>
        by_cases hyx : y = x
        · simp [hyx]
        · simp [hyx]
      case off res =>
        by_cases hyx : y = x
        · simp [hyx]
        · simp [hyx]
      case running =>
        constructor
        · intro hy
          exact Or.inr ⟨by rintro rfl; exact hrun.1 hy, hy⟩
        · rintro (⟨-, hf, -⟩ | ⟨-, hy⟩)
          · cases hf
          · exact hy
      case posting res =>
        constructor
        · intro hy
          exact Or.inr ⟨by rintro rfl; exact hrun.2.1 res hy, hy⟩
        · rintro (⟨-, hf, -⟩ | ⟨-, hy⟩)
          · cases hf
          · exact hy
      case returned res =>
        constructor
        · intro hy
          exact Or.inr ⟨by rintro rfl; exact hrun.2.2 res hy, hy⟩
        · rintro (⟨-, hf, -⟩ | ⟨-, hy⟩)
          · cases hf
          · exact hy
      all_goals simp
    · rw [hpool y]
      exact ⟨rfl, .refl _⟩

end Places

end SlipstreamIO.Engine
