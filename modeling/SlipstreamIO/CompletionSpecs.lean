import SlipstreamIO.Completions
import Mathlib.Data.List.Perm.Basic
import Mathlib.Data.List.Count

/-! What the completion functions do to the free list and the backlog as lists, which ops they
touch, and which CQEs they give. -/
namespace SlipstreamIO.Engine

open ThreadedList

namespace Vault

section Fields
variable (v : Vault) (k : ℕ) (op : Slot) (owner : Option ℕ) (u : UInt64) (res : Int32) (fl : UInt32)

@[simp] theorem callerReads_opPool : (v.callerReads k).opPool = v.opPool := rfl
@[simp] theorem callerReads_opPoolN : (v.callerReads k).opPoolN = v.opPoolN := rfl
@[simp] theorem callerReads_opFree : (v.callerReads k).opFree = v.opFree := rfl
@[simp] theorem callerReads_cqEntries : (v.callerReads k).cqEntries = v.cqEntries := rfl
@[simp] theorem callerReads_backlogHead : (v.callerReads k).backlogHead = v.backlogHead := rfl
@[simp] theorem callerReads_backlogTail : (v.callerReads k).backlogTail = v.backlogTail := rfl
@[simp] theorem callerReads_log : (v.callerReads k).cq.log = v.cq.log := rfl
@[simp] theorem callerReads_tail : (v.callerReads k).cq.tail = v.cq.tail := rfl
@[simp] theorem callerReads_overflow : (v.callerReads k).cq.overflow = v.cq.overflow := rfl

@[simp] theorem postLocked_opPool : (v.postLocked owner u res fl).opPool = v.opPool := rfl
@[simp] theorem postLocked_opPoolN : (v.postLocked owner u res fl).opPoolN = v.opPoolN := rfl
@[simp] theorem postLocked_opFree : (v.postLocked owner u res fl).opFree = v.opFree := rfl
@[simp] theorem postLocked_cqEntries : (v.postLocked owner u res fl).cqEntries = v.cqEntries := rfl
@[simp] theorem postLocked_backlogHead :
    (v.postLocked owner u res fl).backlogHead = v.backlogHead := rfl
@[simp] theorem postLocked_backlogTail :
    (v.postLocked owner u res fl).backlogTail = v.backlogTail := rfl
@[simp] theorem postLocked_log :
    (v.postLocked owner u res fl).cq.log = v.cq.log ++ [(owner, ⟨u, res, fl⟩)] := rfl
@[simp] theorem postLocked_overflow :
    (v.postLocked owner u res fl).cq.overflow = v.cq.overflow := rfl

@[simp] theorem opRelease_opPoolN : (v.opRelease op).opPoolN = v.opPoolN := rfl
@[simp] theorem opRelease_opFree : (v.opRelease op).opFree = some op := rfl
@[simp] theorem opRelease_cqEntries : (v.opRelease op).cqEntries = v.cqEntries := rfl
@[simp] theorem opRelease_cq : (v.opRelease op).cq = v.cq := rfl
@[simp] theorem opRelease_backlogHead : (v.opRelease op).backlogHead = v.backlogHead := rfl
@[simp] theorem opRelease_backlogTail : (v.opRelease op).backlogTail = v.backlogTail := rfl

@[simp] theorem opRelease_next (x : Slot) :
    (v.opRelease op).next x = if x = op then v.opFree else v.next x := by
  simp [opRelease, next, setNext, setOp]
  split <;> rfl

theorem opRelease_opPool (x : Slot) :
    (v.opRelease op).opPool x = { v.opPool x with next := (v.opRelease op).next x } := by
  simp [opRelease, next, setNext, setOp]
  split
  · next h => rw [h]
  · rfl

end Fields

/-- The vault's free list and backlog are the null-terminated lists `free` and `backlog`. -/
structure Rep (v : Vault) (free backlog : List Slot) : Prop where
  free : Threads v.next v.opFree free
  backlog : IsQueue v.next v.backlogHead v.backlogTail backlog

/-- The completion a backlogged op carries, with the SQE it answers. -/
def entry (v : Vault) (op : Slot) : Option ℕ × Cqe :=
  let o := v.opPool op
  (o.seq, ⟨o.sqe.userData, unpackRes o.sqe.pad2, o.cqeFlags⟩)

theorem entry_congr {v v' : Vault} {x : Slot}
    (h : v'.opPool x = { v.opPool x with next := v'.next x }) : v'.entry x = v.entry x := by
  simp [entry, h]

theorem emptyVault_rep (n : ℕ) (e : UInt32) : (emptyVault n e).Rep (List.range n) [] := by
  refine ⟨?_, isQueue_nil _⟩
  suffices h : ∀ m a, a + m = n →
      Threads (emptyVault n e).next (if a < n then some a else none) (List.range' a m) by
    rw [List.range_eq_range']
    exact h n 0 (Nat.zero_add n)
  intro m
  induction m with
  | zero =>
    intro a ha
    simp [show ¬ a < n by omega]
  | succ m ih =>
    intro a ha
    rw [List.range'_succ, if_pos (by omega)]
    exact ⟨rfl, ih (a + 1) (by omega)⟩

theorem opAllocLocked_none {v : Vault} {free backlog : List Slot} (hr : v.Rep free backlog) :
    v.opAllocLocked = none ↔ free = [] := by
  unfold opAllocLocked
  cases free with
  | nil => simp [show v.opFree = none from hr.free]
  | cons a l => simp [show v.opFree = some a from hr.free.1]

theorem opAllocLocked_cons {v : Vault} {op : Slot} {free backlog : List Slot}
    (hr : v.Rep (op :: free) backlog) (hnd : (op :: free ++ backlog).Nodup) :
    ∃ v', v.opAllocLocked = some (op, v') ∧ v'.Rep free backlog ∧ v'.opPool op = {} ∧
      (∀ x, x ≠ op → v'.opPool x = v.opPool x) ∧ v'.opPoolN = v.opPoolN ∧
      v'.cqEntries = v.cqEntries ∧ v'.cq = v.cq := by
  have hop : v.opFree = some op := hr.free.1
  refine ⟨{ v with opFree := v.next op }.setOp op {}, by simp [opAllocLocked, hop], ?_, by simp,
    fun x hx => by simp [hx], rfl, rfl, rfl⟩
  have hnx (x : Slot) (hx : x ≠ op) :
      ({ v with opFree := v.next op }.setOp op {}).next x = v.next x := by
    simp [next, hx]
  obtain ⟨hfree, hback⟩ : op ∉ free ∧ op ∉ backlog := by
    simpa using (List.nodup_cons.mp hnd).1
  exact ⟨hr.free.2.congr (fun x hx => hnx x (fun h => hfree (h ▸ hx))),
    hr.backlog.congr (fun x hx => hnx x (fun h => hback (h ▸ hx)))⟩

theorem opRelease_rep {v : Vault} {op : Slot} {free backlog : List Slot}
    (hr : v.Rep free backlog) (hfree : op ∉ free) (hback : op ∉ backlog) :
    (v.opRelease op).Rep (op :: free) backlog := by
  have hnx (x : Slot) (hx : x ≠ op) : (v.opRelease op).next x = v.next x := by simp [hx]
  refine ⟨⟨rfl, ?_⟩, hr.backlog.congr (fun x hx => hnx x (fun h => hback (h ▸ hx)))⟩
  have hop : (v.opRelease op).next op = v.opFree := by simp
  rw [hop]
  exact hr.free.congr (fun x hx => hnx x (fun h => hfree (h ▸ hx)))

theorem drainOne_rep {v : Vault} {op : Slot} {free backlog : List Slot}
    (hr : v.Rep free (op :: backlog)) (hnd : (free ++ op :: backlog).Nodup) :
    (v.drainOne op).Rep (op :: free) backlog := by
  have hpop := hr.backlog.pop
  obtain ⟨hfree, hback⟩ : op ∉ free ∧ op ∉ backlog := by
    have := List.nodup_middle.mp hnd
    simpa using (List.nodup_cons.mp this).1
  refine opRelease_rep ⟨?_, ?_⟩ hfree hback
  · exact hr.free
  · exact hpop

theorem drainOne_opPool (v : Vault) (op x : Slot) :
    (v.drainOne op).opPool x = { v.opPool x with next := (v.drainOne op).next x } :=
  opRelease_opPool _ op x

theorem drainOne_next (v : Vault) {op x : Slot} (h : x ≠ op) :
    (v.drainOne op).next x = v.next x := by
  simp [drainOne, h]
  rfl

theorem drainOne_log (v : Vault) (op : Slot) :
    (v.drainOne op).cq.log = v.cq.log ++ [v.entry op] := rfl

/-- From `v` to `v'` no field of any op changed but `next`, and that only of ops in `l`. -/
structure Relinks (v v' : Vault) (l : List Slot) : Prop where
  opPool : ∀ x, v'.opPool x = { v.opPool x with next := v'.next x }
  next : ∀ x ∉ l, v'.next x = v.next x
  opPoolN : v'.opPoolN = v.opPoolN
  cqEntries : v'.cqEntries = v.cqEntries

theorem Relinks.refl (v : Vault) : v.Relinks v [] := ⟨fun _ => rfl, fun _ _ => rfl, rfl, rfl⟩

theorem Relinks.trans {v v' v'' : Vault} {l m : List Slot} (h : v.Relinks v' l)
    (h' : v'.Relinks v'' m) : v.Relinks v'' (l ++ m) := by
  refine ⟨fun x => ?_, fun x hx => ?_, h'.opPoolN.trans h.opPoolN, h'.cqEntries.trans h.cqEntries⟩
  · rw [h'.opPool x, h.opPool x]
  · simp only [List.mem_append, not_or] at hx
    rw [h'.next x hx.2, h.next x hx.1]

theorem Relinks.same {v v' : Vault} {l : List Slot} (h : v.Relinks v' l) {x : Slot} (hx : x ∉ l) :
    v'.opPool x = v.opPool x := by
  rw [h.opPool x, h.next x hx]
  rfl

theorem Relinks.entry {v v' : Vault} {l : List Slot} (h : v.Relinks v' l) :
    v'.entry = v.entry :=
  funext (fun x => entry_congr (h.opPool x))

theorem drainOne_relinks (v : Vault) (op : Slot) : v.Relinks (v.drainOne op) [op] where
  opPool := drainOne_opPool v op
  next := fun _ hx => drainOne_next v (by simpa using hx)
  opPoolN := rfl
  cqEntries := rfl

theorem callerReads_relinks (v : Vault) (k : ℕ) : v.Relinks (v.callerReads k) [] :=
  ⟨fun _ => rfl, fun _ _ => rfl, rfl, rfl⟩

theorem drainBacklogLoop_empty {v : Vault} (h : v.backlogHead = none) (fuel : ℕ)
    (reads : List ℕ) : drainBacklogLoop fuel v reads = (v, reads) := by
  cases fuel <;> simp [drainBacklogLoop, h]

theorem drainBacklogLoop_succ {v : Vault} {op : Slot} (h : v.backlogHead = some op) (fuel : ℕ)
    (reads : List ℕ) : drainBacklogLoop (fuel + 1) v reads =
      if (v.callerReads (reads.headD 0)).cqRoom then
        drainBacklogLoop fuel ((v.callerReads (reads.headD 0)).drainOne op) reads.tail
      else (v.callerReads (reads.headD 0), reads.tail) := by
  rw [drainBacklogLoop]
  simp only [h]

/-- The drain loop posts a prefix of the backlog in order and releases it; it stops with an empty
backlog or at a look that found no room. -/
theorem drainBacklogLoop_spec {fuel : ℕ} {v : Vault} {free backlog : List Slot}
    (hr : v.Rep free backlog) (hnd : (free ++ backlog).Nodup) (hf : backlog.length ≤ fuel)
    (reads : List ℕ) :
    ∃ moved rest, backlog = moved ++ rest ∧
      (drainBacklogLoop fuel v reads).1.Rep (moved.reverse ++ free) rest ∧
      v.Relinks (drainBacklogLoop fuel v reads).1 moved ∧
      (drainBacklogLoop fuel v reads).1.cq.log = v.cq.log ++ moved.map v.entry ∧
      (rest = [] ∨ (drainBacklogLoop fuel v reads).1.cqRoom = false) := by
  induction fuel generalizing v reads free backlog with
  | zero =>
    have hb : backlog = [] := List.eq_nil_of_length_eq_zero (Nat.le_zero.mp hf)
    exact ⟨[], backlog, rfl, hr, .refl v, by simp [drainBacklogLoop], Or.inl hb⟩
  | succ fuel ih =>
    cases backlog with
    | nil =>
      rw [drainBacklogLoop_empty hr.backlog.threads]
      exact ⟨[], [], rfl, hr, .refl v, by simp, Or.inl rfl⟩
    | cons op backlog =>
      have hr' : (v.callerReads (reads.headD 0)).Rep free (op :: backlog) := ⟨hr.free, hr.backlog⟩
      rw [drainBacklogLoop_succ hr.backlog.threads.1]
      split
      · have hnd' : (op :: free ++ backlog).Nodup := List.nodup_middle.mp hnd
        obtain ⟨moved, rest, hsplit, hrep, hlinks, hlog, hstop⟩ :=
          ih (drainOne_rep hr' hnd) hnd' (by simpa using hf) reads.tail
        have hone := (callerReads_relinks v (reads.headD 0)).trans (drainOne_relinks _ op)
        refine ⟨op :: moved, rest, by simp [hsplit], by simpa using hrep, hone.trans hlinks, ?_, hstop⟩
        rw [hlog, hone.entry, drainOne_log, List.map_cons, List.append_assoc,
          List.singleton_append]
        rfl
      · next hroom =>
        exact ⟨[], op :: backlog, rfl, hr', callerReads_relinks v _, by simp,
          Or.inr (by simpa using hroom)⟩

theorem backlogLocked_opFree (v : Vault) (op : Slot) (res : Int32) :
    (v.backlogLocked op res).opFree = v.opFree := by
  simp only [backlogLocked, setOp_backlogTail]
  cases v.backlogTail <;> rfl

theorem backlogLocked_opPoolN (v : Vault) (op : Slot) (res : Int32) :
    (v.backlogLocked op res).opPoolN = v.opPoolN := by
  simp only [backlogLocked, setOp_backlogTail]
  cases v.backlogTail <;> rfl

theorem backlogLocked_cqEntries (v : Vault) (op : Slot) (res : Int32) :
    (v.backlogLocked op res).cqEntries = v.cqEntries := by
  simp only [backlogLocked, setOp_backlogTail]
  cases v.backlogTail <;> rfl

theorem backlogLocked_backlogHead (v : Vault) (op : Slot) (res : Int32) :
    (v.backlogLocked op res).backlogHead =
      if v.backlogTail.isNone then some op else v.backlogHead := by
  simp only [backlogLocked, setOp_backlogTail]
  cases v.backlogTail <;> rfl

theorem backlogLocked_cq (v : Vault) (op : Slot) (res : Int32) :
    (v.backlogLocked op res).cq = { v.cq with overflow := v.cq.overflow + 1 } := by
  simp only [backlogLocked, setOp_backlogTail]
  cases v.backlogTail <;> rfl

theorem backlogLocked_next (v : Vault) (op x : Slot) (res : Int32) :
    (v.backlogLocked op res).next x =
      if v.backlogTail = some x then some op else if x = op then none else v.next x := by
  simp only [backlogLocked, setOp_backlogTail]
  cases v.backlogTail with
  | none =>
    simp only [next, setOp, reduceCtorEq, if_false]
    split <;> rfl
  | some t =>
    simp only [next, setNext, setOp, Option.some.injEq]
    by_cases hxt : x = t
    · simp [hxt]
    · by_cases hxo : x = op
      · subst hxo
        simp [hxt, Ne.symm hxt]
      · simp [hxt, hxo, Ne.symm hxt]

/-- Putting an op that is on neither list behind the backlog. -/
theorem backlogLocked_rep {v : Vault} {op : Slot} {res : Int32} {free backlog : List Slot}
    (hr : v.Rep free backlog) (hdisj : (free ++ backlog).Nodup) (hfree : op ∉ free)
    (hback : op ∉ backlog) : (v.backlogLocked op res).Rep free (backlog ++ [op]) := by
  have hlast (x : Slot) (hx : v.backlogTail = some x) : x ∈ backlog :=
    List.mem_of_getLast? (hr.backlog.tail.symm.trans hx)
  have hsep (x : Slot) (hx : x ∈ free) : v.backlogTail ≠ some x :=
    fun h => (List.nodup_append.mp hdisj).2.2 x hx x (hlast x h) rfl
  refine ⟨?_, ?_⟩
  · rw [backlogLocked_opFree]
    refine hr.free.congr (fun x hx => ?_)
    have hne : x ≠ op := by
      rintro rfl
      exact hfree hx
    rw [backlogLocked_next, if_neg (hsep x hx), if_neg hne]
  · have hnew : IsQueue (fun x => if x = op then none else v.next x) (some op) (some op) [op] :=
      ⟨⟨rfl, by simp⟩, rfl⟩
    have hold : IsQueue (fun x => if x = op then none else v.next x)
        v.backlogHead v.backlogTail backlog :=
      hr.backlog.congr (fun x hx => if_neg (by rintro rfl; exact hback hx))
    refine hold.append hnew (fun x hx => ?_) (by simp) (backlogLocked_backlogHead v op res) ?_ ?_
    · simp only [List.mem_singleton]
      rintro rfl
      exact hback hx
    · intro x hx
      rw [backlogLocked_next, if_pos hx]
    · intro x hx
      rw [backlogLocked_next, if_neg hx]

theorem backlogLocked_opPool (v : Vault) (op : Slot) (res : Int32) {x : Slot} (h : x ≠ op) :
    (v.backlogLocked op res).opPool x =
      { v.opPool x with next := (v.backlogLocked op res).next x } := by
  simp only [backlogLocked, setOp_backlogTail]
  cases v.backlogTail with
  | none => simp [next, h]
  | some t =>
    simp only [next, setNext, setOp, h, if_false]
    by_cases hxt : x = t
    · subst hxt
      simp [h]
    · simp [hxt]

theorem backlogLocked_entry (v : Vault) (op : Slot) (res : Int32) :
    (v.backlogLocked op res).entry op =
      ((v.opPool op).seq, ⟨(v.opPool op).sqe.userData, res, (v.opPool op).cqeFlags⟩) := by
  simp only [entry, backlogLocked, setOp_backlogTail]
  cases v.backlogTail with
  | none => simp [unpackRes_packRes]
  | some t =>
    simp only [setNext, setOp]
    by_cases hot : op = t
    · subst hot
      simp [unpackRes_packRes]
    · simp [hot, unpackRes_packRes]

/-- `v'` gives the completions in `given`, in the CQ or the backlog, and takes the slots in `ops`
onto the free list or the backlog. No other op changed. -/
structure Completes (v v' : Vault) (free backlog ops : List Slot) (given : List (Option ℕ × Cqe))
    (free' backlog' : List Slot) : Prop where
  rep : v'.Rep free' backlog'
  places : ∀ x, free'.count x + backlog'.count x = free.count x + backlog.count x + ops.count x
  others : ∀ x, x ∉ free → x ∉ backlog → x ∉ ops → v'.opPool x = v.opPool x
  opPoolN : v'.opPoolN = v.opPoolN
  cqEntries : v'.cqEntries = v.cqEntries
  stream : (v'.cq.log ++ backlog'.map v'.entry).Perm (v.cq.log ++ backlog.map v.entry ++ given)

section Completes
variable {v v' v'' : Vault} {free backlog free' backlog' free'' backlog'' ops ops' : List Slot}
  {given given' : List (Option ℕ × Cqe)}

theorem Completes.mem (h : v.Completes v' free backlog ops given free' backlog') (x : Slot) :
    x ∈ free' ∨ x ∈ backlog' ↔ x ∈ free ∨ x ∈ backlog ∨ x ∈ ops := by
  have hx := h.places x
  simp only [← List.count_pos_iff]
  omega

theorem Completes.trans (h : v.Completes v' free backlog ops given free' backlog')
    (h' : v'.Completes v'' free' backlog' ops' given' free'' backlog'') :
    v.Completes v'' free backlog (ops ++ ops') (given ++ given') free'' backlog'' where
  rep := h'.rep
  places := by
    intro x
    rw [h'.places x, h.places x, List.count_append]
    omega
  others := by
    intro x hf hb ho
    simp only [List.mem_append, not_or] at ho
    have hx := mt (h.mem x).mp (by simp [hf, hb, ho.1])
    rw [not_or] at hx
    rw [h'.others x hx.1 hx.2 ho.2, h.others x hf hb ho.1]
  opPoolN := h'.opPoolN.trans h.opPoolN
  cqEntries := h'.cqEntries.trans h.cqEntries
  stream := by
    rw [← List.append_assoc]
    exact h'.stream.trans (h.stream.append_right given')

theorem Completes.callerReads (hr : v.Rep free backlog) (k : ℕ) :
    v.Completes (v.callerReads k) free backlog [] [] free backlog :=
  ⟨⟨hr.free, hr.backlog⟩, fun _ => rfl, fun _ _ _ _ => rfl, rfl, rfl, by simp; exact .refl _⟩

theorem Completes.drain (hr : v.Rep free backlog) (hnd : (free ++ backlog).Nodup)
    (hn : backlog.length ≤ v.opPoolN) (reads : List ℕ) :
    ∃ free' backlog', v.Completes (v.drainBacklogLocked reads).1 free backlog [] [] free' backlog' ∧
      (backlog' = [] ∨ (v.drainBacklogLocked reads).1.cqRoom = false) := by
  obtain ⟨moved, rest, hsplit, hrep, hlinks, hlog, hstop⟩ :=
    drainBacklogLoop_spec hr hnd hn reads
  refine ⟨moved.reverse ++ free, rest, ⟨hrep, fun x => ?_, fun x _ hb _ => ?_, hlinks.opPoolN,
    hlinks.cqEntries, ?_⟩, hstop⟩
  · simp [hsplit, List.count_append]
    omega
  · exact hlinks.same (fun hx => hb (by simp [hsplit, hx]))
  · rw [drainBacklogLocked, hlog, hlinks.entry, hsplit]
    simp

theorem Completes.release {op : Slot} (hr : v.Rep free backlog) (hfree : op ∉ free)
    (hback : op ∉ backlog) :
    v.Completes (v.opRelease op) free backlog [op] [] (op :: free) backlog where
  rep := opRelease_rep hr hfree hback
  places := by
    intro x
    simp only [List.count_cons, List.count_nil]
    omega
  others := by
    intro x _ _ hx
    rw [opRelease_opPool, opRelease_next, if_neg (by simpa using hx)]
    rfl
  opPoolN := rfl
  cqEntries := rfl
  stream := by
    rw [show (v.opRelease op).entry = v.entry from
      funext (fun x => entry_congr (opRelease_opPool v op x))]
    simp

theorem Completes.postLocked (hr : v.Rep free backlog) (owner : Option ℕ) (u : UInt64)
    (res : Int32) (fl : UInt32) :
    v.Completes (v.postLocked owner u res fl) free backlog [] [(owner, ⟨u, res, fl⟩)]
      free backlog := by
  refine ⟨⟨hr.free, hr.backlog⟩, fun _ => rfl, fun _ _ _ _ => rfl, rfl, rfl, ?_⟩
  rw [postLocked_log, List.append_assoc, List.append_assoc]
  exact (List.perm_append_comm).append_left _

theorem Completes.backlogLocked {op : Slot} (hr : v.Rep free backlog)
    (hnd : (free ++ backlog).Nodup) (hfree : op ∉ free) (hback : op ∉ backlog) (res : Int32) :
    v.Completes (v.backlogLocked op res) free backlog [op]
      [((v.opPool op).seq, ⟨(v.opPool op).sqe.userData, res, (v.opPool op).cqeFlags⟩)]
      free (backlog ++ [op]) where
  rep := backlogLocked_rep hr hnd hfree hback
  places := by
    intro x
    simp only [List.count_append]
    omega
  others := by
    intro x _ hb hx
    have hlast : v.backlogTail ≠ some x := by
      intro h
      exact hb (List.mem_of_getLast? (hr.backlog.tail.symm.trans h))
    have hne : x ≠ op := by simpa using hx
    rw [backlogLocked_opPool v op res hne, backlogLocked_next, if_neg hlast, if_neg hne]
    rfl
  opPoolN := backlogLocked_opPoolN v op res
  cqEntries := backlogLocked_cqEntries v op res
  stream := by
    have hmap : backlog.map (v.backlogLocked op res).entry = backlog.map v.entry := by
      refine List.map_congr_left (fun x hx => entry_congr (backlogLocked_opPool v op res ?_))
      rintro rfl
      exact hback hx
    rw [backlogLocked_cq, List.map_append, hmap, List.map_singleton, backlogLocked_entry]
    simp

theorem Completes.nodup (h : v.Completes v' free backlog ops given free' backlog')
    (hnd : (free ++ backlog ++ ops).Nodup) : (free' ++ backlog').Nodup := by
  rw [List.nodup_iff_count_le_one] at hnd ⊢
  intro x
  have hx := hnd x
  rw [List.count_append, List.count_append] at hx
  rw [List.count_append, h.places x]
  exact hx

end Completes

/-- What finishing the op gives: nothing when it succeeds with `IOSQE_CQE_SKIP_SUCCESS`. -/
def completionOf (v : Vault) (op : Slot) (res : Int32) : List (Option ℕ × Cqe) :=
  let o := v.opPool op
  if 0 ≤ res && o.sqe.flags.cqeSkipSuccess then []
  else [(o.seq, ⟨o.sqe.userData, res, o.cqeFlags⟩)]

theorem slipEnginePost_completes {v : Vault} {free backlog : List Slot} {op : Slot}
    (hr : v.Rep free backlog) (hnd : (free ++ backlog ++ [op]).Nodup)
    (hn : backlog.length ≤ v.opPoolN) (res : Int32) (reads : List ℕ) :
    ∃ free' backlog', v.Completes (v.slipEnginePost op res reads) free backlog [op]
      (v.completionOf op res) free' backlog' := by
  obtain ⟨hnd', -, hop⟩ := List.nodup_append.mp hnd
  obtain ⟨hfree, hback⟩ : op ∉ free ∧ op ∉ backlog := by
    constructor <;> intro h <;> exact hop op (by simp [h]) op (by simp) rfl
  obtain ⟨free1, backlog1, hd, -⟩ := Completes.drain hr hnd' hn reads
  have hnd1 := hd.nodup (by simpa using hnd')
  have hop1 : op ∉ free1 ∧ op ∉ backlog1 := by
    rw [← not_or, hd.mem op]
    simp [hfree, hback]
  have hsame := hd.others op hfree hback (by simp)
  unfold slipEnginePost completionOf
  simp only [← hsame]
  generalize (v.drainBacklogLocked reads).1 = w at hd hsame ⊢
  split
  · exact ⟨_, _, hd.trans (.release hd.rep hop1.1 hop1.2)⟩
  · have hc := hd.trans (.callerReads hd.rep ((v.drainBacklogLocked reads).2.headD 0))
    split
    · have hp := hc.trans (.postLocked hc.rep (w.opPool op).seq (w.opPool op).sqe.userData res
        (w.opPool op).cqeFlags)
      exact ⟨_, _, by simpa using hp.trans (.release hp.rep hop1.1 hop1.2)⟩
    · exact ⟨_, _, by simpa using hc.trans (.backlogLocked hc.rep hnd1 hop1.1 hop1.2 res)⟩

/-- The carrier of an emission: taken off the free list and put behind the backlog. -/
theorem Completes.carrier {v : Vault} {op : Slot} {free backlog : List Slot}
    (hr : v.Rep (op :: free) backlog) (hnd : (op :: free ++ backlog).Nodup)
    {v' : Vault} (hv : v.opAllocLocked = some (op, v')) (o : EngOp) (res : Int32) :
    v.Completes ((v'.setOp op { o with next := (v'.opPool op).next }).backlogLocked op res)
      (op :: free) backlog [] [(o.seq, ⟨o.sqe.userData, res, o.cqeFlags⟩)]
      free (backlog ++ [op]) := by
  obtain ⟨w, hw, hrep, hfresh, hothers, hN, hE, hcq⟩ := opAllocLocked_cons hr hnd
  cases hv.symm.trans hw
  obtain ⟨hfree, hback⟩ : op ∉ free ∧ op ∉ backlog := by
    simpa using (List.nodup_cons.mp hnd).1
  have hnext (x : Slot) : (v'.setOp op { o with next := (v'.opPool op).next }).next x =
      v'.next x := by
    by_cases hx : x = op <;> simp [next, hx]
  have hset : (v'.setOp op { o with next := (v'.opPool op).next }).Rep free backlog :=
    ⟨hrep.free.congr (fun x _ => hnext x), hrep.backlog.congr (fun x _ => hnext x)⟩
  have hb := Completes.backlogLocked hset (List.nodup_cons.mp hnd).2 hfree hback res
  refine ⟨hb.rep, fun x => ?_, fun x hx hxb _ => ?_, hb.opPoolN.trans hN, hb.cqEntries.trans hE, ?_⟩
  · have hp := hb.places x
    simp only [List.count_cons, List.count_nil] at hp ⊢
    omega
  · simp only [List.mem_cons, not_or] at hx
    rw [hb.others x hx.2 hxb (by simpa using hx.1), setOp_opPool, if_neg hx.1, hothers x hx.1]
  · have hmap : backlog.map (v'.setOp op { o with next := (v'.opPool op).next }).entry =
        backlog.map v.entry := by
      refine List.map_congr_left (fun x hx => ?_)
      have hne : x ≠ op := by
        rintro rfl
        exact hback hx
      rw [entry, entry, setOp_opPool, if_neg hne, hothers x hne]
    have hs := hb.stream
    rw [hmap, setOp_cq, hcq, setOp_opPool, if_pos rfl] at hs
    exact hs

/-- An emission is one completion that answers no SQE, or is dropped and counted, with no room in the CQ
and no op in the pool at its own look. -/
theorem slipEngineEmit_places {v : Vault} {free backlog : List Slot} (hr : v.Rep free backlog)
    (hnd : (free ++ backlog).Nodup) (hn : backlog.length ≤ v.opPoolN) (u : UInt64) (res : Int32)
    (fl : UInt32) (reads : List ℕ) :
    ∃ given free' backlog', v.Completes (v.slipEngineEmit u res fl reads) free backlog []
      given free' backlog' ∧ (given = [(none, ⟨u, res, fl⟩)] ∨ given = [] ∧
        ((v.drainBacklogLocked reads).1.callerReads ((v.drainBacklogLocked reads).2.headD 0)).cqRoom = false ∧
        ((v.drainBacklogLocked reads).1.callerReads
          ((v.drainBacklogLocked reads).2.headD 0)).opFree = none) := by
  obtain ⟨free1, backlog1, hd, -⟩ := Completes.drain hr hnd hn reads
  have hc := hd.trans (.callerReads hd.rep ((v.drainBacklogLocked reads).2.headD 0))
  have hnd1 := hc.nodup (by simpa using hnd)
  unfold slipEngineEmit
  simp only
  generalize (v.drainBacklogLocked reads).1.callerReads _ = w at hc ⊢
  split
  · exact ⟨_, _, _, hc.trans (.postLocked hc.rep none u res fl), Or.inl rfl⟩
  · next hroom =>
    cases free1 with
    | nil =>
      rw [(opAllocLocked_none hc.rep).mpr rfl]
      exact ⟨_, _, _, hc.trans ⟨⟨hc.rep.free, hc.rep.backlog⟩, fun _ => rfl, fun _ _ _ _ => rfl, rfl,
        rfl, by simp; exact .refl _⟩, Or.inr ⟨rfl, Bool.not_eq_true _ ▸ hroom, hc.rep.free⟩⟩
    | cons op free1 =>
      obtain ⟨w', halloc, -, hfresh, -⟩ := opAllocLocked_cons hc.rep hnd1
      have hcar := Completes.carrier hc.rep hnd1 halloc
        { sqe := { userData := u }, cqeFlags := fl } res
      rw [halloc]
      simp only [hfresh] at hcar ⊢
      exact ⟨_, _, _, hc.trans hcar, Or.inl rfl⟩

theorem slipEngineEmit_completes {v : Vault} {free backlog : List Slot} (hr : v.Rep free backlog)
    (hnd : (free ++ backlog).Nodup) (hn : backlog.length ≤ v.opPoolN) (u : UInt64) (res : Int32)
    (fl : UInt32) (reads : List ℕ) :
    ∃ given free' backlog', v.Completes (v.slipEngineEmit u res fl reads) free backlog []
      given free' backlog' ∧ (given = [(none, ⟨u, res, fl⟩)] ∨ given = []) := by
  obtain ⟨given, free', backlog', hc, hgiven⟩ := slipEngineEmit_places hr hnd hn u res fl reads
  exact ⟨given, free', backlog', hc, hgiven.imp_right And.left⟩

end Vault

end SlipstreamIO.Engine
