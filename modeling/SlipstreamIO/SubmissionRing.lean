import SlipstreamIO.Conservation
import SlipstreamIO.WrappingRing
import Mathlib.Order.Bounds.Defs

/-! The loop of enter that takes SQEs off the submission ring: two 32-bit cursors that run freely, an
array of indices the caller writes, and a pool that may run dry. -/
namespace SlipstreamIO.Engine

open Runs ThreadedList WrappingRing

/-- The submission ring as enter finds it; `tail` is the one it loads. The size and the mask are as
setup leaves them. -/
structure SqRing where
  head : UInt32
  tail : UInt32
  ringMask : UInt32
  sqEntries : UInt32
  array : ℕ → UInt32
  sqes : ℕ → Sqe
  power : ∃ k ≤ 31, sqEntries = UInt32.ofNat (2 ^ k)
  mask : ringMask = sqEntries - 1

/-- The locals of the loop, with the cursor and the ring it writes. `accepted` is ghost. -/
structure Taking where
  head : UInt32
  ring : Ring
  submitted : UInt32 := 0
  batchHead : Option Slot := none
  batchTail : Option Slot := none
  accepted : ℕ := 0

namespace SqRing

/-- One turn of the loop; none is the break on an empty pool. -/
def takeOne (sq : SqRing) (t : Taking) : Option Taking :=
  let i := sq.array (t.head &&& sq.ringMask).toNat
  if i < sq.sqEntries then
    match t.ring.opAllocLocked with
    | none => none
    | some (op, v) =>
      let v := v.setOp op { v.opPool op with sqe := sq.sqes i.toNat, seq := some t.accepted }
      let v := match t.batchTail with
        | some last => v.setNext last (some op)
        | none => v
      some {
        head := t.head + 1
        ring := t.ring.inVault fun _ => v
        submitted := t.submitted + 1
        batchHead := if t.batchTail = none then some op else t.batchHead
        batchTail := some op
        accepted := t.accepted + 1 }
  else
    some { t with
      head := t.head + 1
      ring := { t.ring with sqDropped := t.ring.sqDropped + 1 }
      submitted := t.submitted + 1 }

/-- The loop, for at most so many turns. -/
def takeTurns (sq : SqRing) (toSubmit : UInt32) : ℕ → Taking → Taking
  | 0, t => t
  | turns + 1, t =>
    if t.head ≠ sq.tail ∧ t.submitted < toSubmit then
      match sq.takeOne t with
      | none => t
      | some t' => sq.takeTurns toSubmit turns t'
    else t

/-- The whole loop: no more turns than there are entries between the cursors. -/
def takeAll (sq : SqRing) (toSubmit : UInt32) (s : Core) : Taking :=
  sq.takeTurns toSubmit (sq.tail - sq.head).toNat
    { head := sq.head, ring := s.ring, accepted := s.accepted }

/-- The SQE the entry at a cursor names; none when its index is past the array. -/
def entry (sq : SqRing) (cursor : UInt32) : Option Sqe :=
  let i := sq.array (cursor &&& sq.ringMask).toNat
  if i < sq.sqEntries then some (sq.sqes i.toNat) else none

/-- The first `m` entries from the head on. -/
def firsts (sq : SqRing) (m : ℕ) : List (Option Sqe) :=
  (List.range m).map fun j => sq.entry (sq.head + UInt32.ofNat j)

/-- The entries from `cursor` on that a loop that has taken `submitted` may still take. -/
def pending (sq : SqRing) (toSubmit submitted cursor : UInt32) : List (Option Sqe) :=
  (List.range (min (avail submitted toSubmit) (avail cursor sq.tail))).map
    fun j => sq.entry (cursor + UInt32.ofNat j)

end SqRing

/-- How many of the entries a pool of so many ops takes. -/
def fitting : ℕ → List (Option Sqe) → ℕ
  | _, [] => 0
  | pool, none :: es => fitting pool es + 1
  | 0, some _ :: _ => 0
  | pool + 1, some _ :: es => fitting pool es + 1

section Fitting
variable {pool : ℕ} {es : List (Option Sqe)}

theorem fitting_le (pool : ℕ) (es : List (Option Sqe)) : fitting pool es ≤ es.length := by
  induction pool, es using fitting.induct with
  | case1 pool => exact Nat.zero_le _
  | case2 pool es ih =>
    rw [fitting, List.length_cons]
    omega
  | case3 q es => exact Nat.zero_le _
  | case4 pool q es ih =>
    rw [fitting, List.length_cons]
    omega

theorem fitting_fits (pool : ℕ) (es : List (Option Sqe)) :
    ((es.take (fitting pool es)).filterMap id).length ≤ pool := by
  induction pool, es using fitting.induct with
  | case1 pool => exact Nat.zero_le _
  | case2 pool es ih =>
    rw [fitting, List.take_succ_cons]
    exact ih
  | case3 q es => exact Nat.zero_le _
  | case4 pool q es ih =>
    rw [fitting, List.take_succ_cons]
    exact Nat.succ_le_succ ih

theorem le_fitting {m : ℕ} (hm : m ≤ es.length) (hfit : ((es.take m).filterMap id).length ≤ pool) :
    m ≤ fitting pool es := by
  induction pool, es using fitting.induct generalizing m with
  | case1 pool => exact hm
  | case2 pool es ih =>
    cases m with
    | zero => exact Nat.zero_le _
    | succ m =>
      rw [fitting]
      exact Nat.succ_le_succ (ih (Nat.le_of_succ_le_succ hm) hfit)
  | case3 q es =>
    cases m with
    | zero => exact Nat.zero_le _
    | succ m => exact absurd hfit (Nat.not_succ_le_zero _)
  | case4 pool q es ih =>
    cases m with
    | zero => exact Nat.zero_le _
    | succ m =>
      rw [fitting]
      exact Nat.succ_le_succ (ih (Nat.le_of_succ_le_succ hm) (Nat.le_of_succ_le_succ hfit))

/-- The largest number of entries for which the pool has an op for each in-range index. -/
theorem fitting_isGreatest (pool : ℕ) (es : List (Option Sqe)) :
    IsGreatest {m | m ≤ es.length ∧ ((es.take m).filterMap id).length ≤ pool} (fitting pool es) :=
  ⟨⟨fitting_le pool es, fitting_fits pool es⟩, fun _ hm => le_fitting hm.1 hm.2⟩

end Fitting

section Pending
variable {sq : SqRing} {toSubmit submitted cursor : UInt32}

theorem pending_nil (h : ¬ (cursor ≠ sq.tail ∧ submitted < toSubmit))
    (hle : submitted ≤ toSubmit) : sq.pending toSubmit submitted cursor = [] := by
  have hzero : min (avail submitted toSubmit) (avail cursor sq.tail) = 0 := by
    by_cases hc : cursor = sq.tail
    · rw [hc]
      simp [avail]
    · have heq : toSubmit = submitted := by
        apply UInt32.le_antisymm _ hle
        exact UInt32.not_lt.mp fun hlt => h ⟨hc, hlt⟩
      rw [heq]
      simp [avail]
  rw [SqRing.pending, hzero]
  rfl

theorem pending_cons (hne : cursor ≠ sq.tail) (hlt : submitted < toSubmit) :
    sq.pending toSubmit submitted cursor =
      sq.entry cursor :: sq.pending toSubmit (submitted + 1) (cursor + 1) := by
  have hs := avail_pos (UInt32.ne_of_lt hlt)
  have hc := avail_pos hne
  have hmin : min (avail submitted toSubmit) (avail cursor sq.tail) =
      min (avail (submitted + 1) toSubmit) (avail (cursor + 1) sq.tail) + 1 := by
    rw [avail_succ (UInt32.ne_of_lt hlt), avail_succ hne]
    omega
  rw [SqRing.pending, hmin, List.range_succ_eq_map, List.map_cons, List.map_map]
  congr 1
  · simp
  · apply List.map_congr_left
    intro j _
    have hcursor : cursor + UInt32.ofNat (j + 1) = cursor + 1 + UInt32.ofNat j := by
      rw [UInt32.ofNat_add, UInt32.add_comm (UInt32.ofNat j), ← UInt32.add_assoc]
      rfl
    rw [Function.comp_apply, Nat.succ_eq_add_one, hcursor]

end Pending

/-- The vault after one SQE was copied into the op off the free list and linked behind `last`. -/
def takenInto (v : Vault) (op : Slot) (q : Sqe) (i : ℕ) (last : Option Slot) : Vault :=
  let v := { v with opFree := v.next op }.setOp op { sqe := q, seq := some i }
  match last with
  | some x => v.setNext x (some op)
  | none => v

section TakeOne
variable {sq : SqRing} {t : Taking} {q : Sqe} {op : Slot} {v : Vault} {last : Option Slot} {i : ℕ}

theorem takenInto_next (op : Slot) (last : Option Slot) (x : Slot) : (takenInto v op q i last).next x =
    if last = some x then some op else if x = op then none else v.next x := by
  have hset : ({ v with opFree := v.next op }.setOp op { sqe := q, seq := some i }).next x =
      if x = op then none else v.next x := by
    rw [Vault.next, Vault.setOp_opPool]
    split <;> rfl
  cases last with
  | none =>
    rw [if_neg (by simp)]
    exact hset
  | some y =>
    rw [takenInto, Vault.setNext_next, hset]
    simp only [Option.some.injEq, eq_comm]

/-- Of the other ops only `last` changes, in its `next`. -/
theorem takenInto_opPool (hlast : last ≠ some op) (x : Slot) : (takenInto v op q i last).opPool x =
    if x = op then { sqe := q, seq := some i }
    else if last = some x then { v.opPool x with next := some op } else v.opPool x := by
  cases last with
  | none => simp [takenInto]
  | some y =>
    have hy : y ≠ op := fun h => hlast (by rw [h])
    by_cases hx : x = y
    · simp [takenInto, hx, hy, Vault.setNext]
    · simp [takenInto, hx, Ne.symm hx, Vault.setNext]

@[simp] theorem takenInto_opFree : (takenInto v op q i last).opFree = v.next op := by
  cases last <;> rfl

theorem takenInto_rest : takenInto v op q i last = { v with
    opPool := (takenInto v op q i last).opPool
    opFree := (takenInto v op q i last).opFree } := by
  cases last <;> rfl

theorem takeOne_outside (he : sq.entry t.head = none) :
    sq.takeOne t = some { t with
      head := t.head + 1
      ring := { t.ring with sqDropped := t.ring.sqDropped + 1 }
      submitted := t.submitted + 1 } := by
  simp only [SqRing.entry] at he
  split at he
  · cases he
  · next hi => simp only [SqRing.takeOne, if_neg hi]

theorem takeOne_dry (he : sq.entry t.head = some q) (hfree : t.ring.opFree = none) :
    sq.takeOne t = none := by
  simp only [SqRing.entry] at he
  split at he
  · next hi => simp only [SqRing.takeOne, if_pos hi, Vault.opAllocLocked, hfree]
  · cases he

theorem takeOne_inside (he : sq.entry t.head = some q) (hfree : t.ring.opFree = some op) :
    sq.takeOne t = some {
      head := t.head + 1
      ring := t.ring.inVault fun v => takenInto v op q t.accepted t.batchTail
      submitted := t.submitted + 1
      batchHead := if t.batchTail = none then some op else t.batchHead
      batchTail := some op
      accepted := t.accepted + 1 } := by
  simp only [SqRing.entry] at he
  split at he
  · next hi =>
    cases he
    simp only [SqRing.takeOne, if_pos hi, Vault.opAllocLocked, hfree, takenInto, Vault.setOp_opPool,
      if_true, Vault.setOp_setOp]
    rfl
  · cases he

end TakeOne

/-- What the loop makes of the entries `es`, from `t` to `t'`: with `free` on the free list and `batch`
taken before, it takes as many as fit, each in-range one into the next free op, in order. -/
structure Took (es : List (Option Sqe)) (free batch : List Slot) (t t' : Taking) (k : ℕ)
    (ops : List Slot) : Prop where
  count : k = fitting free.length es
  slots : ops = free.take ((es.take k).filterMap id).length
  head : t'.head = t.head + UInt32.ofNat k
  submitted : t'.submitted = t.submitted + UInt32.ofNat k
  dropped : t'.ring.sqDropped = t.ring.sqDropped + UInt32.ofNat ((es.take k).count none)
  accepted : t'.accepted = t.accepted + ops.length
  freeList : Threads t'.ring.next t'.ring.opFree (free.drop ops.length)
  batchList : IsQueue t'.ring.next t'.batchHead t'.batchTail (batch ++ ops)
  copies : ops.map (fun x => (t'.ring.opPool x).sqe) = (es.take k).filterMap id
  kept : ∀ x ∈ batch, (t'.ring.opPool x).sqe = (t.ring.opPool x).sqe
  others : ∀ x, x ∉ batch → x ∉ ops → t'.ring.opPool x = t.ring.opPool x
  rest : t'.ring = { t.ring with
    opPool := t'.ring.opPool
    opFree := t'.ring.opFree
    sqDropped := t'.ring.sqDropped }

section TakeTurns
variable {sq : SqRing} {t t' : Taking} {es : List (Option Sqe)} {free batch : List Slot}

/-- Nothing is taken, of no entries or of an empty pool. -/
theorem Took.nothing (hk : fitting free.length es = 0)
    (hfree : Threads t.ring.next t.ring.opFree free)
    (hbatch : IsQueue t.ring.next t.batchHead t.batchTail batch) :
    Took es free batch t t 0 [] where
  count := hk.symm
  slots := by simp
  head := by simp
  submitted := by simp
  dropped := by simp
  accepted := rfl
  freeList := hfree
  batchList := by
    rw [List.append_nil]
    exact hbatch
  copies := rfl
  kept := fun _ _ => rfl
  others := fun _ _ _ => rfl
  rest := rfl

theorem inRange_cons (q : Sqe) (es : List (Option Sqe)) :
    (some q :: es).filterMap id = q :: es.filterMap id := rfl

theorem cursor_succ (a : UInt32) (k : ℕ) : a + 1 + UInt32.ofNat k = a + UInt32.ofNat (k + 1) := by
  rw [UInt32.ofNat_add, UInt32.add_comm (UInt32.ofNat k), ← UInt32.add_assoc]
  rfl

/-- An index past the array in front: one more is counted as dropped, and no op is used. -/
theorem Took.skip {k : ℕ} {ops : List Slot}
    (h : Took es free batch { t with
      head := t.head + 1
      ring := { t.ring with sqDropped := t.ring.sqDropped + 1 }
      submitted := t.submitted + 1 } t' k ops) :
    Took (none :: es) free batch t t' (k + 1) ops where
  count := by rw [fitting, h.count]
  slots := h.slots
  head := by rw [h.head, cursor_succ]
  submitted := by rw [h.submitted, cursor_succ]
  dropped := by rw [h.dropped, List.take_succ_cons, List.count_cons_self, cursor_succ]
  accepted := h.accepted
  freeList := h.freeList
  batchList := h.batchList
  copies := h.copies
  kept := h.kept
  others := h.others
  rest := h.rest

/-- An in-range index in front: its SQE goes into the first free op. -/
theorem Took.take {k : ℕ} {ops : List Slot} {op : Slot} {q : Sqe} (hop : op ∉ batch)
    (hlast : t.batchTail = batch.getLast?)
    (h : Took es free (batch ++ [op]) {
      head := t.head + 1
      ring := t.ring.inVault fun v => takenInto v op q t.accepted t.batchTail
      submitted := t.submitted + 1
      batchHead := if t.batchTail = none then some op else t.batchHead
      batchTail := some op
      accepted := t.accepted + 1 } t' k ops) :
    Took (some q :: es) (op :: free) batch t t' (k + 1) (op :: ops) := by
  have hne : t.batchTail ≠ some op := by
    rw [hlast]
    exact fun he => hop (List.mem_of_getLast? he)
  have hpool (x : Slot) := takenInto_opPool (q := q) (v := t.ring.toVault) (i := t.accepted) hne x
  exact {
    count := by rw [List.length_cons, fitting, h.count]
    slots := by
      rw [List.take_succ_cons, inRange_cons, List.length_cons, List.take_succ_cons,
        h.slots]
    head := by rw [h.head, cursor_succ]
    submitted := by rw [h.submitted, cursor_succ]
    dropped := by
      rw [h.dropped, List.take_succ_cons, List.count_cons_of_ne (by simp)]
      rfl
    accepted := by
      rw [h.accepted, List.length_cons, ← Nat.add_assoc, Nat.add_right_comm]
    freeList := h.freeList
    batchList := by
      rw [List.append_cons]
      exact h.batchList
    copies := by
      have hq := h.kept op (by simp)
      rw [Ring.inVault_toVault, hpool op, if_pos rfl] at hq
      rw [List.map_cons, h.copies, hq, List.take_succ_cons, inRange_cons]
    kept := by
      intro x hx
      rw [h.kept x (List.mem_append_left _ hx), Ring.inVault_toVault, hpool x,
        if_neg fun he : x = op => hop (he ▸ hx)]
      split <;> rfl
    others := by
      intro x hx hxops
      obtain ⟨hxop, hxrest⟩ := not_or.mp (List.mem_cons.not.mp hxops)
      have hxlast : t.batchTail ≠ some x := by
        rw [hlast]
        exact fun he => hx (List.mem_of_getLast? he)
      rw [h.others x (by simp [hx, hxop]) hxrest, Ring.inVault_toVault, hpool x, if_neg hxop,
        if_neg hxlast]
    rest := by
      rw [h.rest, Ring.inVault, takenInto_rest] }

/-- The op linked behind the batch ends it, and the rest of the free list stays a list. -/
theorem takenInto_lists {op : Slot} {q : Sqe} (hnd : (op :: free ++ batch).Nodup)
    (hfree : Threads t.ring.next t.ring.opFree (op :: free))
    (hbatch : IsQueue t.ring.next t.batchHead t.batchTail batch) :
    Threads (takenInto t.ring.toVault op q t.accepted t.batchTail).next
        (takenInto t.ring.toVault op q t.accepted t.batchTail).opFree free ∧
      IsQueue (takenInto t.ring.toVault op q t.accepted t.batchTail).next
        (if t.batchTail = none then some op else t.batchHead) (some op) (batch ++ [op]) := by
  obtain ⟨hop, hrest⟩ := List.nodup_cons.mp hnd
  obtain ⟨hopfree, hopbatch⟩ : op ∉ free ∧ op ∉ batch := by simpa using hop
  have hlast (x : Slot) (hx : t.batchTail = some x) : x ∈ batch :=
    List.mem_of_getLast? (hbatch.tail.symm.trans hx)
  have hnext (x : Slot) := takenInto_next (q := q) (v := t.ring.toVault) (i := t.accepted)
    op t.batchTail x
  constructor
  · rw [takenInto_opFree]
    apply hfree.2.congr
    intro x hx
    have hxbatch : x ∉ batch := fun hb => (List.nodup_append.mp hrest).2.2 x hx x hb rfl
    rw [hnext, if_neg fun he => hxbatch (hlast x he), if_neg fun he : x = op => hopfree (he ▸ hx)]
  · have hone : IsQueue (fun x => if x = op then none else t.ring.next x) (some op) (some op) [op] :=
      ⟨⟨rfl, if_pos rfl⟩, rfl⟩
    have hbatch' : IsQueue (fun x => if x = op then none else t.ring.next x) t.batchHead t.batchTail
        batch := by
      apply hbatch.congr
      intro x hx
      exact if_neg fun he : x = op => hopbatch (he ▸ hx)
    apply hbatch'.append hone
    · intro x hx hxop
      exact hopbatch (List.mem_singleton.mp hxop ▸ hx)
    · simp
    · cases t.batchTail <;> rfl
    · intro x hx
      rw [hnext, if_pos hx]
    · intro x hx
      rw [hnext, if_neg hx]

/-- After a turn the count is one more, within what may be submitted, and a turn fewer is left. -/
theorem turn_next {toSubmit : UInt32} {turns : ℕ}
    (hcond : t.head ≠ sq.tail ∧ t.submitted < toSubmit)
    (hturns : avail t.head sq.tail ≤ turns + 1) :
    (t.submitted + 1).toNat = t.submitted.toNat + 1 ∧ t.submitted + 1 ≤ toSubmit ∧
      avail (t.head + 1) sq.tail ≤ turns := by
  have hlt := UInt32.lt_iff_toNat_lt.mp hcond.2
  have hsucc : (t.submitted + 1).toNat = t.submitted.toNat + 1 := by
    rw [UInt32.toNat_add, show (1 : UInt32).toNat = 1 from rfl]
    have hmax := toSubmit.toNat_lt
    omega
  refine ⟨hsucc, ?_, ?_⟩
  · rw [UInt32.le_iff_toNat_le, hsucc]
    exact hlt
  · rw [avail_succ hcond.1]
    omega

/-- Each turn takes the next entry, until the entries, what may be submitted, or the pool run out. -/
theorem takeTurns_took (sq : SqRing) (toSubmit : UInt32) {turns : ℕ} (hle : t.submitted ≤ toSubmit)
    (hturns : avail t.head sq.tail ≤ turns) (hnd : (free ++ batch).Nodup)
    (hfree : Threads t.ring.next t.ring.opFree free)
    (hbatch : IsQueue t.ring.next t.batchHead t.batchTail batch) :
    ∃ k ops, Took (sq.pending toSubmit t.submitted t.head) free batch t
      (sq.takeTurns toSubmit turns t) k ops := by
  induction turns generalizing t free batch with
  | zero =>
    have hend : ¬ (t.head ≠ sq.tail ∧ t.submitted < toSubmit) := by
      rintro ⟨hne, -⟩
      have hpos := avail_pos hne
      omega
    rw [pending_nil hend hle]
    exact ⟨0, [], .nothing rfl hfree hbatch⟩
  | succ turns ih =>
    rw [SqRing.takeTurns]
    by_cases hcond : t.head ≠ sq.tail ∧ t.submitted < toSubmit
    · obtain ⟨-, hle', hturns'⟩ := turn_next hcond hturns
      rw [if_pos hcond, pending_cons hcond.1 hcond.2]
      cases he : sq.entry t.head with
      | none =>
        rw [takeOne_outside he]
        obtain ⟨k, ops, htook⟩ := ih (t := { t with
          head := t.head + 1
          ring := { t.ring with sqDropped := t.ring.sqDropped + 1 }
          submitted := t.submitted + 1 }) hle' hturns' hnd hfree hbatch
        exact ⟨k + 1, ops, htook.skip⟩
      | some q =>
        cases free with
        | nil =>
          rw [takeOne_dry he hfree]
          exact ⟨0, [], .nothing rfl hfree hbatch⟩
        | cons op free =>
          rw [takeOne_inside he hfree.1]
          obtain ⟨hfree', hbatch'⟩ := takenInto_lists (q := q) hnd hfree hbatch
          have hperm : (free ++ (batch ++ [op])).Nodup := by
            rw [← List.append_assoc]
            apply (List.perm_append_singleton op (free ++ batch)).nodup_iff.mpr
            exact hnd
          have hopbatch : op ∉ batch := by
            have hop := (List.nodup_cons.mp hnd).1
            exact fun hb => hop (List.mem_append_right _ hb)
          obtain ⟨k, ops, htook⟩ := ih (t := {
            head := t.head + 1
            ring := t.ring.inVault fun v => takenInto v op q t.accepted t.batchTail
            submitted := t.submitted + 1
            batchHead := if t.batchTail = none then some op else t.batchHead
            batchTail := some op
            accepted := t.accepted + 1 }) hle' hturns' hperm hfree' hbatch'
          exact ⟨k + 1, op :: ops, htook.take hopbatch hbatch.tail⟩
    · rw [if_neg hcond, pending_nil hcond hle]
      exact ⟨0, [], .nothing rfl hfree hbatch⟩

end TakeTurns

/-- The machine of enter while the loop stands at `t`, with `rest` of the entries to come. -/
def Taking.stands (t : Taking) (s : Core) (call : Call) (rest : List (Option Sqe)) : Core :=
  { s with
    ring := t.ring
    pc := .take call rest t.submitted.toNat t.batchHead t.batchTail
    accepted := t.accepted }

/-- Enter up to the processing of the queue: the loop, and its batch behind the queue. -/
def SqRing.submit (sq : SqRing) (toSubmit : UInt32) (call : Call) (s : Core) : Core :=
  let t := sq.takeAll toSubmit s
  let f : Frame := { call := call, submitted := t.submitted.toNat }
  match t.batchHead with
  | none => { s with ring := t.ring, pc := Core.afterQueue f, accepted := t.accepted }
  | some h =>
    { s with ring := t.ring.appendBatch h t.batchTail, pc := .queue f, accepted := t.accepted }

section Machine
variable {sq : SqRing} {t : Taking} {s : Core} {call : Call} {toSubmit : UInt32}

/-- A turn of the loop is a `takeSqe` of the machine. -/
theorem takeSqe_turn (sq : SqRing) (s : Core) (call : Call) (rest : List (Option Sqe))
    (hsucc : (t.submitted + 1).toNat = t.submitted.toNat + 1) :
    coreMachine.step (t.stands s call (sq.entry t.head :: rest)) .takeSqe =
      some (match sq.takeOne t with
        | some t' => t'.stands s call rest
        | none => t.stands s call []) := by
  cases he : sq.entry t.head with
  | none =>
    rw [takeOne_outside he]
    simp only [coreMachine, Core.step, Core.takeSqe, Taking.stands, hsucc]
  | some q =>
    cases hfree : t.ring.opFree with
    | none =>
      rw [takeOne_dry he hfree]
      simp only [coreMachine, Core.step, Core.takeSqe, Taking.stands, Vault.opAllocLocked, hfree]
    | some op =>
      rw [takeOne_inside he hfree]
      cases htail : t.batchTail <;>
        simp only [coreMachine, Core.step, Core.takeSqe, Taking.stands, Vault.opAllocLocked, hfree,
          hsucc, takenInto, Vault.setOp_opPool, if_true, Vault.setOp_setOp, Ring.inVault, htail]

theorem takeOne_moves {t' : Taking} (h : sq.takeOne t = some t') :
    t'.head = t.head + 1 ∧ t'.submitted = t.submitted + 1 := by
  cases he : sq.entry t.head with
  | none =>
    rw [takeOne_outside he] at h
    cases h
    exact ⟨rfl, rfl⟩
  | some q =>
    cases hfree : t.ring.opFree with
    | none =>
      rw [takeOne_dry he hfree] at h
      cases h
    | some op =>
      rw [takeOne_inside he hfree] at h
      cases h
      exact ⟨rfl, rfl⟩

/-- The loop is a run of the machine. -/
theorem takeTurns_runs (sq : SqRing) (toSubmit : UInt32) (s : Core) (call : Call) {turns : ℕ}
    (hle : t.submitted ≤ toSubmit) (hturns : avail t.head sq.tail ≤ turns) :
    ∃ tr, Run coreMachine Keeps (t.stands s call (sq.pending toSubmit t.submitted t.head)) tr
      ((sq.takeTurns toSubmit turns t).stands s call []) := by
  induction turns generalizing t with
  | zero =>
    have hend : ¬ (t.head ≠ sq.tail ∧ t.submitted < toSubmit) := by
      rintro ⟨hne, -⟩
      have hpos := avail_pos hne
      omega
    rw [pending_nil hend hle]
    exact ⟨[], .start⟩
  | succ turns ih =>
    rw [SqRing.takeTurns]
    by_cases hcond : t.head ≠ sq.tail ∧ t.submitted < toSubmit
    · obtain ⟨hsucc, hle', hturns'⟩ := turn_next hcond hturns
      have hstep := takeSqe_turn sq s call (sq.pending toSubmit (t.submitted + 1) (t.head + 1)) hsucc
      rw [if_pos hcond, pending_cons hcond.1 hcond.2]
      cases hone : sq.takeOne t with
      | none =>
        rw [hone] at hstep
        exact ⟨_, Run.start.next (by trivial) hstep⟩
      | some t' =>
        rw [hone] at hstep
        obtain ⟨hhead, hsubmitted⟩ := takeOne_moves hone
        obtain ⟨tr, hrun⟩ := ih (t := t')
          (by rw [hsubmitted]; exact hle') (by rw [hhead]; exact hturns')
        rw [hsubmitted, hhead] at hrun
        exact ⟨_, hrun.cons (by trivial) hstep⟩
    · rw [if_neg hcond, pending_nil hcond hle]
      exact ⟨[], .start⟩

/-- The call with the entries the loop may take. -/
def SqRing.callOf (sq : SqRing) (toSubmit : UInt32) (opts : Call) : Call :=
  { opts with entries := sq.pending toSubmit 0 sq.head }

/-- Enter is a run of the machine up to the processing of the queue. -/
theorem submit_runs (sq : SqRing) (toSubmit : UInt32) (opts : Call) {ret : Option Int32}
    (hout : s.pc = .out ret) :
    ∃ tr, Run coreMachine Keeps s tr (sq.submit toSubmit (sq.callOf toSubmit opts) s) := by
  have henter : coreMachine.step s (.enter (sq.callOf toSubmit opts)) =
      some (Taking.stands { head := sq.head, ring := s.ring, accepted := s.accepted } s
        (sq.callOf toSubmit opts) (sq.pending toSubmit 0 sq.head)) := by
    simp only [coreMachine, Core.step, hout]
    rfl
  obtain ⟨tr, hloop⟩ := takeTurns_runs
    (t := { head := sq.head, ring := s.ring, accepted := s.accepted })
    sq toSubmit s (sq.callOf toSubmit opts) UInt32.zero_le le_rfl
  have happend :
      coreMachine.step ((sq.takeAll toSubmit s).stands s (sq.callOf toSubmit opts) []) .append =
        some (sq.submit toSubmit (sq.callOf toSubmit opts) s) := by
    simp only [coreMachine, Core.step, Core.append, Taking.stands, SqRing.submit]
    cases (sq.takeAll toSubmit s).batchHead <;> rfl
  have hrun := (Run.start.next (by trivial) henter).append hloop
  exact ⟨_, hrun.next (by trivial) happend⟩

end Machine

/-- Enter works on, or has ended, for a call that took `k` entries: it answers `k` or an error. -/
def Pc.EndsWith (k : ℕ) : Pc → Prop
  | .out ret => ∃ r, ret = some r ∧ (r < 0 ∨ r = Int32.ofNat k)
  | .take _ _ _ _ _ => False
  | .queue f | .exec f _ _ _ | .post f _ _ | .settle f | .check f | .wait f _ _ | .complete f _ =>
    f.submitted = k

theorem afterQueue_endsWith {k : ℕ} {f : Frame} (hf : f.submitted = k) :
    (Core.afterQueue f).EndsWith k := by
  unfold Core.afterQueue
  split
  · exact hf
  · exact ⟨_, rfl, Or.inr (by rw [hf])⟩

theorem EndsWith.step {k : ℕ} {s s' : Core} {l : CoreLabel} (h : s.pc.EndsWith k)
    (hl : ∀ call, l ≠ .enter call) (hs : s.step l = some s') : s'.pc.EndsWith k := by
  cases l with
  | enter call => exact absurd rfl (hl call)
  | queueStep target reads =>
    simp only [Core.step, Core.queueStep] at hs
    split at hs
    · next f hpc =>
      rw [hpc] at h
      (repeat' split at hs) <;> cases hs
      · exact afterQueue_endsWith h
      · exact afterQueue_endsWith h
      all_goals simp_all [Pc.EndsWith]
    · cases hs
  | check left =>
    simp only [Core.step, Core.check] at hs
    split at hs
    · next f hpc =>
      rw [hpc] at h
      (repeat' split at hs) <;> cases hs
      · exact ⟨_, rfl, Or.inr (by rw [show f.submitted = k from h])⟩
      · exact ⟨_, rfl, Or.inl (by decide)⟩
      · exact h
      · exact h
    · cases hs
  | waitFail =>
    simp only [Core.step, Core.waitFail] at hs
    split at hs <;> cases hs
    exact ⟨_, rfl, Or.inl (by decide)⟩
  | offFinish op res ticket =>
    cases hs
    cases ticket <;> exact h
  | _ =>
    simp only [Core.step, Core.takeSqe, Core.append, Core.post, Core.settle, Core.complete,
      Core.execDone, Core.execTake, Core.execPending, Core.cancelHeld, Core.cancelQueued,
      Core.handBack, Core.waitReturn, Core.offPost] at hs
    (repeat' split at hs) <;> cases hs <;> simp_all [Core.setHand, Pc.EndsWith]

theorem EndsWith.answer {k : ℕ} (hk : k < 2 ^ 32) {ret : Option Int32}
    (h : (Pc.out ret).EndsWith k) : ∃ r, ret = some r ∧ (r < 0 ∨ r.toInt = k) := by
  obtain ⟨r, rfl, hr⟩ := h
  apply Exists.intro r
  apply And.intro rfl
  by_cases hneg : r < 0
  · exact Or.inl hneg
  · right
    have heq := hr.resolve_left hneg
    rw [heq] at hneg ⊢
    rw [Int32.lt_iff_toInt_lt, Int32.toInt_ofNat'] at hneg
    rw [Int32.toInt_ofNat']
    have hzero : (0 : Int32).toInt = 0 := rfl
    have hsize : Int32.size = 2 ^ 32 := rfl
    rw [hzero] at hneg
    rw [Int.bmod_def, hsize] at hneg ⊢
    omega

/-- What becomes of the ring by the loop and the append: `k` entries are taken, their SQEs stand in
`ops` behind what was queued, and nothing else of the ring is written. -/
structure Consumed (sq : SqRing) (toSubmit : UInt32) (t : Taking) (r r' : Ring)
    (free queue : List Slot) (k : ℕ) (ops : List Slot) : Prop where
  most : IsGreatest {m | m ≤ toSubmit.toNat ∧ m ≤ (sq.tail - sq.head).toNat ∧
    ((sq.firsts m).filterMap id).length ≤ free.length} k
  head : t.head = sq.head + UInt32.ofNat k
  submitted : t.submitted.toNat = k
  dropped : r'.sqDropped = r.sqDropped + UInt32.ofNat ((sq.firsts k).count none)
  slots : ops = free.take ((sq.firsts k).filterMap id).length
  freeList : Threads r'.next r'.opFree (free.drop ops.length)
  queueList : IsQueue r'.next r'.queueHead r'.queueTail (queue ++ ops)
  copies : ops.map (fun x => (r'.opPool x).sqe) = (sq.firsts k).filterMap id
  others : ∀ x, x ∉ ops → r'.opPool x = { r.opPool x with next := r'.next x }
  rest : r' = { r with
    opPool := r'.opPool
    opFree := r'.opFree
    sqDropped := r'.sqDropped
    queueHead := r'.queueHead
    queueTail := r'.queueTail }

section Consumed
variable {sq : SqRing} {s : Core} {call : Call} {toSubmit : UInt32} {free queue : List Slot}

theorem firsts_take (sq : SqRing) {m n : ℕ} (h : m ≤ n) : (sq.firsts n).take m = sq.firsts m := by
  rw [SqRing.firsts, SqRing.firsts, ← List.map_take, List.take_range, Nat.min_eq_left h]

theorem pending_eq_firsts : sq.pending toSubmit 0 sq.head =
    sq.firsts (min toSubmit.toNat (sq.tail - sq.head).toNat) := by
  rw [SqRing.pending, SqRing.firsts, avail, avail, UInt32.sub_zero]

@[simp] theorem firsts_length (sq : SqRing) (m : ℕ) : (sq.firsts m).length = m := by
  rw [SqRing.firsts, List.length_map, List.length_range]

/-- What fits of the entries that may be taken, said of the entries from the head on. -/
theorem firsts_fits {a b pool : ℕ} : {m | m ≤ (sq.firsts (min a b)).length ∧
      (((sq.firsts (min a b)).take m).filterMap id).length ≤ pool} =
    {m | m ≤ a ∧ m ≤ b ∧ ((sq.firsts m).filterMap id).length ≤ pool} := by
  ext m
  rw [Set.mem_ofPred_eq, Set.mem_ofPred_eq, firsts_length, Nat.le_min, and_assoc]
  apply and_congr_right
  intro ha
  apply and_congr_right
  intro hb
  rw [firsts_take sq (Nat.le_min.mpr ⟨ha, hb⟩)]

/-- The batch stands behind the queue, whether it is empty or not. -/
theorem submit_queue (call : Call) {t : Taking} {ops : List Slot} (ht : sq.takeAll toSubmit s = t)
    (hqueue : IsQueue t.ring.next t.ring.queueHead t.ring.queueTail queue)
    (hbatch : IsQueue t.ring.next t.batchHead t.batchTail ops) (hd : ∀ x ∈ queue, x ∉ ops) :
    let r := (sq.submit toSubmit call s).ring
    IsQueue r.next r.queueHead r.queueTail (queue ++ ops) ∧
      (∀ x, x ∉ queue → r.next x = t.ring.next x) ∧
      (∀ x, r.opPool x = { t.ring.opPool x with next := r.next x }) ∧
      r = { t.ring with
        opPool := r.opPool
        queueHead := r.queueHead
        queueTail := r.queueTail } := by
  simp only [SqRing.submit, ht]
  cases hb : t.batchHead with
  | none =>
    rw [hbatch.head_none.mp hb, List.append_nil]
    exact ⟨hqueue, fun _ _ => rfl, fun _ => rfl, rfl⟩
  | some b =>
    have hne : ops ≠ [] := by
      intro hnil
      cases hb.symm.trans (hbatch.head_none.mpr hnil)
    have hnext := appendBatch_next t.ring b t.batchTail
    have hrest := appendBatch_rest t.ring b t.batchTail
    have hhead := congrArg Ring.queueHead hrest
    have htail := congrArg Ring.queueTail hrest
    refine ⟨?_, ?_, appendBatch_opPool t.ring b t.batchTail, ?_⟩
    · rw [htail]
      apply hqueue.append hbatch hd hne
      · rw [hb]
        exact hhead
      · intro x hx
        rw [hb]
        exact (hnext x).trans (if_pos hx)
      · intro x hx
        exact (hnext x).trans (if_neg hx)
    · intro x hx
      apply (hnext x).trans
      apply if_neg
      intro hx'
      exact hx (List.mem_of_getLast? (hqueue.tail.symm.trans hx'))
    · apply hrest.trans
      rw [hhead, htail]

theorem submit_consumed (sq : SqRing) (toSubmit : UInt32) (call : Call)
    (hfree : Threads s.ring.next s.ring.opFree free)
    (hqueue : IsQueue s.ring.next s.ring.queueHead s.ring.queueTail queue)
    (hd : ∀ x ∈ queue, x ∉ free) :
    ∃ k ops, Consumed sq toSubmit (sq.takeAll toSubmit s) s.ring
      (sq.submit toSubmit call s).ring free queue k ops := by
  obtain ⟨k, ops, htook⟩ := takeTurns_took
    (t := { head := sq.head, ring := s.ring, accepted := s.accepted }) sq toSubmit
    UInt32.zero_le le_rfl (by rw [List.append_nil]; exact threads_nodup hfree) hfree (isQueue_nil _)
  change Took _ _ _ _ (sq.takeAll toSubmit s) k ops at htook
  generalize ht : sq.takeAll toSubmit s = t at htook
  rw [pending_eq_firsts] at htook
  have hmost := fitting_isGreatest free.length
    (sq.firsts (min toSubmit.toNat (sq.tail - sq.head).toNat))
  rw [← htook.count, firsts_fits] at hmost
  have hes := firsts_take sq (Nat.le_min.mpr ⟨hmost.1.1, hmost.1.2.1⟩)
  have hsub : ∀ x ∈ ops, x ∈ free := by
    intro x hx
    rw [htook.slots] at hx
    exact List.mem_of_mem_take hx
  have hqueue' : IsQueue t.ring.next t.ring.queueHead t.ring.queueTail queue := by
    rw [htook.rest]
    apply hqueue.congr
    intro x hx
    have hpool := htook.others x List.not_mem_nil fun hops => hd x hx (hsub x hops)
    exact congrArg EngOp.next hpool
  obtain ⟨hlist, hnext, hpool, hrest⟩ := submit_queue call ht hqueue' htook.batchList
    fun x hx hops => hd x hx (hsub x hops)
  have hdropped := congrArg Ring.sqDropped hrest
  have hopFree := congrArg (fun r => r.toVault.opFree) hrest
  refine ⟨k, ops, hmost, ?_, ?_, ?_, ?_, ?_, hlist, ?_, ?_, ?_⟩
  · exact htook.head
  · have hlt : k < 2 ^ 32 := Nat.lt_of_le_of_lt hmost.1.1 toSubmit.toNat_lt
    rw [htook.submitted, UInt32.zero_add, UInt32.toNat_ofNat_of_lt' hlt]
  · rw [← hes, hdropped]
    exact htook.dropped
  · rw [← hes]
    exact htook.slots
  · rw [hopFree]
    apply htook.freeList.congr
    intro x hx
    apply hnext
    exact fun hq => hd x hq (List.mem_of_mem_drop hx)
  · rw [← hes, ← htook.copies]
    apply List.map_congr_left
    intro x _
    rw [hpool]
  · intro x hx
    have hkeep := htook.others x List.not_mem_nil hx
    rw [hpool, hkeep]
  · rw [hrest, htook.rest]

theorem cursor_lt (sq : SqRing) (cursor : UInt32) :
    (cursor &&& sq.ringMask).toNat < sq.sqEntries.toNat := by
  obtain ⟨k, hk, hentries⟩ := sq.power
  have hlt : 2 ^ k < 2 ^ 32 := Nat.pow_lt_pow_right (by decide) (by omega)
  rw [sq.mask, hentries, and_mask hk, UInt32.toNat_ofNat_of_lt' hlt]
  exact Nat.mod_lt _ (Nat.two_pow_pos k)

section Reads
variable {array : ℕ → UInt32} {sqes : ℕ → Sqe}

theorem takeOne_reads
    (h : ∀ i < sq.sqEntries.toNat, array i = sq.array i ∧ sqes i = sq.sqes i) (t : Taking) :
    SqRing.takeOne { sq with array := array, sqes := sqes } t = sq.takeOne t := by
  have harray := (h _ (cursor_lt sq t.head)).1
  simp only [SqRing.takeOne, harray]
  split
  · next hi => rw [(h _ (UInt32.lt_iff_toNat_lt.mp hi)).2]
  · rfl

/-- The loop is the same whatever stands past the ring's entries. -/
theorem takeAll_reads
    (h : ∀ i < sq.sqEntries.toNat, array i = sq.array i ∧ sqes i = sq.sqes i) :
    SqRing.takeAll { sq with array := array, sqes := sqes } toSubmit s = sq.takeAll toSubmit s := by
  suffices hturns : ∀ turns t,
      SqRing.takeTurns { sq with array := array, sqes := sqes } toSubmit turns t =
        sq.takeTurns toSubmit turns t by
    exact hturns _ _
  intro turns
  induction turns with
  | zero => exact fun _ => rfl
  | succ turns ih =>
    intro t
    rw [SqRing.takeTurns, SqRing.takeTurns, takeOne_reads h]
    cases sq.takeOne t with
    | none => rfl
    | some t' => simp only [ih]

end Reads

/-- Enter consumes exactly what it says: of the free ops `free` and behind the queue `queue` it takes
what fits, on a run of the machine, whatever stands past the ring's entries, and the call that goes
on from there answers that many or an error. -/
def Consumes (sq : SqRing) (toSubmit : UInt32) (opts : Call) (s : Core) : Prop :=
  let s' := sq.submit toSubmit (sq.callOf toSubmit opts) s
  ∃ free queue k ops,
    Threads s.ring.next s.ring.opFree free ∧
    IsQueue s.ring.next s.ring.queueHead s.ring.queueTail queue ∧
    Consumed sq toSubmit (sq.takeAll toSubmit s) s.ring s'.ring free queue k ops ∧
    (∃ tr, Run coreMachine Keeps s tr s') ∧
    (∀ array sqes, (∀ i < sq.sqEntries.toNat, array i = sq.array i ∧ sqes i = sq.sqes i) →
      SqRing.takeAll { sq with array := array, sqes := sqes } toSubmit s = sq.takeAll toSubmit s) ∧
    ∀ tr s'' answer,
      Run coreMachine (fun s l => Keeps s l ∧ ∀ call, l ≠ .enter call) s' tr s'' →
      s''.pc = .out answer → ∃ r, answer = some r ∧ (r < 0 ∨ r.toInt = k)

theorem enter_consumes {n : ℕ} {e : UInt32} {tr : List Event} {s : Core} {ret : Option Int32}
    (hr : Run coreMachine Keeps (setupCore n e) tr s) (hout : s.pc = .out ret) (sq : SqRing)
    (toSubmit : UInt32) (opts : Call) : Consumes sq toSubmit opts s := by
  obtain ⟨a, free, backlog, queue, batch, -, -, hrep, -, -⟩ :=
    core_run_refines (C := fun _ _ => True) (fun _ _ h => h)
      (fun _ _ _ _ _ _ _ _ _ _ _ _ => trivial) hr
  have hplaced := hrep.placed
  have hd : ∀ x ∈ queue, x ∉ free := by
    intro x hq hf
    have hone := hplaced.places x
    have hq' := List.count_pos_iff.mpr hq
    have hf' := List.count_pos_iff.mpr hf
    split at hone <;> omega
  obtain ⟨k, ops, hcons⟩ := submit_consumed sq toSubmit (sq.callOf toSubmit opts)
    hplaced.vault.free hplaced.queueList hd
  have hlt : k < 2 ^ 32 := Nat.lt_of_le_of_lt hcons.most.1.1 toSubmit.toNat_lt
  have hend : (sq.submit toSubmit (sq.callOf toSubmit opts) s).pc.EndsWith k := by
    rw [SqRing.submit]
    cases (sq.takeAll toSubmit s).batchHead with
    | none => exact afterQueue_endsWith hcons.submitted
    | some b => exact hcons.submitted
  refine ⟨free, queue, k, ops, hplaced.vault.free, hplaced.queueList, hcons,
    submit_runs sq toSubmit opts hout, fun _ _ h => takeAll_reads h, ?_⟩
  intro tr s'' answer hrun hanswer
  have hkeep := Run.invariant (fun _ s => s.pc.EndsWith k) hend
    (fun _ _ _ _ _ h hc hs => EndsWith.step h hc.2 hs) hrun
  rw [hanswer] at hkeep
  exact EndsWith.answer hlt hkeep

/-- Two entries across the wrap of the head, the second of them past the array. -/
def wrappedSq : SqRing where
  head := 4294967295
  tail := 1
  ringMask := 1
  sqEntries := 2
  array := fun i => if i = 0 then 7 else 0
  sqes := fun _ => {}
  power := ⟨1, by decide, rfl⟩
  mask := rfl

theorem wrapped_consumes : Consumes wrappedSq 5 {} (setupCore 1 4) :=
  enter_consumes .start rfl wrappedSq 5 {}

end Consumed

end SlipstreamIO.Engine
