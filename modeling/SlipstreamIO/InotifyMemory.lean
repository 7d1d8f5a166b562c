import Mathlib.Data.Nat.Find
import SlipstreamIO.BlockSlices
import SlipstreamIO.InotifyFraming

/-! The memory under the queue: what emit copies into it and where, how realloc grows it, and why the
overflow record, for which it is not grown, has room in it. -/
namespace SlipstreamIO.Inotify
open Runs Framing BlockSlices

/-- The queue fields of `struct inst`, with the memory. -/
structure RawQueue where
  block : Block UInt8 := {}
  qlen : ℕ := 0
  qcap : ℕ := 0
  overflowed : Bool := false

namespace RawQueue

/-- The size the growth loop starts from. -/
def firstWant (q : RawQueue) : ℕ := if q.qcap = 0 then 4096 else q.qcap * 2

/-- A record that has room: the event, and its name over zeroed bytes. -/
def put (q : RawQueue) (r : Record) : RawQueue :=
  let len := (nameLen r.name).toNat
  let block := q.block.store q.qlen (eventBytes r.wd r.mask r.cookie (nameLen r.name))
  if len ≠ 0 then
    let zeroed := block.store (q.qlen + eventSize) (List.replicate len 0)
    { q with
      block := zeroed.store (q.qlen + eventSize) (r.name.getD [])
      qlen := q.qlen + eventSize + len
      overflowed := false }
  else { q with block := block, qlen := q.qlen + eventSize, overflowed := false }

/-- emit; `grown` is what a realloc it makes gives, with the contents of the new memory. -/
def emit (queueMax : ℕ) (grown : Option (ℕ → UInt8)) (q : RawQueue) (r : Record) : RawQueue :=
  if queueMax < q.qlen + r.total then
    if q.overflowed then q
    else if queueMax < q.qlen + eventSize then q
    else
      { q with
        block := q.block.store q.qlen (eventBytes (-1) inQOverflow 0 0)
        qlen := q.qlen + eventSize
        overflowed := true }
  else if q.qcap < q.qlen + r.total then
    match grown with
    | none => q
    | some fresh =>
      let want := Queue.growTo (q.qlen + r.total) (q.qlen + r.total) q.firstWant
      { q with block := q.block.realloc want fresh, qcap := want }.put r
  else q.put r

/-- The queue without its memory. -/
def view (q : RawQueue) : Queue :=
  { queue := q.block.cells.take q.qlen, qcap := q.qcap, overflowed := q.overflowed }

/-- What read leaves of the queue: the bytes it took are moved over. -/
def read (q : RawQueue) (len : ℕ) : RawQueue :=
  if len < eventSize then q
  else if q.qlen = 0 then q
  else
    let out := Queue.wholeRecords q.view.queue len q.qlen 0
    if out = 0 then q
    -- past the records, and the count of the memmove wraps
    else if q.qlen < out then { q with block := { q.block with wild := true } }
    else { q with block := q.block.store 0 (q.view.queue.drop out), qlen := q.qlen - out }

end RawQueue

inductive RawLabel
  | emit (grown : Option (ℕ → UInt8)) (r : Record)
  | read (len : ℕ)

/-- The label with the memory left out. -/
def RawLabel.view : RawLabel → QueueLabel
  | .emit grown r => .emit grown.isSome r
  | .read len => .read len

/-- Any sequence of emits and reads on the memory, with the events of the queue. -/
def rawMachine (queueMax : ℕ) : Machine RawQueue RawLabel QueueEvent where
  step q
    | .emit grown r => some (q.emit queueMax grown r)
    | .read len => some (q.read len)
  events q l := (Queue.machine queueMax).events q.view l.view

/-- Names are shorter than 4096 bytes. -/
def ShortName (_ : RawQueue) : RawLabel → Prop
  | .emit _ r => (r.name.getD []).length < 4096
  | .read _ => True

instance (q : RawQueue) (l : RawLabel) : Decidable (ShortName q l) :=
  match l with
  | .emit _ r => inferInstanceAs (Decidable ((r.name.getD []).length < 4096))
  | .read _ => isTrue trivial

/-- `while (want < need) want *= 2` goes round exactly `turns` times. -/
def GrowsIn (need want turns : ℕ) : Prop := (∀ j < turns, want * 2 ^ j < need) ∧ need ≤ want * 2 ^ turns

/-- No copy went past the allocation, which has `qcap` bytes: none yet, or 4096 doubled up to eight
times; and what waits fits it and the bound. -/
structure RawQueue.Inside (q : RawQueue) : Prop where
  tame : q.block.wild = false
  alloc : q.block.cells.length = q.qcap
  grown : q.qcap = 0 ∨ ∃ k ≤ 8, q.qcap = 4096 * 2 ^ k
  fits : q.qlen ≤ q.qcap
  bound : q.qlen ≤ inotifyQueueMax

section Grow
variable {need want turns : ℕ}

theorem growTo_eq (h : GrowsIn need want turns) {fuel : ℕ} (hf : turns ≤ fuel) :
    Queue.growTo need fuel want = want * 2 ^ turns := by
  induction turns generalizing want fuel with
  | zero =>
    have hle : need ≤ want := by simpa using h.2
    cases fuel with
    | zero => simp [Queue.growTo]
    | succ fuel => simp [Queue.growTo, Nat.not_lt.mpr hle]
  | succ turns ih =>
    obtain ⟨fuel, rfl⟩ := Nat.exists_eq_add_of_le' hf
    have hlt : want < need := by simpa using h.1 0 (by omega)
    have hnext : GrowsIn need (want * 2) turns := by
      refine ⟨fun j hj => ?_, ?_⟩
      · have hj := h.1 (j + 1) (by omega)
        rwa [Nat.pow_succ', ← Nat.mul_assoc] at hj
      · have hend := h.2
        rwa [Nat.pow_succ', ← Nat.mul_assoc] at hend
    rw [show fuel + (turns + 1) = (fuel + turns) + 1 by omega, Queue.growTo, if_pos hlt,
      ih hnext (by omega), Nat.pow_succ', Nat.mul_assoc]

/-- The doubling comes to `need` at the first power that covers it. -/
theorem growsIn_of_le {k : ℕ} (h : need ≤ want * 2 ^ k) : ∃ turns ≤ k, GrowsIn need want turns := by
  classical
  have hex : ∃ turns, need ≤ want * 2 ^ turns := ⟨k, h⟩
  refine ⟨Nat.find hex, Nat.find_le h, fun j hj => ?_, Nat.find_spec hex⟩
  exact Nat.not_le.mp (Nat.find_min hex hj)

end Grow

theorem length_eventBytes (wd : Int32) (mask cookie len : UInt32) :
    (eventBytes wd mask cookie len).length = eventSize := rfl

namespace Record

theorem nameLen_short {r : Record} (h : (r.name.getD []).length < 4096) :
    (nameLen r.name).toNat ≤ 4096 ∧ (r.name.getD []).length ≤ (nameLen r.name).toNat ∧
      ((nameLen r.name).toNat = 0 → r.name.getD [] = []) := by
  cases hn : r.name with
  | none => simp [nameLen]
  | some name =>
    rw [hn, Option.getD_some] at h
    have hlen : (nameLen (some name)).toNat = (name.length + 1 + 15) / 16 * 16 := by
      rw [nameLen, UInt32.toNat_ofNat']
      apply Nat.mod_eq_of_lt
      omega
    rw [hlen, Option.getD_some]
    refine ⟨by omega, by omega, fun hz => ?_⟩
    omega

end Record

namespace RawQueue
variable {q : RawQueue} {r : Record}

theorem Inside.length_view (h : q.Inside) : q.view.qlen = q.qlen := by
  rw [Queue.qlen, view, List.length_take, h.alloc, min_eq_left h.fits]

/-- A record that does not fit the bound: the block is as large as the bound by then. -/
theorem Inside.full (h : q.Inside) (hshort : (r.name.getD []).length < 4096)
    (hfull : inotifyQueueMax < q.qlen + r.total) : q.qcap = inotifyQueueMax := by
  have hlen := (Record.nameLen_short hshort).1
  have htotal : r.total ≤ 4112 := by
    rw [Record.total, eventSize]
    omega
  have hfits := h.fits
  rcases h.grown with hz | ⟨k, hk, hcap⟩
  · rw [inotifyQueueMax] at hfull
    omega
  · -- every smaller power is below what waits already
    obtain rfl : k = 8 := by
      by_contra hne
      have hpow : 2 ^ k ≤ 2 ^ 7 := Nat.pow_le_pow_right (by decide) (by omega)
      rw [inotifyQueueMax] at hfull
      omega
    rw [hcap]
    rfl

/-- The growth loop ends, after eight turns at most, and gives the next allocation. -/
theorem Inside.grows (h : q.Inside) (hneed : q.qlen + r.total ≤ inotifyQueueMax)
    (hcap : q.qcap < q.qlen + r.total) : ∃ turns ≤ 8, GrowsIn (q.qlen + r.total) q.firstWant turns ∧
      ∃ k ≤ 8, q.firstWant * 2 ^ turns = 4096 * 2 ^ k := by
  obtain ⟨k, hk, hfirst⟩ : ∃ k ≤ 8, q.firstWant = 4096 * 2 ^ k := by
    rw [firstWant]
    rcases h.grown with hz | ⟨k, hk, hqcap⟩
    · exact ⟨0, by omega, by rw [if_pos hz]; rfl⟩
    · have hne : q.qcap ≠ 0 := by
        have hpow := Nat.two_pow_pos k
        omega
      refine ⟨k + 1, ?_, by rw [if_neg hne, hqcap, Nat.pow_succ, Nat.mul_assoc]⟩
      by_contra hlt
      obtain rfl : k = 8 := by omega
      rw [inotifyQueueMax] at hneed
      omega
  have hcover : q.qlen + r.total ≤ q.firstWant * 2 ^ (8 - k) := by
    have hpow : 2 ^ k * 2 ^ (8 - k) = 2 ^ 8 := by rw [← Nat.pow_add, Nat.add_sub_cancel' hk]
    rw [hfirst, Nat.mul_assoc, hpow]
    exact hneed
  obtain ⟨turns, hturns, hgrows⟩ := growsIn_of_le hcover
  refine ⟨turns, by omega, hgrows, k + turns, by omega, ?_⟩
  rw [hfirst, Nat.mul_assoc, Nat.pow_add]

/-- A record put where there is room. -/
theorem Inside.put (h : q.Inside) (hshort : (r.name.getD []).length < 4096)
    (hcap : q.qlen + r.total ≤ q.qcap) (hmax : q.qlen + r.total ≤ inotifyQueueMax) :
    (q.put r).Inside ∧ (q.put r).view =
      { q.view with queue := q.view.queue ++ r.bytes, overflowed := false } := by
  obtain ⟨-, hname, hnone⟩ := Record.nameLen_short hshort
  have halloc := h.alloc
  have htotal : r.total = eventSize + (nameLen r.name).toNat := rfl
  generalize hlen : (nameLen r.name).toNat = len at hname hnone htotal
  have hbytes : r.bytes = eventBytes r.wd r.mask r.cookie (nameLen r.name) ++
      (r.name.getD [] ++ List.replicate (len - (r.name.getD []).length) 0) := by
    unfold Record.bytes
    dsimp only
    rw [hlen, List.take_append, List.take_of_length_le hname, List.take_replicate, min_eq_left (by omega)]
  have hevent : q.qlen + (eventBytes r.wd r.mask r.cookie (nameLen r.name)).length ≤
      q.block.cells.length := by
    rw [length_eventBytes]
    omega
  obtain ⟨htame₁, hlen₁, htake₁⟩ := Block.store_inside hevent
  rw [length_eventBytes] at htake₁
  unfold RawQueue.put
  dsimp only
  rw [hlen]
  generalize q.block.store q.qlen (eventBytes r.wd r.mask r.cookie (nameLen r.name)) = b₁ at *
  split
  · next hne =>
    have hzeros : q.qlen + eventSize + (List.replicate len (0 : UInt8)).length ≤ b₁.cells.length := by
      rw [List.length_replicate]
      omega
    obtain ⟨htame₂, hlen₂, htake₂⟩ := Block.store_inside hzeros
    rw [List.length_replicate] at htake₂
    generalize b₁.store (q.qlen + eventSize) (List.replicate len 0) = b₂ at *
    have hcopy : q.qlen + eventSize + (r.name.getD []).length ≤ b₂.cells.length := by omega
    obtain ⟨htame₃, hlen₃, -⟩ := Block.store_inside hcopy
    have hinside : q.qlen + eventSize + len ≤ q.qcap ∧ q.qlen + eventSize + len ≤ inotifyQueueMax := by
      omega
    refine ⟨⟨htame₃.trans (htame₂.trans (htame₁.trans h.tame)), ?_, h.grown, hinside.1, hinside.2⟩, ?_⟩
    · exact hlen₃.trans (hlen₂.trans (hlen₁.trans halloc))
    -- the name lies over the first of the zeroed bytes
    have hover : (b₂.store (q.qlen + eventSize) (r.name.getD [])).cells.take (q.qlen + eventSize + len) =
        b₂.cells.take (q.qlen + eventSize) ++
          (r.name.getD [] ++ List.replicate (len - (r.name.getD []).length) 0) := by
      have hfront : (b₂.cells.take (q.qlen + eventSize) ++ r.name.getD []).length =
          q.qlen + eventSize + (r.name.getD []).length := by
        simp only [List.length_append, List.length_take]
        omega
      rw [Block.store, if_pos hcopy, List.take_append, List.take_of_length_le (by omega), hfront,
        List.append_assoc]
      congr 2
      rw [← List.drop_take, htake₂, List.drop_append, List.drop_eq_nil_of_le (by
        simp only [List.length_take]
        omega), List.nil_append, List.drop_replicate, List.length_take]
      congr 1
      omega
    have hsame : b₂.cells.take (q.qlen + eventSize) = b₁.cells.take (q.qlen + eventSize) := by
      have hfront := congrArg (List.take (q.qlen + eventSize)) htake₂
      rwa [List.take_take, min_eq_left (by omega), List.take_append_of_le_length (by
        simp only [List.length_take]
        omega), List.take_take, min_self] at hfront
    rw [RawQueue.view, RawQueue.view, hover, hsame, htake₁, hbytes, List.append_assoc]
  · next hz =>
    rw [not_not] at hz
    have hinside : q.qlen + eventSize ≤ q.qcap ∧ q.qlen + eventSize ≤ inotifyQueueMax := by omega
    refine ⟨⟨htame₁.trans h.tame, hlen₁.trans halloc, h.grown, hinside.1, hinside.2⟩, ?_⟩
    rw [RawQueue.view, RawQueue.view, htake₁, hbytes, hnone hz, hz]
    simp

/-- The overflow record: the block is not grown for it, and has room. -/
theorem Inside.mark (h : q.Inside) (hshort : (r.name.getD []).length < 4096)
    (hfull : inotifyQueueMax < q.qlen + r.total) (hroom : q.qlen + eventSize ≤ inotifyQueueMax) :
    let b := q.block.store q.qlen (eventBytes (-1) inQOverflow 0 0)
    b.wild = false ∧ b.cells.length = q.qcap ∧
      b.cells.take (q.qlen + eventSize) = q.view.queue ++ Record.overflow.bytes := by
  have hcap := h.full hshort hfull
  have hcopy : q.qlen + (eventBytes (-1) inQOverflow 0 0).length ≤ q.block.cells.length := by
    rw [length_eventBytes, h.alloc, hcap]
    exact hroom
  obtain ⟨htame, hlen, htake⟩ := Block.store_inside hcopy
  rw [length_eventBytes] at htake
  exact ⟨htame.trans h.tame, hlen.trans h.alloc, htake⟩

theorem Inside.emit (h : q.Inside) (hshort : (r.name.getD []).length < 4096)
    (grown : Option (ℕ → UInt8)) : (q.emit inotifyQueueMax grown r).Inside ∧
      (q.emit inotifyQueueMax grown r).view = q.view.emit inotifyQueueMax grown.isSome r := by
  unfold RawQueue.emit Queue.emit
  rw [h.length_view]
  by_cases hfull : inotifyQueueMax < q.qlen + r.total
  · rw [if_pos hfull, if_pos hfull]
    show (if q.overflowed = true then q else _).Inside ∧
      (if q.overflowed = true then q else _).view = if q.overflowed = true then q.view else _
    by_cases hover : q.overflowed = true
    · rw [if_pos hover, if_pos hover]
      exact ⟨h, rfl⟩
    rw [if_neg hover, if_neg hover]
    by_cases hroom : inotifyQueueMax < q.qlen + eventSize
    · rw [if_pos hroom, if_pos hroom]
      exact ⟨h, rfl⟩
    rw [if_neg hroom, if_neg hroom]
    obtain ⟨htame, hlen, htake⟩ := h.mark hshort hfull (Nat.not_lt.mp hroom)
    have hcap := h.full hshort hfull
    refine ⟨⟨htame, hlen, h.grown, ?_, Nat.not_lt.mp hroom⟩, ?_⟩
    · exact (Nat.not_lt.mp hroom).trans_eq hcap.symm
    · rw [RawQueue.view, htake]
      rfl
  · rw [if_neg hfull, if_neg hfull]
    have hmax := Nat.not_lt.mp hfull
    show (if q.qcap < q.qlen + r.total then _ else q.put r).Inside ∧
      (if q.qcap < q.qlen + r.total then _ else q.put r).view = if q.qcap < q.qlen + r.total then _ else _
    by_cases hgrow : q.qcap < q.qlen + r.total
    · rw [if_pos hgrow, if_pos hgrow]
      cases grown with
      | none => exact ⟨h, rfl⟩
      | some fresh =>
        obtain ⟨turns, hturns, hgrows, k, hk, hwant⟩ := h.grows hmax hgrow
        have height : 8 ≤ q.qlen + r.total := by
          rw [Record.total, eventSize]
          omega
        have hto := growTo_eq hgrows (hturns.trans height)
        have hcover := hgrows.2
        rw [← hto] at hcover hwant
        rw [firstWant] at hto
        dsimp only [Option.isSome_some]
        rw [if_pos rfl]
        show (RawQueue.put { q with block := _, qcap := _ } r).Inside ∧ (RawQueue.put _ r).view = _
        generalize hw : Queue.growTo (q.qlen + r.total) (q.qlen + r.total) q.firstWant = want
          at hcover hwant
        have hlarger : q.block.cells.length ≤ want := by
          rw [h.alloc]
          omega
        obtain ⟨htame, hlen, htake⟩ := q.block.realloc_grown hlarger fresh
        have hbig : RawQueue.Inside { q with block := q.block.realloc want fresh, qcap := want } := by
          have hfits : q.qlen ≤ want := by omega
          exact ⟨htame.trans h.tame, hlen, Or.inr ⟨k, hk, hwant⟩, hfits, h.bound⟩
        obtain ⟨hinside, hview⟩ := hbig.put hshort hcover hmax
        refine ⟨hinside, hview.trans ?_⟩
        rw [RawQueue.view, htake q.qlen (h.fits.trans_eq h.alloc.symm), ← hw]
        rfl
    · rw [if_neg hgrow, if_neg hgrow]
      exact h.put hshort (Nat.not_lt.mp hgrow) hmax

/-- A read takes no more than waits. -/
theorem wholeRecords_le {q : Queue} {tr : List QueueEvent} (hcut : Cut tr q) (len : ℕ) :
    Queue.wholeRecords q.queue len q.qlen 0 ≤ q.qlen := by
  obtain ⟨-, pending, -, -, hq⟩ := hcut
  have hqlen : q.qlen = (recordFrames.stream pending).length := congrArg List.length hq
  have hnil : (recordFrames.stream []).length ≤ len := Nat.zero_le len
  have hout := wholeRecords_stream hnil ((count_le_stream pending).trans_eq hqlen.symm)
  rw [List.nil_append, List.nil_append, ← hq] at hout
  refine (hout.le.trans ?_).trans_eq hqlen.symm
  show (recordFrames.stream (fit Record.total len pending)).length ≤ _
  obtain ⟨left, hsplit⟩ : fit Record.total len pending <+: pending := fit_prefix
  have happ := congrArg List.length (congrArg recordFrames.stream hsplit)
  rw [Frames.stream_append, List.length_append] at happ
  omega

theorem Inside.read (h : q.Inside) {tr : List QueueEvent} (hcut : Cut tr q.view) (len : ℕ) :
    (q.read len).Inside ∧ (q.read len).view = (q.view.read len).2.2 := by
  have hout := wholeRecords_le hcut len
  rw [h.length_view] at hout
  rw [RawQueue.read, Queue.read, h.length_view]
  by_cases hlen : len < eventSize
  · rw [if_pos hlen, if_pos hlen]
    exact ⟨h, rfl⟩
  rw [if_neg hlen, if_neg hlen]
  by_cases hz : q.qlen = 0
  · rw [if_pos hz, if_pos hz]
    exact ⟨h, rfl⟩
  rw [if_neg hz, if_neg hz]
  dsimp only
  generalize Queue.wholeRecords q.view.queue len q.qlen 0 = out at hout
  by_cases hnone : out = 0
  · rw [if_pos hnone, if_pos hnone]
    exact ⟨h, rfl⟩
  rw [if_neg hnone, if_neg hnone, if_neg (Nat.not_lt.mpr hout)]
  -- what is left is moved to the front
  have hleft : (q.view.queue.drop out).length = q.qlen - out := by
    rw [List.length_drop]
    exact congrArg (· - out) h.length_view
  have hmove : 0 + (q.view.queue.drop out).length ≤ q.block.cells.length := by
    have hfits := h.fits
    rw [hleft, h.alloc]
    omega
  obtain ⟨htame, hcells, htake⟩ := Block.store_inside hmove
  rw [hleft, Nat.zero_add, List.take_zero, List.nil_append] at htake
  refine ⟨⟨htame.trans h.tame, hcells.trans h.alloc, h.grown, ?_, ?_⟩, ?_⟩
  · exact (Nat.sub_le _ _).trans h.fits
  · exact (Nat.sub_le _ _).trans h.bound
  · rw [RawQueue.view, htake]
    rfl

/-- One step on the memory is one step of the queue. -/
theorem Inside.step {l : RawLabel} {tr : List QueueEvent} (h : q.Inside) (hcut : Cut tr q.view)
    (hshort : ShortName q l) {q' : RawQueue} (hs : (rawMachine inotifyQueueMax).step q l = some q') :
    q'.Inside ∧ (Queue.machine inotifyQueueMax).step q.view l.view = some q'.view := by
  cases l with
  | emit grown r =>
    obtain rfl := Option.some.inj hs
    obtain ⟨hinside, hview⟩ := h.emit hshort grown
    exact ⟨hinside, congrArg some hview.symm⟩
  | read len =>
    obtain rfl := Option.some.inj hs
    obtain ⟨hinside, hview⟩ := h.read hcut len
    exact ⟨hinside, congrArg some hview.symm⟩

end RawQueue

/-- Whatever is emitted and read, and whichever reallocs fail: no copy leaves the allocation, the queue
on the memory is the queue of bytes, and a growth loop to come goes round eight times at most. -/
theorem queue_stays_inside {tr : List QueueEvent} {q : RawQueue}
    (hr : Run (rawMachine inotifyQueueMax) ShortName {} tr q) :
    q.Inside ∧ QueueRun inotifyQueueMax tr q.view ∧
      ∀ r : Record, (r.name.getD []).length < 4096 → q.qlen + r.total ≤ inotifyQueueMax →
        q.qcap < q.qlen + r.total → ∃ turns ≤ 8, GrowsIn (q.qlen + r.total) q.firstWant turns := by
  obtain ⟨hinside, hqueue, -⟩ := hr.invariant
    (fun tr q => q.Inside ∧ QueueRun inotifyQueueMax tr q.view ∧ Cut tr q.view)
    ⟨⟨rfl, rfl, Or.inl rfl, Nat.zero_le _, Nat.zero_le _⟩, .start, [], [], rfl, rfl, rfl⟩ (by
      intro tr q l q' _ h hshort hs
      obtain ⟨hinside, hqueue, hcut⟩ := h
      obtain ⟨hinside', hstep⟩ := hinside.step hcut hshort hs
      exact ⟨hinside', hqueue.next trivial hstep, cut_step hcut hstep⟩)
  refine ⟨hinside, hqueue, fun r _ hneed hcap => ?_⟩
  obtain ⟨turns, hturns, hgrows, -⟩ := hinside.grows hneed hcap
  exact ⟨turns, hturns, hgrows⟩

/-- A record, a realloc that fails, a read, and a record with a name. -/
theorem queue_stays_inside_four : ∃ tr q, Run (rawMachine inotifyQueueMax) ShortName {} tr q ∧
    q.Inside ∧ q.qcap = 4096 ∧ q.qlen = 32 := by
  have h : Run (rawMachine inotifyQueueMax) ShortName {} [] {} := .start
  have h := h.next (l := .emit none ⟨1, 2, 0, none⟩) (by decide) rfl
  have h := h.next (l := .emit (some fun _ => 0) ⟨1, 2, 0, none⟩) (by decide) rfl
  have h := h.next (l := .read 64) (by decide) rfl
  have h := h.next (l := .emit none ⟨1, 4, 0, some [97]⟩) (by decide) rfl
  exact ⟨_, _, h, (queue_stays_inside h).1, by decide +kernel, by decide +kernel⟩

end SlipstreamIO.Inotify
