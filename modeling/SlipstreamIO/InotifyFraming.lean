import SlipstreamIO.Framing
import SlipstreamIO.InotifyKqueue
import SlipstreamIO.InotifyWindows

/-! The records of the queue as a reader finds them: each read is whole records, and all reads one
behind the other parse to what emit accepted. -/
namespace SlipstreamIO.Inotify

open Runs Framing

/-- The 32-bit field at the front of some bytes. -/
def readLe32 : List UInt8 → Option (UInt32 × List UInt8)
  | a :: b :: c :: d :: rest =>
    some (UInt32.ofNat (a.toNat + 256 * (b.toNat + 256 * (c.toNat + 256 * d.toNat))), rest)
  | _ => none

/-- A reader's parse of one record: the event, then `len` bytes of which the name is a C string. -/
def Record.front (bs : List UInt8) : Option (Record × List UInt8) :=
  match readLe32 bs with
  | none => none
  | some (wd, bs) =>
    match readLe32 bs with
    | none => none
    | some (mask, bs) =>
      match readLe32 bs with
      | none => none
      | some (cookie, bs) =>
        match readLe32 bs with
        | none => none
        | some (len, bs) =>
          if bs.length < len.toNat then none
          else
            let name := if len = 0 then none else some ((bs.take len.toNat).takeWhile (· ≠ 0))
            some (⟨wd.toInt32, mask, cookie, name⟩, bs.drop len.toNat)

/-- The name is a C string that `name_len` can count. -/
def Record.Named (r : Record) : Prop :=
  ∀ name, r.name = some name → (0 : UInt8) ∉ name ∧ name.length + 16 < 2 ^ 32

section Codec
variable {r : Record} {rest : List UInt8}

theorem le32_value (x : UInt32) : x.toUInt8.toNat + 256 * ((x >>> 8).toUInt8.toNat +
    256 * ((x >>> 16).toUInt8.toNat + 256 * (x >>> 24).toUInt8.toNat)) = x.toNat := by
  have hx : x.toNat < 2 ^ 32 := x.toNat_lt
  have h8 : UInt32.toNat 8 % 32 = 8 := rfl
  have h16 : UInt32.toNat 16 % 32 = 16 := rfl
  have h24 : UInt32.toNat 24 % 32 = 24 := rfl
  simp only [UInt32.toNat_toUInt8, UInt32.toNat_shiftRight, Nat.shiftRight_eq_div_pow, h8, h16, h24]
  omega

theorem readLe32_le32 (x : UInt32) (rest : List UInt8) :
    readLe32 (le32 x ++ rest) = some (x, rest) := by
  rw [le32]
  simp only [List.cons_append, List.nil_append, readLe32, le32_value, UInt32.ofNat_toNat]

/-- The cut of a read finds the `len` that emit wrote. -/
theorem lenAt_bytes (pre post : List UInt8) (r : Record) :
    Queue.lenAt (pre ++ (r.bytes ++ post)) pre.length = (nameLen r.name).toNat := by
  have hat (k : ℕ) : (pre ++ (r.bytes ++ post)).getD (pre.length + 12 + k) 0 =
      (r.bytes ++ post).getD (12 + k) 0 := by
    rw [List.getD_eq_getElem?_getD, List.getD_eq_getElem?_getD, List.getElem?_append_right (by omega)]
    congr 2
    omega
  unfold Queue.lenAt
  simp only [hat]
  rw [← le32_value (nameLen r.name)]
  rfl

theorem nameLen_toNat {name : List UInt8} (h : name.length + 16 < 2 ^ 32) :
    (nameLen (some name)).toNat = (name.length + 1 + 15) / 16 * 16 := by
  rw [nameLen, UInt32.toNat_ofNat']
  apply Nat.mod_eq_of_lt
  omega

/-- `len` is a multiple of 16, and room for the name and at least one NUL. -/
theorem nameLen_spec (h : r.Named) : 16 ∣ (nameLen r.name).toNat ∧
    (nameLen r.name = 0 ↔ r.name = none) ∧
      ∀ name, r.name = some name → name.length < (nameLen r.name).toNat := by
  cases hname : r.name with
  | none =>
    refine ⟨⟨0, rfl⟩, by simp [nameLen], ?_⟩
    intro name hn
    cases hn
  | some name =>
    have hlen := nameLen_toNat (h name hname).2
    refine ⟨⟨(name.length + 1 + 15) / 16, by rw [hlen, Nat.mul_comm]⟩, ?_, ?_⟩
    · constructor
      · intro hz
        rw [hz] at hlen
        simp at hlen
        omega
      · intro hn
        cases hn
    · intro name' hn
      cases hn
      rw [hlen]
      omega

/-- The bytes of a record: the event, the name, and NULs up to `len`. -/
theorem bytes_eq (h : r.Named) : r.bytes =
    eventBytes r.wd r.mask r.cookie (nameLen r.name) ++ r.name.getD [] ++
      List.replicate ((nameLen r.name).toNat - (r.name.getD []).length) 0 := by
  have hfits : (r.name.getD []).length ≤ (nameLen r.name).toNat := by
    cases hname : r.name with
    | none => exact Nat.zero_le _
    | some name =>
      have hlt := (nameLen_spec h).2.2 name hname
      rw [hname] at hlt
      exact Nat.le_of_lt hlt
  rw [Record.bytes, List.append_assoc]
  congr 1
  rw [List.take_append, List.take_of_length_le hfits, List.take_replicate]
  congr 2
  omega

theorem front_bytes (h : r.Named) : Record.front (r.bytes ++ rest) = some (r, rest) := by
  obtain ⟨hmul, hnone, hroom⟩ := nameLen_spec h
  have hlen : (r.name.getD [] ++ List.replicate ((nameLen r.name).toNat -
      (r.name.getD []).length) (0 : UInt8)).length = (nameLen r.name).toNat := by
    rw [List.length_append, List.length_replicate]
    cases hname : r.name with
    | none => simp [nameLen]
    | some name =>
      have hlt := hroom name hname
      rw [hname] at hlt
      exact Nat.add_sub_cancel' (Nat.le_of_lt hlt)
  rw [bytes_eq h, eventBytes]
  simp only [List.append_assoc, Record.front, readLe32_le32]
  rw [← List.append_assoc (r.name.getD [])]
  rw [if_neg (by rw [List.length_append, hlen]; omega), List.drop_left' hlen, List.take_left' hlen]
  -- what is left is the name, up to its first NUL
  have hname : (if nameLen r.name = 0 then none else some ((r.name.getD [] ++
      List.replicate ((nameLen r.name).toNat - (r.name.getD []).length) 0).takeWhile (· ≠ 0))) =
      r.name := by
    cases hn : r.name with
    | none => rfl
    | some name =>
      have hzero : ∀ b ∈ name, decide (b ≠ 0) = true := by
        intro b hb
        have hne : b ≠ 0 := fun he => (h name hn).1 (he ▸ hb)
        exact decide_eq_true hne
      have hlt := hroom name hn
      rw [hn] at hnone hlt
      obtain ⟨k, hk⟩ := Nat.exists_eq_add_of_lt hlt
      have hpad : (nameLen (some name)).toNat - name.length = k + 1 := by omega
      rw [if_neg (by simp [hnone]), Option.getD_some, List.takeWhile_append_of_pos hzero, hpad,
        List.replicate_succ, List.takeWhile_cons_of_neg (by simp), List.append_nil]
  rw [hname, Int32.toInt32_toUInt32]

end Codec

/-- Records as a stream of bytes. -/
def recordFrames : Frames Record UInt8 where
  bytes := Record.bytes
  front := Record.front
  Meant := Record.Named
  front_nil := rfl
  front_bytes := fun _ _ h => front_bytes h

section Reads
variable {q : Queue} {done rs pending : List Record} {len fuel : ℕ}

theorem length_stream (rs : List Record) :
    (recordFrames.stream rs).length = (rs.map Record.total).sum := by
  induction rs with
  | nil => rfl
  | cons r rs ih =>
    rw [Frames.stream_cons, List.length_append, ih, List.map_cons, List.sum_cons]
    exact congrArg (· + _) r.length_bytes

theorem count_le_stream (rs : List Record) : rs.length ≤ (recordFrames.stream rs).length := by
  rw [length_stream]
  have hone : ∀ x ∈ rs.map Record.total, 1 ≤ x := by
    intro x hx
    obtain ⟨r, -, rfl⟩ := List.mem_map.mp hx
    exact Nat.add_pos_left (by decide) _
  simpa using List.length_le_sum_of_one_le _ hone

/-- The loop of read stops behind the longest prefix of whole records that fits. -/
theorem wholeRecords_stream (hlen : (recordFrames.stream done).length ≤ len) (hf : rs.length ≤ fuel) :
    Queue.wholeRecords (recordFrames.stream (done ++ rs)) len fuel (recordFrames.stream done).length =
      (recordFrames.stream (done ++
        fit Record.total (len - (recordFrames.stream done).length) rs)).length := by
  induction rs generalizing done fuel with
  | nil =>
    rw [List.append_nil, fit, List.append_nil]
    cases fuel with
    | zero => rfl
    | succ fuel => rw [Queue.wholeRecords, if_neg (Nat.lt_irrefl _)]
  | cons r rs ih =>
    cases fuel with
    | zero => simp at hf
    | succ fuel =>
      have hstream : recordFrames.stream (done ++ r :: rs) =
          recordFrames.stream done ++ (r.bytes ++ recordFrames.stream rs) := by
        rw [Frames.stream_append, Frames.stream_cons]
        rfl
      have hnext : (recordFrames.stream (done ++ [r])).length =
          (recordFrames.stream done).length + r.total := by
        rw [length_stream, length_stream, List.map_append, List.sum_append]
        simp
      have hpos : 0 < r.bytes.length := by
        rw [r.length_bytes]
        exact Nat.add_pos_left (by decide) _
      have hgo : (recordFrames.stream done).length < (recordFrames.stream (done ++ r :: rs)).length := by
        rw [hstream, List.length_append, List.length_append]
        omega
      rw [Queue.wholeRecords, if_pos hgo]
      dsimp only
      rw [hstream, lenAt_bytes, ← hstream, ← Record.total]
      by_cases hfits : r.total ≤ len - (recordFrames.stream done).length
      · rw [if_neg (by omega), ← hnext, fit, if_pos hfits, List.append_cons]
        rw [ih (by omega) (Nat.le_of_succ_le_succ hf), hnext, Nat.sub_sub]
        rw [List.append_assoc, List.singleton_append]
      · rw [if_pos (by omega), fit, if_neg hfits, List.append_nil]

/-- What a read with a buffer of `len` bytes does when the records `pending` wait. -/
structure ReadsWhole (q : Queue) (pending : List Record) (len : ℕ) : Prop where
  empty : pending = [] → q.read len = (0, [], q)
  tooShort : ∀ r rest, pending = r :: rest → len < r.total → q.read len = (einval, [], q)
  whole : ∀ r rest, pending = r :: rest → r.total ≤ len → ∃ taken left,
    pending = taken ++ left ∧ taken ≠ [] ∧ (recordFrames.stream taken).length ≤ len ∧
      (∀ p, p <+: pending → (recordFrames.stream p).length ≤ len → p <+: taken) ∧
      q.read len = (((recordFrames.stream taken).length : ℤ), recordFrames.stream taken,
        { q with queue := recordFrames.stream left })

theorem readsWhole (hq : q.queue = recordFrames.stream pending) (hlen : eventSize ≤ len) :
    ReadsWhole q pending len := by
  have hbig : ¬ len < eventSize := Nat.not_lt.mpr hlen
  have hqlen : q.qlen = (recordFrames.stream pending).length := congrArg List.length hq
  have hcount : pending.length ≤ q.qlen := (count_le_stream pending).trans_eq hqlen.symm
  have hout : Queue.wholeRecords q.queue len q.qlen 0 =
      (recordFrames.stream (fit Record.total len pending)).length := by
    have hnil : (recordFrames.stream []).length ≤ len := Nat.zero_le len
    have h := wholeRecords_stream hnil hcount
    rwa [hq]
  have hread : q.read len = if q.qlen = 0 then (0, [], q)
      else if (recordFrames.stream (fit Record.total len pending)).length = 0 then (einval, [], q)
      else (((recordFrames.stream (fit Record.total len pending)).length : ℤ),
        q.queue.take (recordFrames.stream (fit Record.total len pending)).length,
        { q with queue := q.queue.drop (recordFrames.stream (fit Record.total len pending)).length }) := by
    rw [Queue.read, if_neg hbig, hout]
  constructor
  · intro hp
    rw [hread, if_pos (by rw [hqlen, hp]; rfl)]
  · intro r rest hp hshort
    have hnil : fit Record.total len pending = [] := by rw [hp, fit_eq_nil_iff]; exact hshort
    have hne : q.qlen ≠ 0 := by
      have := hcount
      rw [hp, List.length_cons] at this
      omega
    rw [hread, if_neg hne, hnil]
    rfl
  · intro r rest hp hfits
    obtain ⟨left, hsplit⟩ : fit Record.total len pending <+: pending := fit_prefix
    have hne : fit Record.total len pending ≠ [] := by
      rw [hp, Ne, fit_eq_nil_iff]
      exact Nat.not_lt.mpr hfits
    have hpos : (recordFrames.stream (fit Record.total len pending)).length ≠ 0 := by
      have hone := List.length_pos_of_ne_nil hne
      have hle := count_le_stream (fit Record.total len pending)
      omega
    have hstream : q.queue = recordFrames.stream (fit Record.total len pending) ++
        recordFrames.stream left := by
      rw [hq, ← Frames.stream_append, hsplit]
    refine ⟨fit Record.total len pending, left, hsplit.symm, hne, ?_, ?_, ?_⟩
    · rw [length_stream]
      exact fit_sum_le
    · intro p hpre hle
      rw [length_stream] at hle
      exact prefix_fit hpre hle
    · rw [hread, if_neg (by rw [hqlen, ← hsplit, Frames.stream_append, List.length_append]; omega),
        if_neg hpos, hstream, List.take_left, List.drop_left]

end Reads

/-- The record an event accepts. -/
def QueueEvent.accepts : QueueEvent → List Record
  | .kept r => [r]
  | _ => []

/-- The record as it stands in the queue: a `len` of 0 or a multiple of 16, and NULs behind the
name. -/
def Record.Padded (r : Record) : Prop :=
  16 ∣ (nameLen r.name).toNat ∧ (nameLen r.name = 0 ↔ r.name = none) ∧
    r.bytes = eventBytes r.wd r.mask r.cookie (nameLen r.name) ++ r.name.getD [] ++
      List.replicate ((nameLen r.name).toNat - (r.name.getD []).length) 0 ∧
    ∀ name, r.name = some name → name.length < (nameLen r.name).toNat

/-- What a history of the queue shows while the records `pending` wait. What was put in are the
accepted records, with an overflow record where some were lost. -/
structure Lossless (tr : List QueueEvent) (q : Queue) (pending : List Record) : Prop where
  parsed : recordFrames.parseAll (tr.flatMap QueueEvent.gives) ++ pending = tr.flatMap QueueEvent.puts
  accepted : (∀ e ∈ tr, e.isLost = false) →
    tr.flatMap QueueEvent.puts = tr.flatMap QueueEvent.accepts
  padded : ∀ r ∈ tr.flatMap QueueEvent.puts, r.Padded
  reads : ∀ len, eventSize ≤ len → ReadsWhole q pending len

section Histories
variable {queueMax : ℕ} {q q' : Queue} {tr ev : List QueueEvent} {l : QueueLabel}

/-- The reads and the queue, one behind the other, are the records that were put in, cut between
two of them. -/
def Cut (tr : List QueueEvent) (q : Queue) : Prop :=
  ∃ given pending, tr.flatMap QueueEvent.puts = given ++ pending ∧
    tr.flatMap QueueEvent.gives = recordFrames.stream given ∧ q.queue = recordFrames.stream pending

theorem Cut.emit (h : Cut tr q) (hgives : ev.flatMap QueueEvent.gives = [])
    (hq : q'.queue = q.queue ++ recordFrames.stream (ev.flatMap QueueEvent.puts)) :
    Cut (tr ++ ev) q' := by
  obtain ⟨given, pending, hputs, hgiven, hpending⟩ := h
  refine ⟨given, pending ++ ev.flatMap QueueEvent.puts, ?_, ?_, ?_⟩
  · rw [List.flatMap_append, hputs, List.append_assoc]
  · rw [List.flatMap_append, hgiven, hgives, List.append_nil]
  · rw [hq, hpending, Frames.stream_append]

theorem Cut.read (h : Cut tr q) (len : ℕ) : Cut (tr ++ [.took (q.read len).2.1]) (q.read len).2.2 := by
  obtain ⟨given, pending, hputs, hgiven, hpending⟩ := h
  -- a read that gives nothing leaves the queue, one that gives something gives whole records
  obtain ⟨taken, left, hsplit, hbuf, hleft⟩ : ∃ taken left, pending = taken ++ left ∧
      (q.read len).2.1 = recordFrames.stream taken ∧
      (q.read len).2.2.queue = recordFrames.stream left := by
    by_cases hlen : len < eventSize
    · refine ⟨[], pending, rfl, ?_, ?_⟩
      · rw [Queue.read, if_pos hlen]
        rfl
      · rw [Queue.read, if_pos hlen]
        exact hpending
    · have hreads := readsWhole hpending (Nat.not_lt.mp hlen)
      cases hp : pending with
      | nil =>
        refine ⟨[], [], rfl, ?_, ?_⟩
        · rw [hreads.empty hp]
          rfl
        · rw [hreads.empty hp, hpending, hp]
      | cons r rest =>
        by_cases hshort : len < r.total
        · refine ⟨[], r :: rest, rfl, ?_, ?_⟩
          · rw [hreads.tooShort r rest hp hshort]
            rfl
          · rw [hreads.tooShort r rest hp hshort, hpending, hp]
        · obtain ⟨taken, left, hsplit, -, -, -, hread⟩ := hreads.whole r rest hp (Nat.not_lt.mp hshort)
          refine ⟨taken, left, hp ▸ hsplit, ?_, ?_⟩
          · rw [hread]
          · rw [hread]
  refine ⟨given ++ taken, left, ?_, ?_, hleft⟩
  · rw [List.flatMap_append, hputs, hsplit]
    simp [QueueEvent.puts]
  · rw [List.flatMap_append, hgiven, Frames.stream_append]
    simp [QueueEvent.gives, hbuf]

theorem cut_step (h : Cut tr q) (hs : (Queue.machine queueMax).step q l = some q') :
    Cut (tr ++ (Queue.machine queueMax).events q l) q' := by
  cases l with
  | emit grown r =>
    cases hs
    have hone (r : Record) : recordFrames.stream [r] = r.bytes := List.flatMap_singleton ..
    show Cut (tr ++ q.emitEvents queueMax grown r) (q.emit queueMax grown r)
    rcases q.emit_cases queueMax grown r with ⟨hev, hq, -⟩ | ⟨hev, -, hq, -⟩ | ⟨hev, -, hq, -⟩ |
      ⟨hev, -, hq, -⟩ <;> rw [hev]
    · exact h.emit rfl (by rw [hq]; exact (List.append_nil _).symm)
    · exact h.emit rfl (by rw [hq, ← hone]; rfl)
    · exact h.emit rfl (by rw [hq]; exact (List.append_nil _).symm)
    · exact h.emit rfl (by rw [hq, ← hone]; rfl)
  | read len =>
    cases hs
    exact h.read len

theorem accepted_step (h : (∀ e ∈ tr, e.isLost = false) →
      tr.flatMap QueueEvent.puts = tr.flatMap QueueEvent.accepts) :
    (∀ e ∈ tr ++ (Queue.machine queueMax).events q l, e.isLost = false) →
      (tr ++ (Queue.machine queueMax).events q l).flatMap QueueEvent.puts =
        (tr ++ (Queue.machine queueMax).events q l).flatMap QueueEvent.accepts := by
  intro hlost
  have hold := h fun e he => hlost e (List.mem_append_left _ he)
  have hnew : ((Queue.machine queueMax).events q l).flatMap QueueEvent.puts =
      ((Queue.machine queueMax).events q l).flatMap QueueEvent.accepts := by
    cases l with
    | read len => rfl
    | emit grown r =>
      show (q.emitEvents queueMax grown r).flatMap _ = (q.emitEvents queueMax grown r).flatMap _
      have hev : ∀ e ∈ q.emitEvents queueMax grown r, e.isLost = false :=
        fun e he => hlost e (List.mem_append_right _ he)
      rcases q.emit_cases queueMax grown r with ⟨he, -⟩ | ⟨he, -⟩ | ⟨he, -⟩ | ⟨he, -⟩
      · rw [he]
        rfl
      · rw [he]
        rfl
      -- an overflow record is made for a record that was lost
      · rw [he] at hev
        cases hev (.lost r) List.mem_cons_self
      · rw [he] at hev
        cases hev (.lost r) List.mem_cons_self
  rw [List.flatMap_append, List.flatMap_append, hold, hnew]

end Histories

section Arms
variable {queueMax : ℕ} {q q₀ : Queue} {tr : List QueueEvent}

/-- Runs of a queue under any emits and reads. -/
abbrev QueueRun (queueMax : ℕ) : List QueueEvent → Queue → Prop :=
  Run (Queue.machine queueMax) (fun _ _ => True) {}

/-- What an event of an instance is to its queue. -/
def InstEvent.onQueue : InstEvent → Option QueueEvent
  | .queue e => some e
  | .gave _ => none

theorem onQueue_map (ev : List QueueEvent) : (ev.map InstEvent.queue).filterMap InstEvent.onQueue = ev := by
  rw [List.filterMap_map]
  exact List.filterMap_some

theorem QueueRun.emits (h : QueueRun queueMax tr q) (grown : ℕ → Bool) (rs : List Record) :
    QueueRun queueMax (tr ++ q.emitsEvents queueMax grown rs) (q.emits queueMax grown rs) := by
  induction rs generalizing q tr grown with
  | nil =>
    rw [Queue.emitsEvents, List.append_nil]
    exact h
  | cons r rs ih =>
    have hone : QueueRun queueMax (tr ++ q.emitEvents queueMax (grown 0) r)
        (q.emit queueMax (grown 0) r) :=
      Run.next (M := Queue.machine queueMax) (l := .emit (grown 0) r) h trivial rfl
    rw [Queue.emitsEvents, ← List.append_assoc]
    exact ih hone fun i => grown (i + 1)

theorem QueueRun.read (h : QueueRun queueMax tr q) (len : ℕ) :
    QueueRun queueMax (tr ++ [.took (q.read len).2.1]) (q.read len).2.2 :=
  Run.next (M := Queue.machine queueMax) (l := .read len) h trivial rfl

/-- The histories of a queue: by itself, in the kqueue arm and in the Windows arm. -/
inductive QueueHistory (queueMax : ℕ) : List QueueEvent → Queue → Prop
  | queue {tr : List QueueEvent} {q : Queue} (h : QueueRun queueMax tr q) : QueueHistory queueMax tr q
  | kqueue {tr : List InstEvent} {inst : Inst}
      (h : Run (kqMachine queueMax) (fun _ _ => True) {} tr inst) :
      QueueHistory queueMax (tr.filterMap InstEvent.onQueue) inst.queue
  | windows {tr : List InstEvent} {inst : WinInst} {nonblock : Bool}
      (h : Run (winMachine queueMax) (fun _ _ => True) { nonblock } tr inst) :
      QueueHistory queueMax (tr.filterMap InstEvent.onQueue) inst.queue

/-- What is taken from the system is said later: until then the queue stands. -/
theorem takeEvents_queue (inst : Inst) (evs : List KEvent) :
    (inst.takeEvents evs).1.queue = inst.queue := by
  have hnoted (inst : Inst) (i : ℕ) (w : Watch) (ke : KEvent) :
      (inst.noted i w ke).1.queue = inst.queue := by
    unfold Inst.noted
    split
    next hchanged =>
    split at hchanged
    · split at hchanged <;> cases hchanged <;> rfl
    · cases hchanged
      rfl
  have htranslate (inst : Inst) (ke : KEvent) : (inst.translate ke).1.queue = inst.queue := by
    unfold Inst.translate
    split
    · rfl
    split
    · rfl
    · dsimp only
      split
      · exact hnoted ..
      · exact hnoted ..
  induction evs generalizing inst with
  | nil => rfl
  | cons ke evs ih => exact (ih _).trans (htranslate inst ke)

theorem kq_queueRun {tr : List InstEvent} {inst : Inst}
    (h : Run (kqMachine queueMax) (fun _ _ => True) {} tr inst) :
    QueueRun queueMax (tr.filterMap InstEvent.onQueue) inst.queue := by
  refine h.invariant (fun tr inst => QueueRun queueMax (tr.filterMap InstEvent.onQueue) inst.queue)
    .start ?_
  intro tr inst l inst' _ h _ hs
  rw [List.filterMap_append]
  cases l with
  | addWatch path mask os =>
    cases hs
    have hquiet : (inst.addWatch path mask os).2.1.queue = inst.queue ∧
        (inst.addWatch path mask os).2.2.filterMap InstEvent.onQueue = [] := by
      unfold Inst.addWatch
      repeat' split
      all_goals exact ⟨rfl, rfl⟩
    show QueueRun queueMax (_ ++ (inst.addWatch path mask os).2.2.filterMap _) _
    rw [hquiet.1, hquiet.2, List.append_nil]
    exact h
  | rmWatch wd grown =>
    cases hs
    show QueueRun queueMax (_ ++ (inst.rmWatch queueMax grown wd).2.2.filterMap _) _
    unfold Inst.rmWatch
    split
    · simpa using h
    · dsimp only [Inst.say, Inst.forget]
      rw [onQueue_map]
      exact h.emits grown _
  | read len evs grown =>
    cases hs
    show QueueRun queueMax (_ ++ (inst.read queueMax grown len evs).2.2.filterMap _) _
    unfold Inst.read
    split
    · simpa using h
    · dsimp only
      split
      · dsimp only [Inst.say]
        rw [List.filterMap_append, onQueue_map, takeEvents_queue, ← List.append_assoc]
        exact (h.emits grown _).read len
      · exact h.read len

theorem win_takeEvents_queue (inst : WinInst) (cs : List Completion) :
    (inst.takeEvents cs).1.queue = inst.queue := by
  have hone (inst : WinInst) (c : Completion) : (inst.takeOne c).1.queue = inst.queue := by
    unfold WinInst.takeOne
    repeat' split
    all_goals rfl
  induction cs generalizing inst with
  | nil => rfl
  | cons c cs ih => exact (ih _).trans (hone inst c)

theorem win_checkGone_queue (inst : WinInst) (there : ℕ → Presence) (n : ℕ) :
    (inst.checkGone there n).1.queue = inst.queue := by
  induction n generalizing inst with
  | zero => rfl
  | succ n ih =>
    unfold WinInst.checkGone
    split
    · exact ih inst
    · split
      · exact ih inst
      · exact ih (inst.forget n)

/-- A round of a read is emits: of what was taken, and of the watches found gone. -/
theorem win_round_queueRun {tr : List InstEvent} {inst : WinInst}
    (h : QueueRun queueMax (tr.filterMap InstEvent.onQueue) inst.queue) (r : WinInst.Round) :
    QueueRun queueMax ((tr ++ (inst.round queueMax r).2).filterMap InstEvent.onQueue)
      (inst.round queueMax r).1.queue := by
  have htaken := h.emits r.grown (inst.takeEvents r.completions).2
  rw [← win_takeEvents_queue inst r.completions] at htaken
  unfold WinInst.round
  dsimp only [WinInst.say]
  split
  · rw [List.filterMap_append, List.filterMap_append, onQueue_map, onQueue_map, win_checkGone_queue,
      ← List.append_assoc]
    exact htaken.emits r.grownIdle _
  · rw [List.filterMap_append, onQueue_map]
    exact htaken

theorem win_rounds_queueRun {tr told : List InstEvent} {inst inst' : WinInst}
    {rs : List WinInst.Round} (h : QueueRun queueMax (tr.filterMap InstEvent.onQueue) inst.queue)
    (hr : inst.rounds queueMax rs = some (inst', told)) :
    QueueRun queueMax ((tr ++ told).filterMap InstEvent.onQueue) inst'.queue := by
  induction rs generalizing inst tr told with
  | nil =>
    unfold WinInst.rounds at hr
    split at hr
    · cases hr
    · cases hr
      rwa [List.append_nil]
  | cons r rs ih =>
    have hround := win_round_queueRun h r
    unfold WinInst.rounds at hr
    split at hr
    · cases hr
      rwa [List.append_nil]
    dsimp only at hr
    split at hr
    · cases hr
      exact hround
    · split at hr
      · cases hr
      next hrest =>
        cases hr
        rw [← List.append_assoc]
        exact ih hround hrest

theorem win_queueRun {tr : List InstEvent} {inst : WinInst} {nonblock : Bool}
    (h : Run (winMachine queueMax) (fun _ _ => True) { nonblock } tr inst) :
    QueueRun queueMax (tr.filterMap InstEvent.onQueue) inst.queue := by
  refine h.invariant (fun tr inst => QueueRun queueMax (tr.filterMap InstEvent.onQueue) inst.queue)
    .start ?_
  intro tr inst l inst' _ h _ hs
  cases l with
  | addWatch path mask os =>
    cases hs
    have hquiet : (inst.addWatch path mask os).2.1.queue = inst.queue ∧
        (inst.addWatch path mask os).2.2.filterMap InstEvent.onQueue = [] := by
      unfold WinInst.addWatch
      repeat' split
      all_goals exact ⟨rfl, rfl⟩
    show QueueRun queueMax ((tr ++ (inst.addWatch path mask os).2.2).filterMap _) _
    rw [List.filterMap_append, hquiet.1, hquiet.2, List.append_nil]
    exact h
  | rmWatch wd grown =>
    cases hs
    show QueueRun queueMax ((tr ++ (inst.rmWatch queueMax grown wd).2.2).filterMap _) _
    unfold WinInst.rmWatch
    split
    · simpa using h
    · dsimp only [WinInst.say, WinInst.forget]
      rw [List.filterMap_append, onQueue_map]
      exact h.emits grown _
  | read len rs =>
    simp only [winMachine, Option.map_eq_some_iff] at hs ⊢
    obtain ⟨⟨out, inst₁, told⟩, hread, rfl⟩ := hs
    rw [hread, Option.map_some, Option.getD_some]
    unfold WinInst.read at hread
    split at hread
    · cases hread
      simpa using h
    · split at hread
      · cases hread
      next hrounds =>
        cases hread
        have hrun := win_rounds_queueRun h hrounds
        rw [← List.append_assoc, List.filterMap_append]
        exact hrun.read len

theorem QueueHistory.queueRun (h : QueueHistory queueMax tr q) : QueueRun queueMax tr q := by
  cases h with
  | queue h => exact h
  | kqueue h => exact kq_queueRun h
  | windows h => exact win_queueRun h

end Arms

/-- Encoder, queue, cut and parse agree, in both arms. -/
theorem queue_frames_losslessly {queueMax : ℕ} {tr : List QueueEvent} {q : Queue}
    (h : QueueHistory queueMax tr q) (hn : ∀ r ∈ tr.flatMap QueueEvent.puts, r.Named) :
    ∃ pending, Lossless tr q pending := by
  have hrun := h.queueRun
  have hcut : Cut tr q :=
    hrun.invariant (fun tr q => Cut tr q) ⟨[], [], rfl, rfl, rfl⟩ fun _ _ _ _ _ h _ hs => cut_step h hs
  obtain ⟨given, pending, hputs, hgiven, hpending⟩ := hcut
  have hmeant : ∀ r ∈ given, recordFrames.Meant r := by
    intro r hr
    apply hn r
    rw [hputs]
    exact List.mem_append_left pending hr
  refine ⟨pending, ?_, ?_, ?_, ?_⟩
  · rw [hgiven, Frames.parseAll_stream hmeant, hputs]
  · exact hrun.invariant (fun tr _ => (∀ e ∈ tr, e.isLost = false) →
      tr.flatMap QueueEvent.puts = tr.flatMap QueueEvent.accepts) (fun _ => rfl)
      fun _ _ _ _ _ h _ _ => accepted_step h
  · intro r hr
    obtain ⟨hmul, hnone, hroom⟩ := nameLen_spec (hn r hr)
    exact ⟨hmul, hnone, bytes_eq (hn r hr), hroom⟩
  · exact fun len hlen => readsWhole hpending hlen

/-- Two records, a read whose buffer ends inside the second, and a third record behind the rest. -/
theorem queue_frames_losslessly_three : ∃ tr q pending, Lossless tr q pending ∧
    tr.flatMap QueueEvent.accepts = [⟨1, 2, 0, some [97]⟩, ⟨1, 4, 0, none⟩, ⟨2, 256, 7, some [98]⟩] ∧
      tr.flatMap QueueEvent.gives = Record.bytes ⟨1, 2, 0, some [97]⟩ := by
  have h : QueueRun 4096 [] {} := .start
  have h := Run.next (M := Queue.machine 4096) (l := .emit true ⟨1, 2, 0, some [97]⟩) h trivial rfl
  have h := Run.next (M := Queue.machine 4096) (l := .emit true ⟨1, 4, 0, none⟩) h trivial rfl
  have h := Run.next (M := Queue.machine 4096) (l := .read 40) h trivial rfl
  have h := Run.next (M := Queue.machine 4096) (l := .emit true ⟨2, 256, 7, some [98]⟩) h trivial rfl
  obtain ⟨pending, hlossless⟩ := queue_frames_losslessly (.queue h) (by
    intro r hr
    have hmem : r ∈ [(⟨1, 2, 0, some [97]⟩ : Record), ⟨1, 4, 0, none⟩, ⟨2, 256, 7, some [98]⟩] := hr
    intro name hname
    simp only [List.mem_cons, List.not_mem_nil, or_false] at hmem
    rcases hmem with rfl | rfl | rfl <;> cases hname <;> decide)
  exact ⟨_, _, pending, hlossless, by decide +kernel, by decide +kernel⟩

end SlipstreamIO.Inotify
