import SlipstreamIO.InotifyQueue

/-! Lost records and the overflow records that stand for them. A record that finds neither room for
itself nor for the overflow record is lost without a mark, and the queue reports every gap as long as
that never happens. -/
namespace SlipstreamIO.Inotify
open Runs

variable {queueMax : ℕ} {tr : List QueueEvent} {q q' : Queue} {l : QueueLabel}

/-- What holds after every run, marked or not: the queue's bytes, and the flag counts the overflow
records of the last gap. -/
structure Books (tr : List QueueEvent) (q : Queue) : Prop where
  stream : tr.flatMap QueueEvent.gives ++ q.queue =
    (tr.flatMap QueueEvent.puts).flatMap Record.bytes
  marks : (gap tr).count .mark = q.overflowed.toNat

theorem Books.gapMarked_iff (h : Books tr q) :
    GapMarked tr ↔ (gap tr).any QueueEvent.isLost = q.overflowed := by
  unfold GapMarked
  rw [h.marks]
  cases q.overflowed <;> cases (gap tr).any QueueEvent.isLost <;> simp

theorem books_start : Books [] {} := ⟨rfl, rfl⟩

/-- An event that puts no record and takes no byte. -/
theorem Books.lost (h : Books tr q) (r : Record) : Books (tr ++ [.lost r]) q := by
  refine ⟨?_, ?_⟩
  · simpa [QueueEvent.gives, QueueEvent.puts] using h.stream
  · rw [gap_concat]
    simpa [QueueEvent.isKept] using h.marks

theorem Books.kept (h : Books tr q) {r : Record} (hq : q'.queue = q.queue ++ r.bytes)
    (hover : q'.overflowed = false) : Books (tr ++ [.kept r]) q' := by
  refine ⟨?_, ?_⟩
  · rw [hq, List.flatMap_append, List.flatMap_append, List.flatMap_append, ← h.stream]
    simp [QueueEvent.gives, QueueEvent.puts]
  · rw [gap_concat, hover]
    rfl

theorem Books.mark (h : Books tr q) (hq : q'.queue = q.queue ++ Record.overflow.bytes)
    (hfresh : q.overflowed = false) (hover : q'.overflowed = true) : Books (tr ++ [.mark]) q' := by
  refine ⟨?_, ?_⟩
  · rw [hq, List.flatMap_append, List.flatMap_append, List.flatMap_append, ← h.stream]
    simp [QueueEvent.gives, QueueEvent.puts]
  · have hnone := h.marks
    rw [hfresh] at hnone
    rw [gap_concat, hover]
    simp [QueueEvent.isKept, hnone]

theorem Books.took (h : Books tr q) (len : ℕ) :
    Books (tr ++ [.took (q.read len).2.1]) (q.read len).2.2 := by
  refine ⟨?_, ?_⟩
  · rw [List.flatMap_append, List.flatMap_append, List.append_assoc]
    have hread : [QueueEvent.took (q.read len).2.1].flatMap QueueEvent.gives ++
        (q.read len).2.2.queue = q.queue := by
      simpa [QueueEvent.gives] using q.read_append len
    rw [hread, h.stream]
    simp [QueueEvent.puts]
  · rw [gap_concat, q.read_overflowed]
    simpa [QueueEvent.isKept] using h.marks

theorem Books.step (h : Books tr q) (ha : Allocates l)
    (hs : (Queue.machine queueMax).step q l = some q') :
    Books (tr ++ (Queue.machine queueMax).events q l) q' := by
  cases l with
  | read len =>
    cases hs
    exact h.took len
  | emit grown r =>
    cases hs
    show Books (tr ++ q.emitEvents queueMax grown r) _
    rcases q.emit_cases queueMax grown r with ⟨-, -, hno⟩ | ⟨hev, -, hq, hover⟩ | ⟨hev, -, hq, -⟩ |
      ⟨hev, -, hq, hfresh, hover⟩
    · rw [show grown = true from ha] at hno
      cases hno
    · rw [hev]
      exact h.kept hq hover
    · rw [hev, hq]
      exact h.lost r
    · -- the loss and its overflow record are two events, the first of which leaves the queue alone
      have hmark := (h.lost r).mark hq hfresh hover
      rw [hev]
      rwa [List.append_assoc] at hmark

/-- From a marked state, a step leads to a marked state exactly if it loses nothing silently. -/
theorem marked_step_iff (hb : Books tr q) (h : Marked tr q) (ha : Allocates l)
    (hs : (Queue.machine queueMax).step q l = some q') :
    Marked (tr ++ (Queue.machine queueMax).events q l) q' ↔ RoomToMark queueMax q l := by
  have hb' := hb.step ha hs
  have hlost := hb.gapMarked_iff.mp h.after
  cases l with
  | read len =>
    cases hs
    refine ⟨fun _ => trivial, fun _ => ⟨h.between.concat (fun he => by cases he), ?_, hb'.stream⟩⟩
    apply hb'.gapMarked_iff.mpr
    show (gap (tr ++ [_])).any QueueEvent.isLost = _
    rw [any_isLost_concat, hlost, q.read_overflowed]
    simp [QueueEvent.isKept, QueueEvent.isLost]
  | emit grown r =>
    cases hs
    change Books (tr ++ q.emitEvents queueMax grown r) _ at hb'
    show Marked (tr ++ q.emitEvents queueMax grown r) _ ↔ (_ → _ → _)
    rcases q.emit_cases queueMax grown r with ⟨-, -, hno⟩ | ⟨hev, hfits, hq, hover⟩ |
      ⟨hev, hfull, hq, hwhy⟩ | ⟨hev, hroom, hq, hfresh, hover⟩
    · rw [show grown = true from ha] at hno
      cases hno
    · rw [hev] at hb' ⊢
      refine ⟨fun _ hno => by omega, fun _ => ⟨h.between.concat (fun _ => h.after), ?_, hb'.stream⟩⟩
      exact hb'.gapMarked_iff.mpr (by rw [any_isLost_concat, hover]; rfl)
    · rw [hev, hq] at hb' ⊢
      have hany : (gap (tr ++ [.lost r])).any QueueEvent.isLost = true := by
        simp [any_isLost_concat, QueueEvent.isKept, QueueEvent.isLost]
      constructor
      · -- a marked gap with a loss in it has its overflow record, so the flag was set
        intro hm _ hfresh
        have hset := hb'.gapMarked_iff.mp hm.after
        rw [hany, hfresh] at hset
        cases hset
      · intro hcond
        have hset : q.overflowed = true := by
          rcases hwhy with hset | hno
          · exact hset
          · by_contra hne
            have := hcond hfull (by simpa using hne)
            omega
        refine ⟨h.between.concat (fun he => by cases he), ?_, hb'.stream⟩
        exact hb'.gapMarked_iff.mpr (by rw [hany, hset])
    · rw [hev] at hb' ⊢
      refine ⟨fun _ _ _ => hroom, fun _ => ⟨?_, ?_, hb'.stream⟩⟩
      · have htwo := (h.between.concat (e := .lost r) (fun he => by cases he)).concat
          (e := .mark) (fun he => by cases he)
        rwa [List.append_assoc] at htwo
      · apply hb'.gapMarked_iff.mpr
        rw [hover, show tr ++ [.lost r, .mark] = (tr ++ [.lost r]) ++ [.mark] by simp,
          any_isLost_concat, any_isLost_concat]
        simp [QueueEvent.isKept, QueueEvent.isLost]

theorem books_run (hr : Run (Queue.machine queueMax) (fun _ l => Allocates l) {} tr q) : Books tr q :=
  hr.invariant Books books_start fun _ _ _ _ _ h ha hs => h.step ha hs

theorem marked_start : Marked [] {} :=
  ⟨fun pre e post he => by simp at he, rfl, rfl⟩

theorem marked_run (hr : Run (Queue.machine queueMax)
    (fun q l => Allocates l ∧ RoomToMark queueMax q l) {} tr q) : Marked tr q :=
  (hr.invariant (fun tr q => Books tr q ∧ Marked tr q) ⟨books_start, marked_start⟩
    (fun _ _ _ _ _ h hc hs => ⟨h.1.step hc.1 hs, (marked_step_iff h.1 h.2 hc.1 hs).mpr hc.2⟩)).2

/-- A run that always has room for an overflow record where one is due reports every gap; and the
first step without that room leaves one unreported. -/
theorem overflow_marks_iff_room (queueMax : ℕ) :
    (∀ {tr q}, Run (Queue.machine queueMax) (fun q l => Allocates l ∧ RoomToMark queueMax q l) {} tr q →
      Marked tr q) ∧
    ∀ {tr q l q'}, Run (Queue.machine queueMax) (fun _ l => Allocates l) {} tr q → Marked tr q →
      Allocates l → (Queue.machine queueMax).step q l = some q' →
        (Marked (tr ++ (Queue.machine queueMax).events q l) q' ↔ RoomToMark queueMax q l) :=
  ⟨marked_run, fun hr hm ha hs => marked_step_iff (books_run hr) hm ha hs⟩

/-- Two records of 32 bytes in a queue of 48: the second is lost and marked, and reads of any length
leave the gap marked. -/
theorem overflow_marks_second :
    ∃ tr q, QueueEvent.mark ∈ tr ∧ Marked tr q ∧
      ∀ len, Marked (tr ++ [.took (q.read len).2.1]) (q.read len).2.2 := by
  obtain ⟨tr, q, hr, hmark⟩ := Run.of_exec (Queue.machine 48)
    (fun q l => Allocates l ∧ RoomToMark 48 q l) {} (fun tr _ => QueueEvent.mark ∈ tr)
    [.emit true { wd := 1, mask := inCreate, name := some [97] },
      .emit true { wd := 1, mask := inDelete, name := some [97] }] (by decide +kernel)
  have hm := (overflow_marks_iff_room 48).1 hr
  refine ⟨tr, q, hmark, hm, fun len => ?_⟩
  exact ((overflow_marks_iff_room 48).2 (l := .read len) (hr.mono fun _ _ hc => hc.1) hm trivial
    rfl).mpr trivial

/-- A queue filled with unnamed records. -/
theorem fill_run (n : ℕ) (hn : eventSize * n ≤ queueMax) :
    ∃ tr q, Run (Queue.machine queueMax) (fun q l => Allocates l ∧ RoomToMark queueMax q l) {} tr q ∧
      q.qlen = eventSize * n ∧ q.overflowed = false := by
  induction n with
  | zero => exact ⟨[], {}, .start, rfl, rfl⟩
  | succ n ih =>
    rw [Nat.mul_succ] at hn
    obtain ⟨tr, q, hr, hlen, hover⟩ := ih (by omega)
    have hfits : q.qlen + ({ wd := 1, mask := inModify } : Record).total ≤ queueMax := by
      rw [hlen]
      exact hn
    obtain ⟨-, -, hlen', hover'⟩ := Queue.emit_fits hfits
    have hc : Allocates (.emit true { wd := 1, mask := inModify }) ∧
        RoomToMark queueMax q (.emit true { wd := 1, mask := inModify }) :=
      ⟨rfl, fun hno => absurd hfits (Nat.not_le.mpr hno)⟩
    refine ⟨_, _, hr.next hc rfl, ?_, hover'⟩
    rw [hlen', hlen]
    rfl

/-- Unnamed records fill the queue to its last byte, and the next record is lost without a word. -/
theorem silent_loss {n : ℕ} (hmax : queueMax = eventSize * n) :
    ∃ tr q r, Run (Queue.machine queueMax) (fun _ l => Allocates l) {} (tr ++ [.lost r]) q ∧
      .mark ∉ gap (tr ++ [.lost r]) ∧ ¬ Marked (tr ++ [.lost r]) q := by
  obtain ⟨tr, q, hr, hlen, hover⟩ := fill_run n hmax.ge
  let r : Record := { wd := 1, mask := inModify }
  have hroom : queueMax < q.qlen + eventSize := by
    rw [hlen, ← hmax]
    exact Nat.lt_add_of_pos_right (by decide)
  obtain ⟨hev, hq⟩ := Queue.emit_silent (r := r) hroom hroom true
  have ha : Allocates (.emit true r) := rfl
  have hrun := hr.mono fun _ _ hc => hc.1
  have hnone : ¬ RoomToMark queueMax q (.emit true r) :=
    fun hc => absurd (hc hroom hover) (Nat.not_le.mpr hroom)
  have hbad := mt (marked_step_iff (books_run hrun) (marked_run hr) ha rfl).mp hnone
  have hnext := hrun.next ha (rfl : (Queue.machine queueMax).step q (.emit true r) = _)
  rw [show (Queue.machine queueMax).events q (.emit true r) = [.lost r] from hev, hq] at hnext hbad
  have hmarks := (books_run hnext).marks
  rw [hover] at hmarks
  exact ⟨tr, q, r, hnext, List.count_eq_zero.mp hmarks, hbad⟩

/-- 65536 unnamed records are the bound the sources set. -/
theorem full_queue_loses_silently :
    ∃ tr q r, Run (Queue.machine inotifyQueueMax) (fun _ l => Allocates l) {} (tr ++ [.lost r]) q ∧
      .mark ∉ gap (tr ++ [.lost r]) ∧ ¬ Marked (tr ++ [.lost r]) q :=
  silent_loss (n := 65536) (by decide)

end SlipstreamIO.Inotify
