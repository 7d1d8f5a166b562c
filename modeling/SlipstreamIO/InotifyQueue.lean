import Mathlib.Algebra.GroupWithZero.Nat
import Mathlib.Data.List.DropRight
import SlipstreamIO.Runs

/-! The queue of an inotify instance: the bytes of the records that wait for a read, its bound, and
the overflow record that stands for what did not fit. The two arms have the same emit and the same
copying half of read. -/
namespace SlipstreamIO.Inotify
open Runs

def inModify : UInt32 := 0x00000002
def inAttrib : UInt32 := 0x00000004
def inMovedFrom : UInt32 := 0x00000040
def inMovedTo : UInt32 := 0x00000080
def inCreate : UInt32 := 0x00000100
def inDelete : UInt32 := 0x00000200
def inDeleteSelf : UInt32 := 0x00000400
def inMoveSelf : UInt32 := 0x00000800
def inUnmount : UInt32 := 0x00002000
def inQOverflow : UInt32 := 0x00004000
def inIgnored : UInt32 := 0x00008000
def inIsdir : UInt32 := 0x40000000
def inAllEvents : UInt32 := 0x00000fff
def enomem : Int := -12
def efault : Int := -14
def einval : Int := -22

/-- The arguments of an emit call. A name is the bytes of a C string, without its NUL. -/
structure Record where
  wd : Int32
  mask : UInt32
  cookie : UInt32 := 0
  name : Option (List UInt8) := none
  deriving DecidableEq, Repr

/-- inotify pads name with NULs so len is a multiple of 16. -/
def nameLen : Option (List UInt8) → UInt32
  | none => 0
  | some name => UInt32.ofNat ((name.length + 1 + 15) / 16 * 16)

/-- sizeof(struct slipstream_inotify_event). -/
def eventSize : ℕ := 16

def le32 (x : UInt32) : List UInt8 :=
  [x.toUInt8, (x >>> 8).toUInt8, (x >>> 16).toUInt8, (x >>> 24).toUInt8]

def eventBytes (wd : Int32) (mask cookie len : UInt32) : List UInt8 :=
  le32 wd.toUInt32 ++ le32 mask ++ le32 cookie ++ le32 len

namespace Record

def total (r : Record) : ℕ := eventSize + (nameLen r.name).toNat

/-- The record in the queue: the event, then the name in `len` bytes that were zero. -/
def bytes (r : Record) : List UInt8 :=
  let len := nameLen r.name
  eventBytes r.wd r.mask r.cookie len ++
    (r.name.getD [] ++ List.replicate len.toNat 0).take len.toNat

/-- ONE overflow record for a run of lost events, with wd -1 and no name. -/
def overflow : Record := { wd := -1, mask := inQOverflow }

theorem length_bytes (r : Record) : r.bytes.length = r.total := by
  simp [bytes, total, eventBytes, le32, eventSize]
  omega

end Record

/-- SLIPSTREAM_INOTIFY_QUEUE_MAX, where a build sets no other. -/
def inotifyQueueMax : ℕ := 1 <<< 20

/-- The queue fields of `struct inst`; `queue` is the first `qlen` bytes. -/
structure Queue where
  queue : List UInt8 := []
  qcap : ℕ := 0
  overflowed : Bool := false

namespace Queue

def qlen (q : Queue) : ℕ := q.queue.length

/-- `want`, doubled until it is `need` or more. -/
def growTo (need : ℕ) : ℕ → ℕ → ℕ
  | 0, want => want
  | k + 1, want => if want < need then growTo need k (want * 2) else want

/-- emit in a queue bounded by `queueMax`; `grown` is whether a realloc it makes gives memory. -/
def emit (queueMax : ℕ) (grown : Bool) (q : Queue) (r : Record) : Queue :=
  if queueMax < q.qlen + r.total then
    if q.overflowed then q
    else if queueMax < q.qlen + eventSize then q
    else { q with queue := q.queue ++ Record.overflow.bytes, overflowed := true }
  else if q.qcap < q.qlen + r.total then
    if grown then
      { queue := q.queue ++ r.bytes
        qcap := growTo (q.qlen + r.total) (q.qlen + r.total) (if q.qcap = 0 then 4096 else q.qcap * 2)
        overflowed := false }
    else q
  else { q with queue := q.queue ++ r.bytes, overflowed := false }

/-- Emits in order; `grown` tells of the reallocs they make. -/
def emits (queueMax : ℕ) : (ℕ → Bool) → Queue → List Record → Queue
  | _, q, [] => q
  | grown, q, r :: rs => emits queueMax (fun i => grown (i + 1)) (q.emit queueMax (grown 0) r) rs

/-- The `len` field of the event that starts at `out`. -/
def lenAt (queue : List UInt8) (out : ℕ) : ℕ :=
  let b (i : ℕ) := (queue.getD (out + 12 + i) 0).toNat
  b 0 + 256 * (b 1 + 256 * (b 2 + 256 * b 3))

/-- Whole records only, as inotify gives: how far `len` bytes reach. -/
def wholeRecords (queue : List UInt8) (len : ℕ) : ℕ → ℕ → ℕ
  | 0, out => out
  | k + 1, out =>
    if out < queue.length then
      let total := eventSize + lenAt queue out
      if len < out + total then out else wholeRecords queue len k (out + total)
    else out

/-- The copying half of slipstream_inotify_read: its answer, the bytes in the caller's buffer, and
the queue it leaves. Each record is longer than a byte, so `qlen` turns are enough. -/
def read (q : Queue) (len : ℕ) : Int × List UInt8 × Queue :=
  if len < eventSize then (einval, [], q)
  else if q.qlen = 0 then (0, [], q)
  else
    let out := wholeRecords q.queue len q.qlen 0
    if out = 0 then (einval, [], q)
    else (out, q.queue.take out, { q with queue := q.queue.drop out })

end Queue

/-- What happens to the queue: a record is accepted, is discarded for lack of room, an overflow
record is made for it, a read takes bytes. -/
inductive QueueEvent
  | kept (r : Record)
  | lost (r : Record)
  | mark
  | took (buf : List UInt8)
  deriving DecidableEq

inductive QueueLabel
  | emit (grown : Bool) (r : Record)
  | read (len : ℕ)

namespace Queue

def emitEvents (queueMax : ℕ) (grown : Bool) (q : Queue) (r : Record) : List QueueEvent :=
  if queueMax < q.qlen + r.total then
    if q.overflowed ∨ queueMax < q.qlen + eventSize then [.lost r] else [.lost r, .mark]
  else if q.qcap < q.qlen + r.total ∧ grown = false then []
  else [.kept r]

def emitsEvents (queueMax : ℕ) : (ℕ → Bool) → Queue → List Record → List QueueEvent
  | _, _, [] => []
  | grown, q, r :: rs => q.emitEvents queueMax (grown 0) r ++
      emitsEvents queueMax (fun i => grown (i + 1)) (q.emit queueMax (grown 0) r) rs

/-- Any sequence of emits and reads. -/
def machine (queueMax : ℕ) : Machine Queue QueueLabel QueueEvent where
  step q
    | .emit grown r => some (q.emit queueMax grown r)
    | .read len => some (q.read len).2.2
  events q
    | .emit grown r => q.emitEvents queueMax grown r
    | .read len => [.took (q.read len).2.1]

/-- Everything an emit can do. -/
theorem emit_cases (queueMax : ℕ) (grown : Bool) (q : Queue) (r : Record) :
    (q.emitEvents queueMax grown r = [] ∧ q.emit queueMax grown r = q ∧ grown = false) ∨
    (q.emitEvents queueMax grown r = [.kept r] ∧ q.qlen + r.total ≤ queueMax ∧
      (q.emit queueMax grown r).queue = q.queue ++ r.bytes ∧
      (q.emit queueMax grown r).overflowed = false) ∨
    (q.emitEvents queueMax grown r = [.lost r] ∧ queueMax < q.qlen + r.total ∧
      q.emit queueMax grown r = q ∧ (q.overflowed = true ∨ queueMax < q.qlen + eventSize)) ∨
    (q.emitEvents queueMax grown r = [.lost r, .mark] ∧ q.qlen + eventSize ≤ queueMax ∧
      (q.emit queueMax grown r).queue = q.queue ++ Record.overflow.bytes ∧
      q.overflowed = false ∧ (q.emit queueMax grown r).overflowed = true) := by
  unfold emitEvents emit
  by_cases hfull : queueMax < q.qlen + r.total
  · by_cases hover : q.overflowed = true
    · exact Or.inr (Or.inr (Or.inl (by simp [hfull, hover])))
    by_cases hroom : queueMax < q.qlen + eventSize
    · exact Or.inr (Or.inr (Or.inl (by simp [hfull, hroom])))
    · exact Or.inr (Or.inr (Or.inr (by simp [hfull, hover, hroom, Nat.not_lt.mp hroom])))
  · by_cases hcap : q.qcap < q.qlen + r.total
    · cases grown with
      | true => exact Or.inr (Or.inl (by simp [hfull, hcap, Nat.not_lt.mp hfull]))
      | false => exact Or.inl (by simp [hfull, hcap])
    · exact Or.inr (Or.inl (by simp [hfull, hcap, Nat.not_lt.mp hfull]))

theorem emit_fits {queueMax : ℕ} {q : Queue} {r : Record} (hfits : q.qlen + r.total ≤ queueMax) :
    q.emitEvents queueMax true r = [.kept r] ∧ (q.emit queueMax true r).queue = q.queue ++ r.bytes ∧
      (q.emit queueMax true r).qlen = q.qlen + r.total ∧
      (q.emit queueMax true r).overflowed = false := by
  rcases q.emit_cases queueMax true r with ⟨-, -, hno⟩ | ⟨hev, -, hq, hover⟩ | ⟨-, hfull, -⟩ |
    ⟨hev, -, hq, hfresh, -⟩
  · cases hno
  · refine ⟨hev, hq, ?_, hover⟩
    rw [qlen, hq, List.length_append, r.length_bytes]
    rfl
  · omega
  · simp [emitEvents, Nat.not_lt.mpr hfits] at hev

/-- Records the queue has room for are all in it afterwards. -/
theorem emits_fit {queueMax : ℕ} {q : Queue} {rs : List Record}
    (hfit : q.qlen + (rs.map Record.total).sum ≤ queueMax) :
    (q.emits queueMax (fun _ => true) rs).queue = q.queue ++ rs.flatMap Record.bytes := by
  induction rs generalizing q with
  | nil => simp [emits]
  | cons r rs ih =>
    rw [List.map_cons, List.sum_cons] at hfit
    have hr : q.qlen + r.total ≤ queueMax := by omega
    obtain ⟨-, hq, hlen, -⟩ := emit_fits hr
    rw [emits, ih (by rw [hlen]; omega), hq, List.flatMap_cons, List.append_assoc]

/-- A record lost with no overflow record standing and no room for one. -/
theorem emit_silent {queueMax : ℕ} {q : Queue} {r : Record} (hfull : queueMax < q.qlen + r.total)
    (hroom : queueMax < q.qlen + eventSize) (grown : Bool) :
    q.emitEvents queueMax grown r = [.lost r] ∧ q.emit queueMax grown r = q := by
  simp [emitEvents, emit, hfull, hroom]

/-- A read leaves what it did not take. -/
theorem read_append (q : Queue) (len : ℕ) : (q.read len).2.1 ++ (q.read len).2.2.queue = q.queue := by
  unfold read
  split_ifs
  · rfl
  · rfl
  · simp only
    split_ifs
    · rfl
    · exact List.take_append_drop _ _

theorem read_overflowed (q : Queue) (len : ℕ) : (q.read len).2.2.overflowed = q.overflowed := by
  unfold read
  split_ifs
  · rfl
  · rfl
  · simp only
    split_ifs <;> rfl

end Queue

namespace QueueEvent

def isKept : QueueEvent → Bool
  | .kept _ => true
  | _ => false

def isLost : QueueEvent → Bool
  | .lost _ => true
  | _ => false

/-- The record an event puts in the queue. -/
def puts : QueueEvent → List Record
  | .kept r => [r]
  | .mark => [Record.overflow]
  | _ => []

/-- The bytes an event gives to the caller. -/
def gives : QueueEvent → List UInt8
  | .took buf => buf
  | _ => []

end QueueEvent

/-- What happened since the last accepted record. -/
def gap (tr : List QueueEvent) : List QueueEvent := tr.rtakeWhile (fun e => !e.isKept)

/-- One overflow record if a record was discarded since the last accepted one, none otherwise. -/
def GapMarked (tr : List QueueEvent) : Prop :=
  (gap tr).count .mark = if (gap tr).any QueueEvent.isLost then 1 else 0

instance (tr : List QueueEvent) : Decidable (GapMarked tr) :=
  inferInstanceAs (Decidable (_ = _))

/-- The gap before every accepted record is marked, and so is the one after the last; what was read
and what waits are the records that were put in, in order. -/
structure Marked (tr : List QueueEvent) (q : Queue) : Prop where
  between : AtEach (fun pre e => e.isKept = true → GapMarked pre) tr
  after : GapMarked tr
  stream : tr.flatMap QueueEvent.gives ++ q.queue =
    (tr.flatMap QueueEvent.puts).flatMap Record.bytes

theorem gap_concat (tr : List QueueEvent) (e : QueueEvent) :
    gap (tr ++ [e]) = if e.isKept then [] else gap tr ++ [e] := by
  unfold gap
  rw [List.rtakeWhile_concat]
  cases e.isKept <;> rfl

/-- Whether the last gap holds a loss. -/
theorem any_isLost_concat (tr : List QueueEvent) (e : QueueEvent) :
    (gap (tr ++ [e])).any QueueEvent.isLost =
      (!e.isKept && ((gap tr).any QueueEvent.isLost || e.isLost)) := by
  rw [gap_concat]
  cases e.isKept <;> simp

section Conditions

/-- Allocation succeeds. -/
def Allocates : QueueLabel → Prop
  | .emit grown _ => grown = true
  | .read _ => True

/-- A record that does not fit, with no overflow record made for it yet, finds room for one. -/
def RoomToMark (queueMax : ℕ) (q : Queue) : QueueLabel → Prop
  | .emit _ r => queueMax < q.qlen + r.total → q.overflowed = false → q.qlen + eventSize ≤ queueMax
  | .read _ => True

instance (l : QueueLabel) : Decidable (Allocates l) :=
  match l with
  | .emit grown _ => inferInstanceAs (Decidable (grown = true))
  | .read _ => isTrue trivial

instance (queueMax : ℕ) (q : Queue) (l : QueueLabel) : Decidable (RoomToMark queueMax q l) :=
  match l with
  | .emit _ _ => inferInstanceAs (Decidable (queueMax < _ → q.overflowed = false → _))
  | .read _ => isTrue trivial

end Conditions

end SlipstreamIO.Inotify
