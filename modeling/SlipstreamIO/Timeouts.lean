import SlipstreamIO.Enter

/-! The timeout of an enter with IORING_ENTER_EXT_ARG: the deadline, and the milliseconds left of it
at each wait. Signed arithmetic that leaves 64 bits has no result. -/
namespace SlipstreamIO.Engine

/-- What a 64-bit `time_t`, `long` or `long long` holds. -/
def Fits64 (x : ℤ) : Prop := -9223372036854775808 ≤ x ∧ x ≤ 9223372036854775807

instance (x : ℤ) : Decidable (Fits64 x) := inferInstanceAs (Decidable (_ ∧ _))

/-- The result of a signed operation, none when it overflows. -/
def signed (x : ℤ) : Option ℤ := if Fits64 x then some x else none

theorem signed_eq_some {x y : ℤ} : signed x = some y ↔ Fits64 x ∧ x = y := by
  unfold signed
  split
  · next h => simp [h]
  · next h => simp [h]

theorem signed_of_fits {x : ℤ} (h : Fits64 x) : signed x = some x := if_pos h

structure Timespec where
  tvSec : ℤ
  tvNsec : ℤ
  deriving DecidableEq, Repr

/-- A reading of the clock, or the timeout of a caller: no part negative, and less than a second of
nanoseconds. -/
structure Duration extends Timespec where
  sec_nonneg : 0 ≤ tvSec
  sec_le : tvSec ≤ 9223372036854775807
  nsec_nonneg : 0 ≤ tvNsec
  nsec_lt : tvNsec < 1000000000

/-- `sizeof(struct io_uring_getevents_arg)`. -/
def geteventsArgSize : ℕ := 24

/-- `extArg` is the flag; `arg` is NULL or the `ts` it carries, NULL or a timespec. Answers the
return value and `*out`, when it has a deadline. -/
def deadlineOf (extArg : Bool) (arg : Option (Option Timespec)) (sz : ℕ) (clock : Timespec) :
    Option (Int32 × Option Timespec) :=
  if !extArg then some (0, none)
  else
    match arg with
    | none => some (-einval, none)
    | some ts =>
      if sz ≠ geteventsArgSize then some (-einval, none)
      else
        match ts with
        | none => some (0, none)
        | some ts => do
          let tvSec ← signed (clock.tvSec + ts.tvSec)
          let tvNsec ← signed (clock.tvNsec + ts.tvNsec)
          if 1000000000 ≤ tvNsec then
            let tvSec ← signed (tvSec + 1)
            let tvNsec ← signed (tvNsec - 1000000000)
            return (0, some ⟨tvSec, tvNsec⟩)
          else return (0, some ⟨tvSec, tvNsec⟩)

/-- `left` in enter: the division truncates towards zero. -/
def leftOf (deadline now : Timespec) : Option ℤ := do
  let tvSec ← signed (deadline.tvSec - now.tvSec)
  let ms ← signed (tvSec * 1000)
  let tvNsec ← signed (deadline.tvNsec - now.tvNsec)
  signed (ms + tvNsec.tdiv 1000000)

/-- `timeout_ms`, none when enter answers -ETIME instead. -/
def timeoutMs (left : ℤ) : Option ℤ :=
  if left ≤ 0 then none else some (if 0x7fffffff < left then 0x7fffffff else left)

def Timespec.ns (t : Timespec) : ℤ := t.tvSec * 1000000000 + t.tvNsec

/-- The nanoseconds truly left at the reading `now` of a timeout that began at `clock`. -/
def remainingNs (ts clock now : Timespec) : ℤ := clock.ns + ts.ns - now.ns

/-- No operation of `deadline_of` overflows, none of a wait of this enter does, and each wait gets a
positive number of milliseconds, at most one above what is left. -/
def TimeoutSound (ts clock : Timespec) (waits : List Duration) : Prop :=
  ∃ deadline, deadlineOf true (some (some ts)) geteventsArgSize clock = some (0, some deadline) ∧
    ∀ now ∈ waits, ∃ left, leftOf deadline now.toTimespec = some left ∧
      ∀ ms ∈ timeoutMs left, 0 < ms ∧ ms ≤ 2147483647 ∧
        ms ≤ remainingNs ts clock now.toTimespec / 1000000 + 1

/-- The second that the nanoseconds of clock and timeout make together. -/
def carriedSecond (ts clock : Timespec) : ℤ :=
  if 1000000000 ≤ clock.tvNsec + ts.tvNsec then 1 else 0

/-- The seconds between `now` and the deadline, a thousandfold, are within 63 bits, and so are the
milliseconds left. -/
def LeftFits (ts clock now : Timespec) : Prop :=
  (clock.tvSec + ts.tvSec + carriedSecond ts clock - now.tvSec).natAbs ≤ 9223372036854775 ∧
    -9223372036854775809000000 < remainingNs ts clock now ∧
    remainingNs ts clock now < 9223372036854775808000000

section Deadline
variable (ts clock : Duration)

theorem carriedSecond_le : carriedSecond ts.toTimespec clock.toTimespec = 0 ∨
    carriedSecond ts.toTimespec clock.toTimespec = 1 := by
  unfold carriedSecond
  split
  · exact Or.inr rfl
  · exact Or.inl rfl

/-- The deadline lies at the clock's reading plus the timeout. -/
def deadlineAt (h : clock.tvSec + ts.tvSec + carriedSecond ts.toTimespec clock.toTimespec ≤
    9223372036854775807) : Duration where
  tvSec := clock.tvSec + ts.tvSec + carriedSecond ts.toTimespec clock.toTimespec
  tvNsec := clock.tvNsec + ts.tvNsec - 1000000000 * carriedSecond ts.toTimespec clock.toTimespec
  sec_nonneg := by
    have hs := ts.sec_nonneg
    have hc := clock.sec_nonneg
    have := carriedSecond_le ts clock
    omega
  sec_le := h
  nsec_nonneg := by
    have hs := ts.nsec_nonneg
    have hc := clock.nsec_nonneg
    unfold carriedSecond
    split <;> omega
  nsec_lt := by
    have hs := ts.nsec_lt
    have hc := clock.nsec_lt
    unfold carriedSecond
    split <;> omega

theorem deadlineAt_ns (h : clock.tvSec + ts.tvSec + carriedSecond ts.toTimespec clock.toTimespec ≤
    9223372036854775807) :
    (deadlineAt ts clock h).ns = clock.ns + ts.ns := by
  simp only [deadlineAt, Timespec.ns]
  omega

/-- `deadline_of` answers with the deadline exactly when it is below `2^63` seconds. -/
theorem deadlineOf_eq_some {deadline : Timespec} :
    deadlineOf true (some (some ts.toTimespec)) geteventsArgSize clock.toTimespec =
        some (0, some deadline) ↔
      ∃ h, deadline = (deadlineAt ts clock h).toTimespec := by
  obtain ⟨⟨sec, nsec⟩, hs0, hs1, hn0, hn1⟩ := ts
  obtain ⟨⟨sec', nsec'⟩, hs0', hs1', hn0', hn1'⟩ := clock
  simp only at hs0 hs1 hn0 hn1 hs0' hs1' hn0' hn1'
  have hn : signed (nsec' + nsec) = some (nsec' + nsec) := signed_of_fits ⟨by omega, by omega⟩
  have hn' (h : 1000000000 ≤ nsec' + nsec) :
      signed (nsec' + nsec - 1000000000) = some (nsec' + nsec - 1000000000) :=
    signed_of_fits ⟨by omega, by omega⟩
  simp only [deadlineOf, deadlineAt, carriedSecond, hn, Bool.not_true, Bool.false_eq_true, if_false, ne_eq,
    not_true_eq_false, Option.bind_eq_bind, Option.bind_eq_some_iff, signed_eq_some, Option.bind_some]
  split
  · next hc =>
    simp only [hn' hc, Option.bind_some, Option.bind_eq_some_iff, signed_eq_some, Option.pure_def,
      Option.some.injEq, Prod.mk.injEq, true_and, mul_one]
    constructor
    · rintro ⟨s, ⟨-, rfl⟩, s', ⟨hfit, rfl⟩, rfl⟩
      exact ⟨hfit.2, rfl⟩
    · rintro ⟨hle, rfl⟩
      exact ⟨_, ⟨⟨by omega, by omega⟩, rfl⟩, _, ⟨⟨by omega, hle⟩, rfl⟩, rfl⟩
  · simp only [Option.pure_def, Option.some.injEq, Prod.mk.injEq, true_and, mul_zero, add_zero,
      sub_zero]
    constructor
    · rintro ⟨s, ⟨hfit, rfl⟩, rfl⟩
      exact ⟨hfit.2, rfl⟩
    · rintro ⟨hle, rfl⟩
      exact ⟨_, ⟨⟨by omega, hle⟩, rfl⟩, rfl⟩

end Deadline

/-- Division by a million rounds towards zero: a negative number that is no multiple goes up. -/
theorem tdiv_million (n : ℤ) :
    ((0 ≤ n ∨ n % 1000000 = 0) ∧ n.tdiv 1000000 = n / 1000000) ∨
      (n < 0 ∧ n % 1000000 ≠ 0 ∧ n.tdiv 1000000 = n / 1000000 + 1) := by
  rw [Int.tdiv_eq_ediv]
  split
  · exact Or.inl ⟨by omega, by omega⟩
  · next h =>
    right
    simp only [not_or] at h
    refine ⟨by omega, by omega, ?_⟩
    simp

/-- `left` between two readings, and when no operation on the way to it overflows. -/
theorem leftOf_eq_some (deadline now : Duration) {left : ℤ} :
    leftOf deadline.toTimespec now.toTimespec = some left ↔
      ((deadline.tvSec - now.tvSec).natAbs ≤ 9223372036854775 ∧
        -9223372036854775809000000 < deadline.ns - now.ns ∧
        deadline.ns - now.ns < 9223372036854775808000000) ∧
      left = (deadline.tvSec - now.tvSec) * 1000 + (deadline.tvNsec - now.tvNsec).tdiv 1000000 := by
  obtain ⟨⟨sec, nsec⟩, hs0, hs1, hn0, hn1⟩ := deadline
  obtain ⟨⟨sec', nsec'⟩, hs0', hs1', hn0', hn1'⟩ := now
  simp only at hs0 hs1 hn0 hn1 hs0' hs1' hn0' hn1'
  have hs : signed (sec - sec') = some (sec - sec') := signed_of_fits ⟨by omega, by omega⟩
  have hn : signed (nsec - nsec') = some (nsec - nsec') := signed_of_fits ⟨by omega, by omega⟩
  have hdiv := tdiv_million (nsec - nsec')
  simp only [leftOf, hs, hn, Option.bind_eq_bind, Option.bind_some, Option.bind_eq_some_iff,
    signed_eq_some, Fits64, Timespec.ns]
  constructor
  · rintro ⟨ms, ⟨⟨hlo, hhi⟩, rfl⟩, ⟨hlo', hhi'⟩, rfl⟩
    exact ⟨⟨by omega, by omega, by omega⟩, rfl⟩
  · rintro ⟨⟨hd, hlo, hhi⟩, rfl⟩
    exact ⟨_, ⟨⟨by omega, by omega⟩, rfl⟩, ⟨by omega, by omega⟩, rfl⟩

theorem timeoutMs_bounds {left ms : ℤ} (h : timeoutMs left = some ms) :
    0 < ms ∧ ms ≤ 2147483647 ∧ ms ≤ left := by
  unfold timeoutMs at h
  split at h
  · cases h
  · next hpos =>
    cases h
    split <;> omega

/-- `left` is the time left rounded down to milliseconds, or one more. -/
theorem leftOf_le {deadline now : Duration} {left : ℤ}
    (h : leftOf deadline.toTimespec now.toTimespec = some left) :
    left ≤ (deadline.ns - now.ns) / 1000000 + 1 := by
  obtain ⟨-, rfl⟩ := (leftOf_eq_some deadline now).mp h
  have hdiv := tdiv_million (deadline.tvNsec - now.tvNsec)
  simp only [Timespec.ns]
  omega

/-- The arithmetic of an enter with a timeout is sound exactly when its deadline is below `2^63`
seconds and, at each of its waits, what is left of it fits in 63 bits of milliseconds. -/
theorem timeout_sound_iff (ts clock : Duration) (waits : List Duration) :
    TimeoutSound ts.toTimespec clock.toTimespec waits ↔
      clock.tvSec + ts.tvSec + carriedSecond ts.toTimespec clock.toTimespec ≤
          9223372036854775807 ∧
        ∀ now ∈ waits, LeftFits ts.toTimespec clock.toTimespec now.toTimespec := by
  unfold TimeoutSound
  constructor
  · rintro ⟨deadline, hd, hw⟩
    obtain ⟨hle, rfl⟩ := (deadlineOf_eq_some ts clock).mp hd
    refine ⟨hle, fun now hnow => ?_⟩
    obtain ⟨left, hleft, -⟩ := hw now hnow
    have hfit := ((leftOf_eq_some (deadlineAt ts clock hle) now).mp hleft).1
    rw [deadlineAt_ns] at hfit
    exact hfit
  · rintro ⟨hle, hw⟩
    refine ⟨_, (deadlineOf_eq_some ts clock).mpr ⟨hle, rfl⟩, fun now hnow => ?_⟩
    have hfit := hw now hnow
    rw [LeftFits, remainingNs, ← deadlineAt_ns ts clock hle] at hfit
    have hleft := (leftOf_eq_some (deadlineAt ts clock hle) now).mpr ⟨hfit, rfl⟩
    refine ⟨_, hleft, fun ms hms => ?_⟩
    obtain ⟨hpos, hmax, hms⟩ := timeoutMs_bounds hms
    refine ⟨hpos, hmax, hms.trans ?_⟩
    rw [remainingNs, ← deadlineAt_ns ts clock hle]
    exact leftOf_le hleft

/-- A timeout of all the seconds a `time_t` holds, with a clock that reads one second: the sum that
makes the deadline overflows. -/
theorem forever_overflows : ∃ ts clock : Duration,
    ¬ TimeoutSound ts.toTimespec clock.toTimespec [] := by
  refine ⟨⟨⟨9223372036854775807, 0⟩, by decide, by decide, by decide, by decide⟩,
    ⟨⟨1, 0⟩, by decide, by decide, by decide, by decide⟩, ?_⟩
  rintro ⟨deadline, hd, -⟩
  have hnone : deadlineOf true (some (some ⟨9223372036854775807, 0⟩)) geteventsArgSize ⟨1, 0⟩ = none := by
    decide
  rw [hnone] at hd
  cases hd

/-- Where enter goes with the time left, on its first pass. -/
theorem check_timeout {s : Core} {f : Frame} (hpc : s.pc = .check f)
    (hshort : s.ring.cqAvail < f.call.minComplete) (hd : f.call.hasDeadline = true)
    (hl : f.looped = false) (left : ℤ) :
    s.check left = some { s with
      pc := if timeoutMs left = none then .out (some (-etime)) else .wait f false [] } := by
  simp only [Core.check, hpc, if_neg (UInt32.not_le.mpr hshort), hd, hl, if_true, Bool.false_or,
    timeoutMs]
  by_cases h : left ≤ 0 <;> simp [h]

end SlipstreamIO.Engine
