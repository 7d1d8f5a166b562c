import SlipstreamIO.Inevitable
import SlipstreamIO.SignalSources

/-! Signals as a descriptor, where there is no signalfd and no dispatch: one thread waits for the signals of
the instance and writes each that it takes into a pipe. -/
namespace SlipstreamIO.Signal
open Engine Runs

/-- Where the thread is: in front of the test of `g_stop`, in sigtimedwait, in front of the write, or behind
its loop. -/
inductive PumpAt where
  | loops
  | waits
  | writes (signum : ℤ)
  | returned
  deriving DecidableEq, Repr

/-- The globals of the arm; `write` is that `g_write` is a descriptor. `thread` is the thread behind
`g_thread`, `pipe` what is in the pipe, `joins` that the caller is in pthread_join, and `pending` the signals
that wait for the process. The last four are ghost, of the instance that was opened last: the signals its
open asked for, those the thread took, what became of each (whether its byte was written), and what reads
answered. -/
structure Pump where
  running : Bool := false
  stop : Bool := false
  write : Bool := false
  sigset : List ℤ := []
  thread : Option PumpAt := none
  pipe : List UInt8 := []
  joins : Bool := false
  pending : List ℤ := []
  asked : List ℤ := []
  taken : List ℤ := []
  fates : List (ℤ × Bool) := []
  answered : List ℤ := []
  deriving DecidableEq, Repr

/-- (char) of an int. -/
def charOf (signum : ℤ) : UInt8 := UInt8.ofNat (signum % 256).toNat

/-- (int) (unsigned char). -/
def signumOf (one : UInt8) : ℤ := one.toNat

/-- sigaddset for each signal, up to the first that is not one of `1 .. nsig - 1`. -/
def sigaddAll (nsig : ℤ) : List ℤ → List ℤ → List ℤ × Bool
  | set, [] => (set, true)
  | set, sig :: rest => if 0 < sig ∧ sig < nsig then sigaddAll nsig (set ++ [sig]) rest else (set, false)

namespace Pump

/-- slipstream_signal_open; `pipe` is the error of pipe(2) or none, `created` that the thread is made. -/
def signalOpen (nsig : ℤ) (s : Pump) (signums : Option (List ℤ)) (pipe : Option Int32) (created : Bool) :
    Pump × Except Int32 Unit :=
  match signums with
  | none => (s, .error einval)
  | some signums =>
    if signums = [] then (s, .error einval)
    else if s.running then (s, .error eexist)
    else
      match sigaddAll nsig [] signums with
      | (set, false) => ({ s with sigset := set }, .error einval)
      | (set, true) =>
        match pipe with
        | some errno => ({ s with sigset := set }, .error errno)
        | none =>
          if created then
            ({ s with
                running := true
                stop := false
                write := true
                sigset := set
                thread := some .loops
                pipe := []
                asked := signums
                taken := []
                fates := []
                answered := [] }, .ok ())
          else ({ s with sigset := set, stop := false, write := false }, .error eagain)

/-- slipstream_signal_close up to pthread_join, or to its end where nothing runs. -/
def signalClose (s : Pump) : Pump :=
  if s.running then { s with stop := true, joins := true } else { s with write := false, pipe := [] }

/-- The rest of it, when the thread has returned. -/
def joined (s : Pump) : Pump :=
  { s with running := false, write := false, thread := none, pipe := [], joins := false }

/-- What the thread took and did not write yet. -/
def inHand (s : Pump) : List ℤ :=
  match s.thread with
  | some (.writes signum) => [signum]
  | some .loops => []
  | some .waits => []
  | some .returned => []
  | none => []

/-- The signals whose bytes were written. -/
def written (s : Pump) : List ℤ := (s.fates.filter Prod.snd).map Prod.fst

/-- The signals sigtimedwait would return with at once. -/
def ready (s : Pump) : List ℤ := s.pending.filter fun signum => signum ∈ s.sigset

end Pump

inductive PumpLabel where
  | opens (signums : Option (List ℤ)) (pipe : Option Int32) (created : Bool)
  | reads
  | closes
  | joined
  | raises (signum : ℤ)
  /-- The test of `g_stop`. -/
  | tests
  | timesOut
  | takes (signum : ℤ)
  | writes
  /-- A write that waits for room is broken off, and its byte with it: the answer is not looked at. -/
  | brokenOff
  deriving DecidableEq, Repr

/-- One caller, the thread, and the signals, in any order. The caller is held in pthread_join; another
thread of its may read meanwhile. `room` is how many bytes the pipe holds. -/
def Pump.step (nsig : ℤ) (room : ℕ) (s : Pump) : PumpLabel → Option Pump
  | .opens signums pipe created => if s.joins then none else some (s.signalOpen nsig signums pipe created).1
  | .reads =>
    match s.pipe with
    | [] => if s.write then some s else none
    | one :: rest => some { s with pipe := rest, answered := s.answered ++ [signumOf one] }
  | .closes => if s.joins then none else some s.signalClose
  | .joined => if s.joins ∧ s.thread = some .returned then some s.joined else none
  | .raises signum =>
    some { s with pending := if signum ∈ s.pending then s.pending else s.pending ++ [signum] }
  | .tests =>
    match s.thread with
    | some .loops => some { s with thread := some (if s.stop then .returned else .waits) }
    | _ => none
  | .timesOut =>
    match s.thread with
    | some .waits =>
      -- with a signal of the set pending the answer is that signal
      if s.ready = [] then some { s with thread := some .loops } else none
    | _ => none
  | .takes signum =>
    match s.thread with
    | some .waits =>
      if signum ∈ s.ready then
        some { s with
          pending := s.pending.erase signum
          thread := some (.writes signum)
          taken := s.taken ++ [signum] }
      else none
    | _ => none
  | .writes =>
    match s.thread with
    | some (.writes signum) =>
      if s.pipe.length < room then
        some { s with
          pipe := s.pipe ++ [charOf signum]
          thread := some .loops
          fates := s.fates ++ [(signum, true)] }
      else none
    | _ => none
  | .brokenOff =>
    match s.thread with
    | some (.writes signum) =>
      if s.pipe.length < room then none
      else some { s with thread := some .loops, fates := s.fates ++ [(signum, false)] }
    | _ => none

def pumpMachine (nsig : ℤ) (room : ℕ) : Machine Pump PumpLabel PumpLabel where
  step := Pump.step nsig room
  events _ l := [l]

/-- What is true of every state: there is a thread just as an instance runs, and it waits for the signals
that the open asked for; what it took is what it has in hand and what was written or broken off, in order;
and reads answer what was written, in order, all of it or what of it was read before the close. -/
structure PumpSound (s : Pump) : Prop where
  thread : s.thread.isSome = s.running
  write : s.write = s.running
  joins : s.joins = true → s.running = true ∧ s.stop = true
  idle : s.running = false → s.pipe = []
  set : s.running = true → s.sigset = s.asked
  wanted : ∀ signum ∈ s.taken, signum ∈ s.asked
  taken : s.taken = s.fates.map Prod.fst ++ s.inHand
  order : s.running = true → s.answered ++ s.pipe.map signumOf = s.written
  answers : s.answered <+: s.written
  valid : ∀ signum ∈ s.asked, 0 < signum ∧ signum < 256

theorem signumOf_charOf {signum : ℤ} (h0 : 0 < signum) (h : signum < 256) :
    signumOf (charOf signum) = signum := by
  have hmod : signum % 256 = signum := Int.emod_eq_of_lt h0.le h
  have hlt : signum.toNat < 256 := by omega
  rw [signumOf, charOf, hmod, UInt8.toNat_ofNat', Nat.mod_eq_of_lt hlt]
  exact Int.toNat_of_nonneg h0.le

/-- Where no signal is refused, the set is the signals, and each of them is one. -/
theorem sigaddAll_true {nsig : ℤ} (signums set : List ℤ) (h : (sigaddAll nsig set signums).2 = true) :
    (sigaddAll nsig set signums).1 = set ++ signums ∧ ∀ sig ∈ signums, 0 < sig ∧ sig < nsig := by
  induction signums generalizing set with
  | nil => exact ⟨(List.append_nil set).symm, fun _ hmem => absurd hmem List.not_mem_nil⟩
  | cons sig rest ih =>
    rw [sigaddAll] at h ⊢
    by_cases hvalid : 0 < sig ∧ sig < nsig
    · rw [if_pos hvalid] at h ⊢
      obtain ⟨hset, hrest⟩ := ih _ h
      constructor
      · rw [hset, List.append_assoc, List.singleton_append]
      · intro x hx
        rcases List.mem_cons.mp hx with rfl | hx
        · exact hvalid
        · exact hrest x hx
    · rw [if_neg hvalid] at h
      cases h

theorem Pump.mem_ready {s : Pump} {signum : ℤ} (h : signum ∈ s.ready) : signum ∈ s.sigset := by
  rw [Pump.ready, List.mem_filter, decide_eq_true_eq] at h
  exact h.2

namespace PumpSound
variable {nsig : ℤ} {room : ℕ} {s s' : Pump} {signum : ℤ}

theorem start : PumpSound {} := by
  constructor
  · rfl
  · rfl
  · exact fun h => by cases h
  · exact fun _ => rfl
  · exact fun h => by cases h
  · exact fun _ h => absurd h List.not_mem_nil
  · rfl
  · exact fun h => by cases h
  · exact List.prefix_rfl
  · exact fun _ h => absurd h List.not_mem_nil

/-- An open: it is refused and leaves what runs as it is, or it starts afresh. -/
theorem opens (h : PumpSound s) (hnsig : nsig ≤ 256) (signums : Option (List ℤ)) (pipe : Option Int32)
    (created : Bool) (hjoins : s.joins = false) : PumpSound (s.signalOpen nsig signums pipe created).1 := by
  cases signums with
  | none => exact h
  | some signums =>
    rw [Pump.signalOpen]
    by_cases hnil : signums = []
    · rw [if_pos hnil]
      exact h
    rw [if_neg hnil]
    by_cases hrun : s.running = true
    · rw [if_pos hrun]
      exact h
    rw [if_neg hrun]
    -- nothing runs, so the set is nobody's
    have hset : ∀ set, PumpSound { s with sigset := set } := by
      intro set
      exact ⟨h.thread, h.write, h.joins, h.idle, fun hyes => absurd hyes hrun, h.wanted, h.taken, h.order,
        h.answers, h.valid⟩
    have hnojoin : ∀ {p : Prop}, s.joins = true → p := by
      intro p hj
      rw [hjoins] at hj
      cases hj
    cases hadd : sigaddAll nsig [] signums with
    | mk set ok =>
      cases ok with
      | false => exact hset set
      | true =>
        cases pipe with
        | some errno => exact hset set
        | none =>
          cases created with
          | false =>
            have hrun' : false = s.running := (Bool.eq_false_of_not_eq_true hrun).symm
            exact ⟨h.thread, hrun', hnojoin, h.idle, fun hyes => absurd hyes hrun, h.wanted, h.taken, h.order,
              h.answers, h.valid⟩
          | true =>
            have hok : (sigaddAll nsig [] signums).2 = true := by rw [hadd]
            obtain ⟨hasked, hvalid⟩ := sigaddAll_true signums [] hok
            rw [hadd] at hasked
            exact ⟨rfl, rfl, hnojoin, (fun hno => by cases hno), fun _ => hasked,
              fun _ hmem => absurd hmem List.not_mem_nil, rfl, fun _ => rfl, List.prefix_rfl,
              fun sig hsig => ⟨(hvalid sig hsig).1, (hvalid sig hsig).2.trans_le hnsig⟩⟩

/-- A byte goes over from the pipe to the answers. -/
theorem reads (h : PumpSound s) {one : UInt8} {rest : List UInt8} (hpipe : s.pipe = one :: rest) :
    PumpSound { s with pipe := rest, answered := s.answered ++ [signumOf one] } := by
  have hrun : s.running = true := by
    cases hrun : s.running with
    | true => rfl
    | false =>
      have hnil := h.idle hrun
      rw [hpipe] at hnil
      cases hnil
  have hmoved : s.answered ++ [signumOf one] ++ rest.map signumOf = s.written := by
    have horder := h.order hrun
    rw [hpipe, List.map_cons] at horder
    rw [List.append_assoc, List.singleton_append]
    exact horder
  refine ⟨h.thread, h.write, h.joins, ?_, h.set, h.wanted, h.taken, fun _ => hmoved, ?_, h.valid⟩
  · intro hno
    rw [show s.running = false from hno] at hrun
    cases hrun
  · exact ⟨rest.map signumOf, hmoved⟩

/-- A close tells the thread to stop, or there is none. -/
theorem closes (h : PumpSound s) : PumpSound s.signalClose := by
  rw [Pump.signalClose]
  by_cases hrun : s.running = true
  · rw [if_pos hrun]
    exact ⟨h.thread, h.write, fun _ => ⟨hrun, rfl⟩, h.idle, h.set, h.wanted, h.taken, h.order, h.answers,
      h.valid⟩
  · rw [if_neg hrun]
    have hrun' : false = s.running := (Bool.eq_false_of_not_eq_true hrun).symm
    exact ⟨h.thread, hrun', fun hj => absurd (h.joins hj).1 hrun, fun _ => rfl, h.set, h.wanted, h.taken,
      fun hyes => absurd hyes hrun, h.answers, h.valid⟩

/-- The thread has returned: what was not read is gone with the pipe. -/
theorem joined (h : PumpSound s) (hthread : s.thread = some .returned) : PumpSound s.joined := by
  have htaken : s.joined.taken = s.joined.fates.map Prod.fst ++ s.joined.inHand := by
    have hbefore := h.taken
    rw [Pump.inHand, hthread] at hbefore
    exact hbefore
  exact ⟨rfl, rfl, (fun hj => by cases hj), fun _ => rfl, (fun hyes => by cases hyes), h.wanted, htaken,
    (fun hyes => by cases hyes), h.answers, h.valid⟩

/-- The thread goes from a place to another with the same in hand. -/
theorem moves (h : PumpSound s) {at₁ at₂ : PumpAt} (hthread : s.thread = some at₁)
    (hhand : ({ s with thread := some at₂ } : Pump).inHand = s.inHand) :
    PumpSound { s with thread := some at₂ } := by
  have hsome : (some at₂).isSome = s.running := by
    rw [← h.thread, hthread]
    rfl
  refine ⟨hsome, h.write, h.joins, h.idle, h.set, h.wanted, ?_, h.order, h.answers, h.valid⟩
  rw [hhand]
  exact h.taken

/-- There is an instance where there is a thread. -/
theorem runs (h : PumpSound s) {place : PumpAt} (hthread : s.thread = some place) : s.running = true := by
  rw [← h.thread, hthread]
  rfl

theorem takes (h : PumpSound s) (hthread : s.thread = some .waits) (hready : signum ∈ s.ready) :
    PumpSound { s with
      pending := s.pending.erase signum, thread := some (.writes signum), taken := s.taken ++ [signum] } := by
  have hrun := h.runs hthread
  have htaken : s.taken = s.fates.map Prod.fst := by
    have hbefore := h.taken
    rw [Pump.inHand, hthread, List.append_nil] at hbefore
    exact hbefore
  refine ⟨hrun.symm, h.write, h.joins, h.idle, h.set, ?_, ?_, h.order, h.answers, h.valid⟩
  · intro sig hsig
    rcases List.mem_append.mp hsig with hold | hnew
    · exact h.wanted sig hold
    · rw [List.mem_singleton.mp hnew, ← h.set hrun]
      exact Pump.mem_ready hready
  · exact congrArg (· ++ [signum]) htaken

/-- What was in hand has its fate behind the write. -/
theorem fated (h : PumpSound s) (hthread : s.thread = some (.writes signum)) (whole : Bool) :
    s.taken = (s.fates ++ [(signum, whole)]).map Prod.fst ++ [] := by
  have hbefore := h.taken
  rw [Pump.inHand, hthread] at hbefore
  rw [hbefore, List.map_append, List.map_singleton, List.append_nil]

theorem writes (h : PumpSound s) (hthread : s.thread = some (.writes signum)) :
    PumpSound { s with
      pipe := s.pipe ++ [charOf signum], thread := some .loops, fates := s.fates ++ [(signum, true)] } := by
  have hrun := h.runs hthread
  have hmem : signum ∈ s.taken := by
    rw [h.taken, Pump.inHand, hthread]
    exact List.mem_append_right _ (List.mem_singleton_self _)
  obtain ⟨hpos, hlt⟩ := h.valid signum (h.wanted signum hmem)
  have hwritten : ((s.fates ++ [(signum, true)]).filter Prod.snd).map Prod.fst = s.written ++ [signum] := by
    rw [List.filter_append, List.map_append]
    rfl
  -- the byte at the end of the pipe is read back as the signal
  have horder : s.answered ++ (s.pipe ++ [charOf signum]).map signumOf = s.written ++ [signum] := by
    rw [List.map_append, List.map_singleton, signumOf_charOf hpos hlt, ← List.append_assoc, h.order hrun]
  refine ⟨hrun.symm, h.write, h.joins, ?_, h.set, h.wanted, h.fated hthread true, ?_, ?_, h.valid⟩
  · intro hno
    rw [show s.running = false from hno] at hrun
    cases hrun
  · exact fun _ => horder.trans hwritten.symm
  · exact h.answers.trans ⟨[signum], hwritten.symm⟩

theorem breaks (h : PumpSound s) (hthread : s.thread = some (.writes signum)) :
    PumpSound { s with thread := some .loops, fates := s.fates ++ [(signum, false)] } := by
  have hwritten : ((s.fates ++ [(signum, false)]).filter Prod.snd).map Prod.fst = s.written := by
    rw [List.filter_append, List.map_append]
    exact List.append_nil _
  refine ⟨(h.runs hthread).symm, h.write, h.joins, h.idle, h.set, h.wanted, h.fated hthread false, ?_, ?_,
    h.valid⟩
  · exact fun hrun => (h.order hrun).trans hwritten.symm
  · exact h.answers.trans ⟨[], (List.append_nil _).trans hwritten.symm⟩

end PumpSound

section Steps
variable {nsig : ℤ} {room : ℕ} {s s' : Pump} {l : PumpLabel}

/-- What a step of the thread comes to. -/
inductive Pump.Moves (room : ℕ) (s : Pump) : PumpLabel → Pump → Prop
  | tests : s.thread = some .loops →
      s.Moves room .tests { s with thread := some (if s.stop then .returned else .waits) }
  | timesOut : s.thread = some .waits → s.ready = [] →
      s.Moves room .timesOut { s with thread := some .loops }
  | takes (signum : ℤ) : s.thread = some .waits → signum ∈ s.ready →
      s.Moves room (.takes signum) { s with
        pending := s.pending.erase signum, thread := some (.writes signum), taken := s.taken ++ [signum] }
  | writes (signum : ℤ) : s.thread = some (.writes signum) → s.pipe.length < room →
      s.Moves room .writes { s with
        pipe := s.pipe ++ [charOf signum], thread := some .loops, fates := s.fates ++ [(signum, true)] }
  | brokenOff (signum : ℤ) : s.thread = some (.writes signum) → room ≤ s.pipe.length →
      s.Moves room .brokenOff { s with thread := some .loops, fates := s.fates ++ [(signum, false)] }

/-- The labels of the thread. -/
def PumpLabel.isThread : PumpLabel → Bool
  | .tests => true
  | .timesOut => true
  | .takes _ => true
  | .writes => true
  | .brokenOff => true
  | .opens _ _ _ => false
  | .reads => false
  | .closes => false
  | .joined => false
  | .raises _ => false

/-- A step of the thread is one of its moves. -/
theorem Pump.moves_of_step (hl : l.isThread = true) (hs : s.step nsig room l = some s') :
    s.Moves room l s' := by
  cases l with
  | tests =>
    rw [Pump.step] at hs
    split at hs
    · next hthread =>
      rw [← Option.some.inj hs]
      exact .tests hthread
    · cases hs
  | timesOut =>
    rw [Pump.step] at hs
    split at hs
    · next hthread =>
      by_cases hready : s.ready = []
      · rw [if_pos hready] at hs
        rw [← Option.some.inj hs]
        exact .timesOut hthread hready
      · rw [if_neg hready] at hs
        cases hs
    · cases hs
  | takes signum =>
    rw [Pump.step] at hs
    split at hs
    · next hthread =>
      by_cases hready : signum ∈ s.ready
      · rw [if_pos hready] at hs
        rw [← Option.some.inj hs]
        exact .takes signum hthread hready
      · rw [if_neg hready] at hs
        cases hs
    · cases hs
  | writes =>
    rw [Pump.step] at hs
    split at hs
    · next signum hthread =>
      by_cases hroom : s.pipe.length < room
      · rw [if_pos hroom] at hs
        rw [← Option.some.inj hs]
        exact .writes signum hthread hroom
      · rw [if_neg hroom] at hs
        cases hs
    · cases hs
  | brokenOff =>
    rw [Pump.step] at hs
    split at hs
    · next signum hthread =>
      by_cases hroom : s.pipe.length < room
      · rw [if_pos hroom] at hs
        cases hs
      · rw [if_neg hroom] at hs
        rw [← Option.some.inj hs]
        exact .brokenOff signum hthread (Nat.le_of_not_lt hroom)
    · cases hs
  | opens signums pipe created => cases hl
  | reads => cases hl
  | closes => cases hl
  | joined => cases hl
  | raises signum => cases hl

/-- The thread leaves the state sound. -/
theorem PumpSound.moved (h : PumpSound s) (hm : s.Moves room l s') : PumpSound s' := by
  cases hm with
  | tests hthread =>
    apply h.moves hthread
    rw [Pump.inHand, Pump.inHand, hthread]
    cases s.stop with
    | true => rfl
    | false => rfl
  | timesOut hthread hready =>
    apply h.moves hthread
    rw [Pump.inHand, Pump.inHand, hthread]
  | takes signum hthread hready => exact h.takes hthread hready
  | writes signum hthread hroom => exact h.writes hthread
  | brokenOff signum hthread hroom => exact h.breaks hthread

theorem PumpSound.step (h : PumpSound s) (hnsig : nsig ≤ 256) (hs : s.step nsig room l = some s') :
    PumpSound s' := by
  cases l with
  | opens signums pipe created =>
    rw [Pump.step] at hs
    cases hjoins : s.joins with
    | true =>
      rw [hjoins, if_pos rfl] at hs
      cases hs
    | false =>
      rw [hjoins, if_neg Bool.false_ne_true] at hs
      rw [← Option.some.inj hs]
      exact h.opens hnsig signums pipe created hjoins
  | reads =>
    cases hpipe : s.pipe with
    | nil =>
      simp only [Pump.step, hpipe] at hs
      by_cases hwrite : s.write = true
      · rw [if_pos hwrite] at hs
        rw [← Option.some.inj hs]
        exact h
      · rw [if_neg hwrite] at hs
        cases hs
    | cons one rest =>
      simp only [Pump.step, hpipe] at hs
      rw [← Option.some.inj hs]
      exact h.reads hpipe
  | closes =>
    rw [Pump.step] at hs
    cases hjoins : s.joins with
    | true =>
      rw [hjoins, if_pos rfl] at hs
      cases hs
    | false =>
      rw [hjoins, if_neg Bool.false_ne_true] at hs
      rw [← Option.some.inj hs]
      exact h.closes
  | joined =>
    rw [Pump.step] at hs
    by_cases hdone : s.joins = true ∧ s.thread = some .returned
    · rw [if_pos hdone] at hs
      rw [← Option.some.inj hs]
      exact h.joined hdone.2
    · rw [if_neg hdone] at hs
      cases hs
  | raises signum =>
    rw [Pump.step] at hs
    rw [← Option.some.inj hs]
    exact ⟨h.thread, h.write, h.joins, h.idle, h.set, h.wanted, h.taken, h.order, h.answers, h.valid⟩
  | tests => exact h.moved (Pump.moves_of_step rfl hs)
  | timesOut => exact h.moved (Pump.moves_of_step rfl hs)
  | takes signum => exact h.moved (Pump.moves_of_step rfl hs)
  | writes => exact h.moved (Pump.moves_of_step rfl hs)
  | brokenOff => exact h.moved (Pump.moves_of_step rfl hs)

end Steps

section
variable {nsig : ℤ} {room : ℕ} {tr : List PumpLabel} {s : Pump}

theorem PumpSound.run (hnsig : nsig ≤ 256) (hr : Run (pumpMachine nsig room) (fun _ _ => True) {} tr s) :
    PumpSound s := by
  apply hr.invariant fun _ s => PumpSound s
  · exact PumpSound.start
  · exact fun _ _ _ _ _ h _ hs => h.step hnsig hs

/-- Every order of opens, reads, closes, signals and steps of the thread. -/
theorem pump_sound (hnsig : nsig ≤ 256) (hr : Run (pumpMachine nsig room) (fun _ _ => True) {} tr s) :
    PumpSound s :=
  PumpSound.run hnsig hr

/-- In a pipe of one byte a signal is written and read, and the write of the next two is broken off for one
of them. -/
theorem pump_sound_once : ∃ s : Pump, PumpSound s ∧ s.asked = [10, 12] ∧ s.taken = [10, 12, 10] ∧
    s.fates = [(10, true), (12, false), (10, true)] ∧ s.answered = [10, 10] ∧ s.running = false := by
  obtain ⟨tr, s, hr, hs⟩ := Run.of_exec (pumpMachine 65 1) (fun _ _ => True) {}
    (fun _ s => s.asked = [10, 12] ∧ s.taken = [10, 12, 10] ∧
      s.fates = [(10, true), (12, false), (10, true)] ∧ s.answered = [10, 10] ∧ s.running = false)
    [.opens (some [10, 12]) none true, .tests, .raises 10, .takes 10, .writes, .tests, .raises 12, .takes 12,
      .brokenOff, .reads, .tests, .raises 10, .takes 10, .writes, .tests, .timesOut, .reads, .closes,
      .tests, .joined] (by decide)
  exact ⟨s, pump_sound (by decide) hr, hs⟩

/-- The pipe is full, and the thread waits for room in it or has a signal to write next. -/
def Pump.Stuck (room : ℕ) (s : Pump) : Prop :=
  room ≤ s.pipe.length ∧
    ((∃ signum, s.thread = some (.writes signum)) ∨ s.thread = some .waits ∧ s.ready ≠ [])

/-- What the thread and pthread_join do by themselves; that a write is broken off is another's doing. -/
def PumpLabel.own (l : PumpLabel) : Prop := l = .joined ∨ l.isThread = true ∧ l ≠ .brokenOff

/-- The close is over. -/
def Pump.Closed (s : Pump) : Prop :=
  s.joins = false ∧ s.running = false ∧ s.thread = none ∧ s.pipe = []

/-- The close waits, and the thread is not stuck. -/
structure Pump.Stopping (room : ℕ) (s : Pump) : Prop where
  joins : s.joins = true
  stop : s.stop = true
  thread : s.thread.isSome = true
  free : ¬ s.Stuck room

/-- How many steps the thread is away from the end of the close, at most. -/
def PumpAt.ahead : PumpAt → ℕ
  | .returned => 1
  | .loops => 2
  | .writes _ => 3
  | .waits => 4

def Pump.ahead (s : Pump) : ℕ := s.thread.elim 0 PumpAt.ahead

namespace Pump
variable {s' : Pump} {l : PumpLabel}

theorem ahead_eq {place : PumpAt} (hthread : s.thread = some place) : s.ahead = place.ahead := by
  rw [ahead, hthread]
  rfl

/-- A thread that is not stuck has a step. -/
theorem Stopping.goes (h : s.Stopping room) : ∃ l s', l.own ∧ s.step nsig room l = some s' := by
  obtain ⟨place, hthread⟩ := Option.isSome_iff_exists.mp h.thread
  cases place with
  | returned =>
    have hs : s.step nsig room .joined = some s.joined := if_pos ⟨h.joins, hthread⟩
    exact ⟨.joined, s.joined, .inl rfl, hs⟩
  | loops =>
    refine ⟨.tests, { s with thread := some (if s.stop then .returned else .waits) }, .inr ⟨rfl, ?_⟩, ?_⟩
    · exact fun hl => by cases hl
    · rw [Pump.step, hthread]
  | waits =>
    cases hready : s.ready with
    | nil =>
      refine ⟨.timesOut, { s with thread := some .loops }, .inr ⟨rfl, fun hl => by cases hl⟩, ?_⟩
      rw [Pump.step, hthread]
      exact if_pos hready
    | cons signum rest =>
      have hmem : signum ∈ s.ready := by
        rw [hready]
        exact List.mem_cons_self
      refine ⟨.takes signum, { s with
        pending := s.pending.erase signum, thread := some (.writes signum), taken := s.taken ++ [signum] },
        .inr ⟨rfl, fun hl => by cases hl⟩, ?_⟩
      rw [Pump.step, hthread]
      exact if_pos hmem
  | writes signum =>
    have hroom : s.pipe.length < room := by
      apply Nat.lt_of_not_le
      exact fun hfull => h.free ⟨hfull, .inl ⟨signum, hthread⟩⟩
    refine ⟨.writes, { s with
      pipe := s.pipe ++ [charOf signum], thread := some .loops, fates := s.fates ++ [(signum, true)] },
      .inr ⟨rfl, fun hl => by cases hl⟩, ?_⟩
    rw [Pump.step, hthread]
    exact if_pos hroom

/-- Off its write and its wait the thread is not stuck. -/
theorem not_stuck (hwait : s.thread ≠ some .waits) (hwrite : ∀ signum, s.thread ≠ some (.writes signum)) :
    ¬ s.Stuck room := by
  rintro ⟨-, ⟨signum, hthread⟩ | ⟨hthread, -⟩⟩
  · exact hwrite signum hthread
  · exact hwait hthread

/-- Each of its steps brings it nearer to its return, and does not get it stuck. -/
theorem Stopping.moved (h : s.Stopping room) (hm : s.Moves room l s') (hl : l ≠ .brokenOff) :
    s'.Stopping room ∧ s'.ahead < s.ahead := by
  cases hm with
  | tests hthread =>
    have hplace : (if s.stop then PumpAt.returned else .waits) = .returned := if_pos h.stop
    rw [hplace]
    refine ⟨⟨h.joins, h.stop, rfl, ?_⟩, ?_⟩
    · exact not_stuck (fun hno => by cases hno) fun signum hno => by cases hno
    · rw [ahead_eq hthread]
      show 1 < 2
      decide
  | timesOut hthread hready =>
    refine ⟨⟨h.joins, h.stop, rfl, ?_⟩, ?_⟩
    · exact not_stuck (fun hno => by cases hno) fun signum hno => by cases hno
    · rw [ahead_eq hthread]
      show 2 < 4
      decide
  | takes signum hthread hready =>
    -- a full pipe and a signal that is ready are the thread's being stuck
    have hroom : ¬ room ≤ s.pipe.length := by
      intro hfull
      exact h.free ⟨hfull, .inr ⟨hthread, List.ne_nil_of_mem hready⟩⟩
    refine ⟨⟨h.joins, h.stop, rfl, fun hstuck => hroom hstuck.1⟩, ?_⟩
    rw [ahead_eq hthread]
    show 3 < 4
    decide
  | writes signum hthread hroom =>
    refine ⟨⟨h.joins, h.stop, rfl, ?_⟩, ?_⟩
    · exact not_stuck (fun hno => by cases hno) fun signum hno => by cases hno
    · rw [ahead_eq hthread]
      show 2 < 3
      decide
  | brokenOff signum hthread hfull => exact absurd rfl hl

/-- A close that waits comes to its end, in whatever order the thread's steps and its own are taken, unless
the thread is stuck. -/
theorem Stopping.ends (h : s.Stopping room) : Inevitable (pumpMachine nsig room) PumpLabel.own Closed s := by
  have hwaits : s.Closed ∨ s.Stopping room := .inr h
  refine Inevitable.of_measure (fun s => s.Closed ∨ s.Stopping room) ahead ?_ ?_ hwaits
  · intro s hs hopen
    exact (hs.resolve_left hopen).goes
  · intro s l s' hs hopen hown hstep
    have hstops := hs.resolve_left hopen
    rcases hown with rfl | ⟨hthread, hl⟩
    · have hjoined : (if s.joins = true ∧ s.thread = some .returned then some s.joined else none) = some s' :=
        hstep
      by_cases hdone : s.joins = true ∧ s.thread = some .returned
      · rw [if_pos hdone] at hjoined
        rw [← Option.some.inj hjoined]
        refine ⟨.inl ⟨rfl, rfl, rfl, rfl⟩, ?_⟩
        rw [ahead_eq hdone.2]
        show 0 < 1
        decide
      · rw [if_neg hdone] at hjoined
        cases hjoined
    · obtain ⟨hnext, hlt⟩ := hstops.moved (moves_of_step hthread hstep) hl
      exact ⟨.inr hnext, hlt⟩

/-- A signal more is a signal more that may be ready. -/
theorem ready_raises (hready : s.ready ≠ []) (signum : ℤ) :
    ({ s with
      pending := if signum ∈ s.pending then s.pending else s.pending ++ [signum] } : Pump).ready ≠ [] := by
  obtain ⟨sig, hsig⟩ := List.exists_mem_of_ne_nil _ hready
  apply List.ne_nil_of_mem (a := sig)
  rw [ready, List.mem_filter] at hsig ⊢
  refine ⟨?_, hsig.2⟩
  split
  · exact hsig.1
  · exact List.mem_append_left _ hsig.1

/-- Nothing but a read, or a write that is broken off, gets a stuck thread and its close any further. -/
theorem Stuck.stays (h : s.Stuck room) (hjoins : s.joins = true) (hl : l ≠ .reads ∧ l ≠ .brokenOff)
    (hs : s.step nsig room l = some s') : s'.joins = true ∧ s'.Stuck room := by
  obtain ⟨hfull, hplace⟩ := h
  have hthread (hm : s.Moves room l s') : s'.joins = true ∧ s'.Stuck room := by
    cases hm with
    | tests hloops =>
      rcases hplace with ⟨signum, hwrites⟩ | ⟨hwaits, -⟩
      · cases hloops.symm.trans hwrites
      · cases hloops.symm.trans hwaits
    | timesOut hwaits hready =>
      rcases hplace with ⟨signum, hwrites⟩ | ⟨-, hsome⟩
      · cases hwaits.symm.trans hwrites
      · exact absurd hready hsome
    | takes signum hwaits hready => exact ⟨hjoins, hfull, .inl ⟨signum, rfl⟩⟩
    | writes signum hwrites hroom => exact absurd hroom (Nat.not_lt.mpr hfull)
    | brokenOff signum hwrites hroom => exact absurd rfl hl.2
  cases l with
  | opens signums pipe created =>
    rw [Pump.step, hjoins, if_pos rfl] at hs
    cases hs
  | reads => exact absurd rfl hl.1
  | closes =>
    rw [Pump.step, hjoins, if_pos rfl] at hs
    cases hs
  | joined =>
    have hnot : ¬ (s.joins = true ∧ s.thread = some .returned) := by
      rintro ⟨-, hreturned⟩
      rcases hplace with ⟨signum, hwrites⟩ | ⟨hwaits, -⟩
      · cases hreturned.symm.trans hwrites
      · cases hreturned.symm.trans hwaits
    rw [Pump.step, if_neg hnot] at hs
    cases hs
  | raises sig =>
    rw [Pump.step] at hs
    rw [← Option.some.inj hs]
    refine ⟨hjoins, hfull, ?_⟩
    rcases hplace with hwrites | ⟨hwaits, hready⟩
    · exact .inl hwrites
    · exact .inr ⟨hwaits, ready_raises hready sig⟩
  | tests => exact hthread (moves_of_step rfl hs)
  | timesOut => exact hthread (moves_of_step rfl hs)
  | takes signum => exact hthread (moves_of_step rfl hs)
  | writes => exact hthread (moves_of_step rfl hs)
  | brokenOff => exact hthread (moves_of_step rfl hs)

end Pump

/-- When a close that waits ends: it does, in whatever order its steps and the thread's are taken, just if
the thread is not stuck; and where it is stuck it stays so in every run without a read. -/
structure CloseEnds (nsig : ℤ) (room : ℕ) (s : Pump) : Prop where
  free : ¬ s.Stuck room → Inevitable (pumpMachine nsig room) PumpLabel.own Pump.Closed s
  stuck : s.Stuck room →
    ∀ tr s', Run (pumpMachine nsig room) (fun _ l => l ≠ .reads ∧ l ≠ .brokenOff) s tr s' →
      s'.joins = true ∧ s'.Stuck room

theorem close_ends (hnsig : nsig ≤ 256) (hr : Run (pumpMachine nsig room) (fun _ _ => True) {} tr s)
    (hjoins : s.joins = true) : CloseEnds nsig room s := by
  constructor
  · intro hfree
    have hsound := PumpSound.run hnsig hr
    obtain ⟨hrun, hstop⟩ := hsound.joins hjoins
    exact Pump.Stopping.ends ⟨hjoins, hstop, hsound.thread.trans hrun, hfree⟩
  · intro hstuck tr' s' hr'
    apply hr'.invariant fun _ s => s.joins = true ∧ s.Stuck room
    · exact ⟨hjoins, hstuck⟩
    · exact fun _ _ _ _ _ h hl hs => h.2.stays h.1 hl hs

/-- A pipe that holds one byte and is full, with another signal pending: the close waits for the reader. -/
theorem close_ends_never : ∃ s : Pump, CloseEnds 65 1 s ∧ s.Stuck 1 := by
  obtain ⟨tr, s, hr, hjoins, hthread, hfull, hready⟩ := Run.of_exec (pumpMachine 65 1) (fun _ _ => True) {}
    (fun _ s => s.joins = true ∧ s.thread = some .waits ∧ 1 ≤ s.pipe.length ∧ s.ready ≠ [])
    [.opens (some [10, 12]) none true, .tests, .raises 10, .takes 10, .writes, .tests, .raises 12,
      .closes] (by decide)
  exact ⟨s, close_ends (by decide) hr hjoins, hfull, .inr ⟨hthread, hready⟩⟩

end

end SlipstreamIO.Signal
