import SlipstreamIO.Inevitable
import Mathlib

/-! Closing a ring of the dispatch backend: `dsp_close_ring` against the handlers that GCD still runs, at the
grain of the lock and of the two semaphores. -/
namespace SlipstreamIO.Engine

open Runs

/-- What GCD runs for a ring: the two handlers of a source, the last one of a channel, which all run on the
serial queue, and a blocking op on a global queue. -/
inductive GcdHandler where
  | report (src : ℕ)
  | cancel (src : ℕ)
  | channel (op : ℕ)
  | pool (op : ℕ)
  deriving DecidableEq

/-- How a handler gets at the state of its ring: the locked parts of `dsp_report`, `dsp_done` and the cancel
handler, and the signals of the two semaphores. -/
inductive DspAccess where
  | report
  | done
  | cancel
  | signalSem
  | signalGate
  deriving DecidableEq

def DspAccess.signals (a : DspAccess) : Prop := a = .signalSem ∨ a = .signalGate

/-- Where the thread of the ring is: outside `dsp_close_ring`, at its loop over `fds[]`, in front of the lock
of its second loop, at the gate, in front of the barrier, and behind the frees. -/
inductive ClosePc where
  | inUse
  | stopping
  | looking
  | atGate
  | syncing
  | freed
  deriving DecidableEq

/-- The part of `dsp_state` that closing is about. Sources in `fds[]`, sources cancelled whose cancel handler
has not begun, and ops out on a queue are numbered in the order they are made; a handler that has begun stands
with the accesses it still has to make. -/
structure DspClosing where
  made : ℕ := 0
  sources : List ℕ := []
  cancelled : List ℕ := []
  channels : List ℕ := []
  pooled : List ℕ := []
  serial : Option (GcdHandler × List DspAccess) := none
  atPool : List (ℕ × List DspAccess) := []
  live : ℕ := 0
  knocked : Bool := false
  sem : ℕ := 0
  gate : ℕ := 0
  pc : ClosePc := .inUse
  deriving DecidableEq

/-- The first group is the ring's thread (`pokes` any thread that has the ring), the second one GCD. -/
inductive DspCloseLabel where
  | starts
  | stops (src : ℕ)
  | submits (channel : Bool)
  | pokes
  | collects (left : Bool)
  | closes
  | stopped
  | looks
  | wakes
  | syncs
  | reports (src : ℕ)
  | ends (src : ℕ)
  | channelEnds (op : ℕ)
  | poolEnds (op : ℕ)
  | serialGoes
  | poolGoes (op : ℕ) (todo : List DspAccess)
  deriving DecidableEq

inductive DspCloseEvent where
  | touches (h : GcdHandler) (a : DspAccess)
  | frees
  deriving DecidableEq

/-- A handler with nothing left to do is gone. -/
def carry {α : Type*} (h : α) (todo : List DspAccess) : Option (α × List DspAccess) :=
  if todo = [] then none else some (h, todo)

namespace DspClosing

/-- `dsp_knock_locked`, and the signal its caller owes. -/
def knock (s : DspClosing) : DspClosing × List DspAccess :=
  if s.knocked then (s, []) else ({ s with knocked := true }, [.signalSem])

/-- One access, and those it puts in front of the ones that are left. -/
def touch (s : DspClosing) : DspAccess → DspClosing × List DspAccess
  | .report => s.knock
  | .done =>
    let p := { s with live := s.live - 1 }.knock
    (p.1, p.2 ++ [.signalGate])
  | .cancel => ({ s with live := s.live - 1 }, [.signalGate])
  | .signalSem => ({ s with sem := s.sem + 1 }, [])
  | .signalGate => ({ s with gate := s.gate + 1 }, [])

def step (s : DspClosing) : DspCloseLabel → Option DspClosing
  | .starts =>
    if s.pc = .inUse then
      some { s with made := s.made + 1, sources := s.made :: s.sources, live := s.live + 1 }
    else none
  | .stops src =>
    if src ∈ s.sources ∧ (s.pc = .inUse ∨ s.pc = .stopping) then
      some { s with sources := s.sources.erase src, cancelled := src :: s.cancelled }
    else none
  | .submits channel =>
    if s.pc = .inUse then
      let s := { s with live := s.live + 1 }
      if channel then some { s with made := s.made + 1, channels := s.made :: s.channels }
      else some { s with made := s.made + 1, pooled := s.made :: s.pooled }
    else none
  | .pokes =>
    if s.pc = .inUse then
      let p := s.knock
      some { p.1 with sem := p.1.sem + p.2.length }
    else none
  | .collects left =>
    -- A wait whose token is there; what is left keeps the door's knock and gets a new token.
    if s.pc = .inUse ∧ 0 < s.sem then
      some (if left then s else { s with sem := s.sem - 1, knocked := false })
    else none
  | .closes => if s.pc = .inUse then some { s with pc := .stopping } else none
  | .stopped => if s.pc = .stopping ∧ s.sources = [] then some { s with pc := .looking } else none
  | .looks =>
    if s.pc = .looking then some { s with pc := if s.live = 0 then .syncing else .atGate } else none
  | .wakes => if s.pc = .atGate ∧ 0 < s.gate then some { s with gate := s.gate - 1, pc := .looking } else none
  | .syncs =>
    -- The barrier runs behind what the serial queue has; nothing waits for the global queue here.
    if s.pc = .syncing ∧ s.serial = none then some { s with pc := .freed } else none
  | .reports src =>
    -- GCD invokes no event handler of a source that is cancelled.
    if src ∈ s.sources ∧ s.serial = none then some { s with serial := some (.report src, [.report]) } else none
  | .ends src =>
    if src ∈ s.cancelled ∧ s.serial = none then
      some { s with cancelled := s.cancelled.erase src, serial := some (.cancel src, [.cancel]) }
    else none
  | .channelEnds op =>
    if op ∈ s.channels ∧ s.serial = none then
      some { s with channels := s.channels.erase op, serial := some (.channel op, [.done]) }
    else none
  | .poolEnds op =>
    if op ∈ s.pooled then some { s with pooled := s.pooled.erase op, atPool := (op, [.done]) :: s.atPool }
    else none
  | .serialGoes =>
    match s.serial with
    | some (h, a :: todo) =>
      let p := s.touch a
      some { p.1 with serial := carry h (p.2 ++ todo) }
    | _ => none
  | .poolGoes op todo =>
    if (op, todo) ∈ s.atPool then
      match todo with
      | a :: rest =>
        let p := s.touch a
        some { p.1 with atPool := (carry op (p.2 ++ rest)).toList ++ s.atPool.erase (op, todo) }
      | [] => none
    else none

/-- The access a step makes. -/
def reaches (s : DspClosing) : DspCloseLabel → Option (GcdHandler × DspAccess)
  | .serialGoes => s.serial.bind fun e => e.2.head?.map (e.1, ·)
  | .poolGoes op todo => todo.head?.map (.pool op, ·)
  | _ => none

def events (s : DspClosing) (l : DspCloseLabel) : List DspCloseEvent :=
  match s.reaches l, l with
  | some e, _ => [.touches e.1 e.2]
  | none, .syncs => [.frees]
  | none, _ => []

end DspClosing

def dspCloseMachine : Machine DspClosing DspCloseLabel DspCloseEvent := ⟨DspClosing.step, DspClosing.events⟩

/-- Late accesses: the state is freed once, and whatever comes to it behind that is a signal of a blocking op
of the global queue that has counted itself out. -/
def Late (pre : List DspCloseEvent) : DspCloseEvent → Prop
  | .frees => .frees ∉ pre
  | .touches h a => .frees ∈ pre →
      (∃ op, h = .pool op) ∧ a.signals ∧ .touches h .done ∈ pre

/-- What the parts of the state count: a source, a cancelled one, an op on either kind of queue, and each
access that a handler has still to make. -/
structure Weights where
  source : ℕ
  cancelled : ℕ
  channel : ℕ
  pool : ℕ
  access : DspAccess → ℕ

namespace Weights

def todo (w : Weights) (todo : List DspAccess) : ℕ := (todo.map w.access).sum

/-- What a step takes from the sum of the weights, and what it adds to it. -/
def paid (w : Weights) (s : DspClosing) : DspCloseLabel → ℕ
  | .stops _ => w.source
  | .ends _ => w.cancelled
  | .channelEnds _ => w.channel
  | .poolEnds _ => w.pool
  | l => ((s.reaches l).map fun e => w.access e.2).getD 0

def gained (w : Weights) (s : DspClosing) : DspCloseLabel → ℕ
  | .starts => w.source
  | .stops _ => w.cancelled
  | .submits channel => if channel then w.channel else w.pool
  | .reports _ => w.access .report
  | .ends _ => w.access .cancel
  | .channelEnds _ => w.access .done
  | .poolEnds _ => w.access .done
  | l => ((s.reaches l).map fun e => w.todo (s.touch e.2).2).getD 0

end Weights

namespace DspClosing

def weigh (w : Weights) (s : DspClosing) : ℕ :=
  w.source * s.sources.length + w.cancelled * s.cancelled.length + w.channel * s.channels.length +
    w.pool * s.pooled.length + ((s.serial.map fun e => w.todo e.2).getD 0) +
    (s.atPool.map fun e => w.todo e.2).sum

end DspClosing

section
variable {w : Weights} {s s' : DspClosing} {l : DspCloseLabel} {a : DspAccess} {todo todo' : List DspAccess}

@[simp] theorem todo_nil : w.todo [] = 0 := rfl

@[simp] theorem todo_cons : w.todo (a :: todo) = w.access a + w.todo todo := by simp [Weights.todo]

@[simp] theorem todo_append : w.todo (todo ++ todo') = w.todo todo + w.todo todo' := by simp [Weights.todo]

@[simp] theorem carry_todo {α : Type*} (h : α) :
    ((carry h todo).map fun e => w.todo e.2).getD 0 = w.todo todo := by
  by_cases hnil : todo = []
  · simp [carry, hnil]
  · simp [carry, hnil]

theorem carry_sum (op : ℕ) (l : List (ℕ × List DspAccess)) :
    (((carry op todo).toList ++ l).map fun e => w.todo e.2).sum =
      w.todo todo + (l.map fun e => w.todo e.2).sum := by
  by_cases hnil : todo = []
  · simp [carry, hnil]
  · simp [carry, hnil]

theorem mul_length_erase {n x : ℕ} {xs : List ℕ} (hx : x ∈ xs) :
    n * (xs.erase x).length + n = n * xs.length := by
  rw [← List.length_erase_add_one hx, Nat.mul_succ]

/-- An access that counts its handler out. -/
def DspAccess.drops : DspAccess → ℕ
  | .done | .cancel => 1
  | _ => 0

def DspAccess.rings : DspAccess → ℕ
  | .signalGate => 1
  | _ => 0

theorem touch_eq (s : DspClosing) (a : DspAccess) : ∃ knocked sem,
    (s.touch a).1 =
      { s with live := s.live - a.drops, gate := s.gate + a.rings, knocked := knocked, sem := sem } := by
  cases a with
  | report | done =>
    simp only [DspClosing.touch, DspClosing.knock]
    split
    · exact ⟨_, _, rfl⟩
    · exact ⟨_, _, rfl⟩
  | cancel | signalSem | signalGate => exact ⟨_, _, rfl⟩

theorem knock_eq (s : DspClosing) : ∃ knocked, s.knock.1 = { s with knocked := knocked } := by
  unfold DspClosing.knock
  split
  · exact ⟨_, rfl⟩
  · exact ⟨_, rfl⟩

/-- What a step can be, with what it was taken on; the token and the knock of the wait's door are left
open. -/
inductive DspClosing.Steps (s : DspClosing) : DspCloseLabel → DspClosing → Prop
  | starts : s.pc = .inUse →
      Steps s .starts { s with made := s.made + 1, sources := s.made :: s.sources, live := s.live + 1 }
  | stops {src : ℕ} : src ∈ s.sources →
      Steps s (.stops src) { s with sources := s.sources.erase src, cancelled := src :: s.cancelled }
  | submitsChannel : s.pc = .inUse →
      Steps s (.submits true)
        { s with made := s.made + 1, channels := s.made :: s.channels, live := s.live + 1 }
  | submitsPool : s.pc = .inUse →
      Steps s (.submits false) { s with made := s.made + 1, pooled := s.made :: s.pooled, live := s.live + 1 }
  | pokes {knocked : Bool} {sem : ℕ} : s.pc = .inUse → Steps s .pokes { s with knocked := knocked, sem := sem }
  | collects {left knocked : Bool} {sem : ℕ} : s.pc = .inUse →
      Steps s (.collects left) { s with knocked := knocked, sem := sem }
  | closes : s.pc = .inUse → Steps s .closes { s with pc := .stopping }
  | stopped : s.pc = .stopping → s.sources = [] → Steps s .stopped { s with pc := .looking }
  | looks : s.pc = .looking → Steps s .looks { s with pc := if s.live = 0 then .syncing else .atGate }
  | wakes : s.pc = .atGate → 0 < s.gate → Steps s .wakes { s with gate := s.gate - 1, pc := .looking }
  | syncs : s.pc = .syncing → s.serial = none → Steps s .syncs { s with pc := .freed }
  | reports {src : ℕ} : src ∈ s.sources → s.serial = none →
      Steps s (.reports src) { s with serial := some (.report src, [.report]) }
  | ends {src : ℕ} : src ∈ s.cancelled → s.serial = none →
      Steps s (.ends src)
        { s with cancelled := s.cancelled.erase src, serial := some (.cancel src, [.cancel]) }
  | channelEnds {op : ℕ} : op ∈ s.channels → s.serial = none →
      Steps s (.channelEnds op)
        { s with channels := s.channels.erase op, serial := some (.channel op, [.done]) }
  | poolEnds {op : ℕ} : op ∈ s.pooled →
      Steps s (.poolEnds op) { s with pooled := s.pooled.erase op, atPool := (op, [.done]) :: s.atPool }
  | serialGoes {h : GcdHandler} {a : DspAccess} {todo : List DspAccess} {knocked : Bool} {sem : ℕ} :
      s.serial = some (h, a :: todo) →
      Steps s .serialGoes { s with
        live := s.live - a.drops, gate := s.gate + a.rings, knocked := knocked, sem := sem
        serial := carry h ((s.touch a).2 ++ todo) }
  | poolGoes {op : ℕ} {a : DspAccess} {todo : List DspAccess} {knocked : Bool} {sem : ℕ} :
      (op, a :: todo) ∈ s.atPool →
      Steps s (.poolGoes op (a :: todo)) { s with
        live := s.live - a.drops, gate := s.gate + a.rings, knocked := knocked, sem := sem
        atPool := (carry op ((s.touch a).2 ++ todo)).toList ++ s.atPool.erase (op, a :: todo) }

theorem steps_of_step (hs : s.step l = some s') : s.Steps l s' := by
  cases l with
  | starts | closes | looks | poolEnds =>
    simp only [DspClosing.step, Option.ite_none_right_eq_some, Option.some.injEq] at hs
    obtain ⟨hc, rfl⟩ := hs
    constructor
    exact hc
  | stops src =>
    simp only [DspClosing.step, Option.ite_none_right_eq_some, Option.some.injEq] at hs
    obtain ⟨⟨hmem, -⟩, rfl⟩ := hs
    exact .stops hmem
  | stopped | wakes | syncs | reports | ends | channelEnds =>
    simp only [DspClosing.step, Option.ite_none_right_eq_some, Option.some.injEq] at hs
    obtain ⟨⟨hc, hc'⟩, rfl⟩ := hs
    constructor
    · exact hc
    · exact hc'
  | submits channel =>
    simp only [DspClosing.step, Option.ite_none_right_eq_some] at hs
    obtain ⟨hpc, hs⟩ := hs
    cases channel with
    | true =>
      cases hs
      exact .submitsChannel hpc
    | false =>
      cases hs
      exact .submitsPool hpc
  | pokes =>
    simp only [DspClosing.step, Option.ite_none_right_eq_some, Option.some.injEq] at hs
    obtain ⟨hpc, rfl⟩ := hs
    obtain ⟨knocked, heq⟩ := knock_eq s
    rw [heq]
    exact .pokes hpc
  | collects left =>
    simp only [DspClosing.step, Option.ite_none_right_eq_some, Option.some.injEq] at hs
    obtain ⟨⟨hpc, -⟩, rfl⟩ := hs
    cases left with
    | true =>
      show s.Steps _ { s with knocked := s.knocked, sem := s.sem }
      exact .collects hpc
    | false => exact .collects hpc
  | serialGoes =>
    simp only [DspClosing.step] at hs
    split at hs
    next h a todo hserial =>
      cases hs
      obtain ⟨knocked, sem, heq⟩ := touch_eq s a
      rw [heq]
      exact .serialGoes hserial
    next => cases hs
  | poolGoes op todo =>
    simp only [DspClosing.step, Option.ite_none_right_eq_some] at hs
    obtain ⟨hmem, hs⟩ := hs
    cases todo with
    | nil => cases hs
    | cons a rest =>
      cases hs
      obtain ⟨knocked, sem, heq⟩ := touch_eq s a
      rw [heq]
      exact .poolGoes hmem

/-- The sum of the weights behind a step. -/
theorem weigh_step (w : Weights) (hs : s.step l = some s') :
    s'.weigh w + w.paid s l = s.weigh w + w.gained s l := by
  cases steps_of_step hs with
  | starts | submitsChannel | submitsPool =>
    simp [DspClosing.weigh, Weights.paid, Weights.gained, DspClosing.reaches, Nat.mul_succ]
    omega
  | pokes | collects | closes | stopped | looks | wakes | syncs =>
    simp [DspClosing.weigh, Weights.paid, Weights.gained, DspClosing.reaches]
  | stops hmem =>
    have hlen := mul_length_erase (n := w.source) hmem
    simp only [DspClosing.weigh, Weights.paid, Weights.gained, List.length_cons, Nat.mul_succ]
    omega
  | reports hmem hserial =>
    simp [DspClosing.weigh, Weights.paid, Weights.gained, DspClosing.reaches, hserial]
    omega
  | ends hmem hserial =>
    have hlen := mul_length_erase (n := w.cancelled) hmem
    simp [DspClosing.weigh, Weights.paid, Weights.gained, hserial]
    omega
  | channelEnds hmem hserial =>
    have hlen := mul_length_erase (n := w.channel) hmem
    simp [DspClosing.weigh, Weights.paid, Weights.gained, hserial]
    omega
  | poolEnds hmem =>
    have hlen := mul_length_erase (n := w.pool) hmem
    simp [DspClosing.weigh, Weights.paid, Weights.gained]
    omega
  | serialGoes hserial =>
    simp [DspClosing.weigh, Weights.paid, Weights.gained, DspClosing.reaches, hserial]
    omega
  | poolGoes hmem =>
    have herase := ((List.perm_cons_erase hmem).map fun e => w.todo e.2).sum_eq
    simp only [List.map_cons, List.sum_cons, todo_cons] at herase
    simp only [DspClosing.weigh, Weights.paid, Weights.gained, DspClosing.reaches, carry_sum, todo_append,
      List.head?_cons, Option.map_some, Option.getD_some]
    omega

/-- A source or an op more that `live` counts. -/
def DspCloseLabel.makes : DspCloseLabel → ℕ
  | .starts | .submits _ => 1
  | _ => 0

/-- What the access of a step is worth. -/
def DspClosing.reached (s : DspClosing) (l : DspCloseLabel) (f : DspAccess → ℕ) : ℕ :=
  ((s.reaches l).map fun e => f e.2).getD 0

theorem counters_step (hs : s.step l = some s') :
    s'.live = s.live + l.makes - s.reached l DspAccess.drops ∧
      s'.gate + (if l = .wakes then 1 else 0) = s.gate + s.reached l DspAccess.rings := by
  cases steps_of_step hs with
  | wakes hpc hgate => exact ⟨rfl, Nat.sub_add_cancel hgate⟩
  | serialGoes hserial => simp [DspClosing.reached, DspClosing.reaches, DspCloseLabel.makes, hserial]
  | poolGoes => simp [DspClosing.reached, DspClosing.reaches, DspCloseLabel.makes]
  | _ => exact ⟨rfl, rfl⟩

/-- What `live` counts. -/
def liveWeights : Weights := ⟨1, 1, 1, 1, DspAccess.drops⟩

/-- The signals that the gate will still get. -/
def gateWeights : Weights := ⟨1, 1, 1, 1, fun a => a.drops + a.rings⟩

def DspAccess.cost : DspAccess → ℕ
  | .report => 2
  | .done => 5
  | .cancel => 4
  | .signalSem => 1
  | .signalGate => 3

/-- A bound on the steps that are left, two of which the gate gets with each signal. -/
def costWeights : Weights := ⟨6, 5, 6, 6, DspAccess.cost⟩

@[simp] theorem live_touch (s : DspClosing) (a : DspAccess) : liveWeights.todo (s.touch a).2 = 0 := by
  cases a with
  | report | done =>
    simp only [DspClosing.touch, DspClosing.knock]
    split
    · rfl
    · rfl
  | cancel | signalSem | signalGate => rfl

@[simp] theorem gate_touch (s : DspClosing) (a : DspAccess) : gateWeights.todo (s.touch a).2 = a.drops := by
  cases a with
  | report | done =>
    simp only [DspClosing.touch, DspClosing.knock]
    split
    · rfl
    · rfl
  | cancel | signalSem | signalGate => rfl

theorem cost_touch (s : DspClosing) (a : DspAccess) :
    costWeights.todo (s.touch a).2 + 2 * a.rings < a.cost := by
  cases a with
  | report | done =>
    simp only [DspClosing.touch, DspClosing.knock]
    split
    · simp [Weights.todo, costWeights, DspAccess.cost, DspAccess.rings]
    · simp [Weights.todo, costWeights, DspAccess.cost, DspAccess.rings]
  | cancel | signalSem | signalGate =>
    simp [DspClosing.touch, Weights.todo, costWeights, DspAccess.cost, DspAccess.rings]

theorem live_balance (s : DspClosing) (l : DspCloseLabel) :
    liveWeights.gained s l + s.reached l DspAccess.drops = liveWeights.paid s l + l.makes := by
  cases l with
  | serialGoes | poolGoes =>
    simp only [Weights.gained, Weights.paid, DspClosing.reached, DspCloseLabel.makes]
    cases s.reaches _ with
    | none => rfl
    | some e =>
      show liveWeights.todo (s.touch e.2).2 + e.2.drops = e.2.drops + 0
      rw [live_touch, Nat.zero_add, Nat.add_zero]
  | submits channel =>
    cases channel with
    | true | false => rfl
  | _ => rfl

theorem gate_balance (s : DspClosing) (l : DspCloseLabel) :
    gateWeights.gained s l + s.reached l DspAccess.rings = gateWeights.paid s l + l.makes := by
  cases l with
  | serialGoes | poolGoes =>
    simp only [Weights.gained, Weights.paid, DspClosing.reached, DspCloseLabel.makes]
    cases s.reaches _ with
    | none => rfl
    | some e =>
      show gateWeights.todo (s.touch e.2).2 + e.2.rings = e.2.drops + e.2.rings + 0
      rw [gate_touch, Nat.add_zero]
  | submits channel =>
    cases channel with
    | true | false => rfl
  | _ => rfl

/-- The access that a handler begins with. -/
def GcdHandler.first : GcdHandler → DspAccess
  | .report _ => .report
  | .cancel _ => .cancel
  | .channel _ | .pool _ => .done

theorem touch_signals {b : DspAccess} (h : b ∈ (s.touch a).2) : b.signals := by
  cases a with
  | report =>
    simp only [DspClosing.touch, DspClosing.knock] at h
    split at h
    · exact absurd h List.not_mem_nil
    · exact .inl (List.mem_singleton.mp h)
  | done =>
    rcases List.mem_append.mp h with h | h
    · simp only [DspClosing.knock] at h
      split at h
      · exact absurd h List.not_mem_nil
      · exact .inl (List.mem_singleton.mp h)
    · exact .inr (List.mem_singleton.mp h)
  | cancel => exact .inr (List.mem_singleton.mp h)
  | signalSem | signalGate => exact absurd h List.not_mem_nil

namespace DspClosing

/-- The handlers that have begun, with what they have left to do. -/
def begun (s : DspClosing) : List (GcdHandler × List DspAccess) :=
  s.serial.toList ++ s.atPool.map fun e => (.pool e.1, e.2)

end DspClosing

theorem carry_eq_some {α : Type*} {h : α} {e : α × List DspAccess} :
    carry h todo = some e ↔ e = (h, todo) ∧ todo ≠ [] := by
  by_cases hnil : todo = []
  · simp [carry, hnil]
  · simp [carry, hnil, eq_comm]

/-- The three ways of standing among the handlers that have begun, behind a step. -/
inductive StandsBegun (s : DspClosing) (l : DspCloseLabel) (e : GcdHandler × List DspAccess) : Prop
  | stays : e ∈ s.begun → StandsBegun s l e
  | fresh : e.2 = [e.1.first] → StandsBegun s l e
  | goes {a : DspAccess} {todo : List DspAccess} : (e.1, a :: todo) ∈ s.begun → s.reaches l = some (e.1, a) →
      e.2 = (s.touch a).2 ++ todo → e.2 ≠ [] → StandsBegun s l e

theorem begun_step (hs : s.step l = some s') {e : GcdHandler × List DspAccess} (he : e ∈ s'.begun) :
    StandsBegun s l e := by
  cases steps_of_step hs with
  | reports | ends | channelEnds =>
    rcases List.mem_append.mp he with he | he
    · cases Option.mem_toList.mp he
      exact .fresh rfl
    · exact .stays (List.mem_append_right _ he)
  | poolEnds =>
    rcases List.mem_append.mp he with he | he
    · exact .stays (List.mem_append_left _ he)
    · rcases List.mem_cons.mp he with rfl | he
      · exact .fresh rfl
      · exact .stays (List.mem_append_right _ he)
  | serialGoes hserial =>
    rcases List.mem_append.mp he with he | he
    · obtain ⟨rfl, hne⟩ := carry_eq_some.mp (Option.mem_toList.mp he)
      apply StandsBegun.goes (List.mem_append_left _ (Option.mem_toList.mpr hserial)) _ rfl hne
      rw [DspClosing.reaches, hserial]
      rfl
    · exact .stays (List.mem_append_right _ he)
  | poolGoes hmem =>
    rcases List.mem_append.mp he with he | he
    · exact .stays (List.mem_append_left _ he)
    · obtain ⟨x, hx, rfl⟩ := List.mem_map.mp he
      rcases List.mem_append.mp hx with hx | hx
      · obtain ⟨rfl, hne⟩ := carry_eq_some.mp (Option.mem_toList.mp hx)
        exact .goes (List.mem_append_right _ (List.mem_map_of_mem hmem)) rfl rfl hne
      · exact .stays (List.mem_append_right _ (List.mem_map_of_mem (List.mem_of_mem_erase hx)))
  | _ => exact .stays he

/-- The access a step makes is the first one that its handler has left. -/
theorem reaches_begun (hs : s.step l = some s') {h : GcdHandler} (hl : s.reaches l = some (h, a)) :
    ∃ todo, (h, a :: todo) ∈ s.begun := by
  cases steps_of_step hs with
  | serialGoes hserial =>
    simp only [DspClosing.reaches, hserial, Option.bind_some, List.head?_cons, Option.map_some,
      Option.some.injEq, Prod.mk.injEq] at hl
    obtain ⟨rfl, rfl⟩ := hl
    exact ⟨_, List.mem_append_left _ (Option.mem_toList.mpr hserial)⟩
  | poolGoes hmem =>
    cases hl
    exact ⟨_, List.mem_append_right _ (List.mem_map_of_mem hmem)⟩
  | _ => cases hl

/-- The labels that are steps of `dsp_close_ring` past its first loop, and its call. -/
def DspCloseLabel.turns : DspCloseLabel → Bool
  | .closes | .stopped | .looks | .wakes | .syncs => true
  | _ => false

/-- How the thread moves on, and what it has seen when it does. -/
inductive Moves (s s' : DspClosing) : DspCloseLabel → Prop
  | stands {l : DspCloseLabel} : s'.pc = s.pc → l.turns = false → Moves s s' l
  | closes : s.pc = .inUse → s'.pc = .stopping → Moves s s' .closes
  | stopped : s.pc = .stopping → s'.pc = .looking → s.sources = [] → Moves s s' .stopped
  | looks : s.pc = .looking → s'.pc = (if s.live = 0 then .syncing else .atGate) → Moves s s' .looks
  | wakes : s.pc = .atGate → s'.pc = .looking → Moves s s' .wakes
  | syncs : s.pc = .syncing → s'.pc = .freed → s'.serial = none → Moves s s' .syncs

theorem pc_step (hs : s.step l = some s') : Moves s s' l := by
  cases steps_of_step hs with
  | closes hpc => exact .closes hpc rfl
  | stopped hpc hnil => exact .stopped hpc rfl hnil
  | looks hpc => exact .looks hpc rfl
  | wakes hpc => exact .wakes hpc rfl
  | syncs hpc hserial => exact .syncs hpc rfl hserial
  | _ => exact .stands rfl rfl

/-- The labels of the thread that has the ring. -/
def DspCloseLabel.ofUse : DspCloseLabel → Bool
  | .starts | .submits _ | .pokes | .collects _ | .closes => true
  | _ => false

/-- A ring that is being closed gets no new source and no new op. -/
theorem closing_step (hs : s.step l = some s') (hpc : s.pc ≠ .inUse) : l.ofUse = false := by
  cases steps_of_step hs with
  | starts huse | submitsChannel huse | submitsPool huse | pokes huse | collects huse | closes huse =>
    exact absurd huse hpc
  | _ => rfl

/-- With every source stopped none comes back, and nothing begins on the serial queue but cancel handlers and
channels. -/
theorem stopped_step (hs : s.step l = some s') (hl : l.ofUse = false) (hnil : s.sources = []) :
    s'.sources = [] ∧ (s.serial = none → s.cancelled = [] → s.channels = [] → s'.serial = none) := by
  cases steps_of_step hs with
  | starts => cases hl
  | stops hmem | reports hmem => exact absurd (hnil ▸ hmem) List.not_mem_nil
  | ends hmem => exact ⟨hnil, fun _ hcancelled _ => absurd (hcancelled ▸ hmem) List.not_mem_nil⟩
  | channelEnds hmem => exact ⟨hnil, fun _ _ hchannels => absurd (hchannels ▸ hmem) List.not_mem_nil⟩
  | serialGoes hserial =>
    exact ⟨hnil, fun hnone => absurd (hnone.symm.trans hserial) (Option.some_ne_none _).symm⟩
  | _ => exact ⟨hnil, fun hserial _ _ => hserial⟩

end

/-- A handler that has begun: it stands in front of its first access, or it has made that and has signals
left. -/
def Begun (tr : List DspCloseEvent) (h : GcdHandler) (todo : List DspAccess) : Prop :=
  todo = [h.first] ∨ todo ≠ [] ∧ (∀ a ∈ todo, a.signals) ∧ .touches h h.first ∈ tr

/-- The invariant of a ring of the dispatch backend. Where the thread is behind its second loop `live` is
zero, and where it waits at the gate a signal is there or somebody has one to give. -/
structure CloseSound (tr : List DspCloseEvent) (s : DspClosing) : Prop where
  counts : s.live = s.weigh liveWeights
  begun : ∀ e ∈ s.begun, Begun tr e.1 e.2
  stopped : s.pc ≠ .inUse → s.pc ≠ .stopping → s.sources = []
  quiet : s.pc = .syncing ∨ s.pc = .freed → s.live = 0
  barrier : s.pc = .freed → s.serial = none
  door : s.pc = .atGate → 0 < s.gate + s.weigh gateWeights
  frees : .frees ∈ tr ↔ s.pc = .freed
  late : AtEach Late tr

section
variable {tr ev : List DspCloseEvent} {s s' : DspClosing} {l : DspCloseLabel} {h : GcdHandler} {a : DspAccess}
  {todo : List DspAccess}

theorem Begun.mono (hb : Begun tr h todo) : Begun (tr ++ ev) h todo :=
  hb.imp_right fun ⟨hne, hsig, hmem⟩ => ⟨hne, hsig, List.mem_append_left _ hmem⟩

theorem weigh_mono {w w' : Weights} (hsource : w.source ≤ w'.source) (hcancelled : w.cancelled ≤ w'.cancelled)
    (hchannel : w.channel ≤ w'.channel) (hpool : w.pool ≤ w'.pool) (haccess : ∀ a, w.access a ≤ w'.access a) :
    s.weigh w ≤ s.weigh w' := by
  have htodo : ∀ todo, w.todo todo ≤ w'.todo todo := fun todo => List.sum_le_sum fun a _ => haccess a
  have hserial : (s.serial.map fun e => w.todo e.2).getD 0 ≤ (s.serial.map fun e => w'.todo e.2).getD 0 := by
    cases s.serial with
    | none => exact Nat.le_refl 0
    | some e => exact htodo e.2
  have hatPool : (s.atPool.map fun e => w.todo e.2).sum ≤ (s.atPool.map fun e => w'.todo e.2).sum :=
    List.sum_le_sum fun e _ => htodo e.2
  unfold DspClosing.weigh
  gcongr

theorem todo_zero {w : Weights} (h : w.todo todo = 0) (ha : a ∈ todo) : w.access a = 0 := by
  apply Nat.le_zero.mp
  rw [← h]
  exact List.le_sum_of_mem (List.mem_map_of_mem ha)

/-- Where nothing is live there are signals at most. -/
theorem live_zero (hz : s.weigh liveWeights = 0) : s.sources = [] ∧ s.cancelled = [] ∧ s.channels = [] ∧
    s.pooled = [] ∧ ∀ e ∈ s.begun, ∀ a ∈ e.2, a.drops = 0 := by
  simp only [DspClosing.weigh, liveWeights, Nat.one_mul, Nat.add_eq_zero_iff, List.length_eq_zero_iff] at hz
  obtain ⟨⟨⟨⟨⟨hsources, hcancelled⟩, hchannels⟩, hpooled⟩, hserial⟩, hatPool⟩ := hz
  refine ⟨hsources, hcancelled, hchannels, hpooled, fun e he a ha => ?_⟩
  rcases List.mem_append.mp he with he | he
  · rw [Option.mem_toList.mp he] at hserial
    exact todo_zero (w := liveWeights) hserial ha
  · obtain ⟨x, hx, rfl⟩ := List.mem_map.mp he
    apply todo_zero (w := liveWeights) _ ha
    apply Nat.le_zero.mp
    rw [← hatPool]
    exact List.le_sum_of_mem (List.mem_map_of_mem hx)

theorem CloseSound.start : CloseSound [] {} := by
  refine ⟨rfl, ?_, ?_, ?_, ?_, ?_, ?_, ?_⟩
  · intro e he
    exact absurd he List.not_mem_nil
  · intro hpc
    exact absurd rfl hpc
  · intro hpc
    rcases hpc with hpc | hpc
    · cases hpc
    · cases hpc
  · intro hpc
    cases hpc
  · intro hpc
    cases hpc
  · constructor
    · intro hmem
      exact absurd hmem List.not_mem_nil
    · intro hpc
      cases hpc
  · intro pre e post heq
    simp at heq

theorem CloseSound.counts_step (h : CloseSound tr s) (hs : s.step l = some s') :
    s'.live = s'.weigh liveWeights := by
  have hweigh := weigh_step liveWeights hs
  have hlive := (counters_step hs).1
  have hbalance := live_balance s l
  have hcounts := h.counts
  omega

/-- Nobody counts himself in behind the close. -/
theorem live_le (hs : s.step l = some s') (hpc : s.pc ≠ .inUse) :
    s'.live ≤ s.live := by
  have hlive := (counters_step hs).1
  have hmakes : l.makes = 0 := by
    have huse := closing_step hs hpc
    cases l with
    | starts | submits => cases huse
    | _ => rfl
  omega

theorem door_step (hs : s.step l = some s') (hl : l ≠ .wakes) :
    s.gate + s.weigh gateWeights ≤ s'.gate + s'.weigh gateWeights := by
  have hweigh := weigh_step gateWeights hs
  have hgate := (counters_step hs).2
  have hbalance := gate_balance s l
  rw [if_neg hl] at hgate
  omega

/-- What a step reports. -/
theorem events_eq (s : DspClosing) (l : DspCloseLabel) :
    (∃ h a, s.reaches l = some (h, a) ∧ s.events l = [.touches h a] ∧ l ≠ .syncs) ∨
      (l = .syncs ∧ s.events l = [.frees]) ∨ (s.reaches l = none ∧ s.events l = [] ∧ l ≠ .syncs) := by
  cases hreach : s.reaches l with
  | some e =>
    refine .inl ⟨e.1, e.2, rfl, by simp [DspClosing.events, hreach], ?_⟩
    rintro rfl
    cases hreach
  | none =>
    by_cases hl : l = .syncs
    · subst hl
      exact .inr (.inl ⟨rfl, rfl⟩)
    · refine .inr (.inr ⟨rfl, ?_, hl⟩)
      unfold DspClosing.events
      rw [hreach]
      cases l <;> first | rfl | exact absurd rfl hl

/-- A handler in front of an access. -/
theorem CloseSound.standing (hsound : CloseSound tr s) (hmem : (h, a :: todo) ∈ s.begun) :
    (a = h.first ∧ todo = []) ∨ (a.signals ∧ (∀ b ∈ todo, b.signals) ∧ .touches h h.first ∈ tr) := by
  rcases hsound.begun _ hmem with hfirst | ⟨-, hsig, hsaid⟩
  · exact .inl (List.cons.inj hfirst)
  · exact .inr ⟨hsig a List.mem_cons_self, fun b hb => hsig b (List.mem_cons_of_mem _ hb), hsaid⟩

theorem CloseSound.begun_next (h : CloseSound tr s) (hs : s.step l = some s')
    {e : GcdHandler × List DspAccess} (he : e ∈ s'.begun) : Begun (tr ++ s.events l) e.1 e.2 := by
  cases begun_step hs he with
  | stays he => exact (h.begun e he).mono
  | fresh hfirst => exact .inl hfirst
  | @goes a todo hmem hreach htodo hne =>
    refine .inr ⟨hne, fun b hb => ?_, ?_⟩
    · rw [htodo] at hb
      rcases List.mem_append.mp hb with hb | hb
      · exact touch_signals hb
      · rcases h.standing hmem with ⟨-, rfl⟩ | ⟨-, hsig, -⟩
        · exact absurd hb List.not_mem_nil
        · exact hsig b hb
    · -- The first access is this one, or it has been made before.
      rcases h.standing hmem with ⟨rfl, -⟩ | ⟨-, -, hsaid⟩
      · apply List.mem_append_right
        simp [DspClosing.events, hreach]
      · exact List.mem_append_left _ hsaid

/-- What comes to the state behind the frees. -/
theorem CloseSound.late_next (h : CloseSound tr s) (hs : s.step l = some s') {e : DspCloseEvent}
    (he : e ∈ s.events l) : Late tr e := by
  rcases events_eq s l with ⟨g, a, hreach, hev, -⟩ | ⟨rfl, hev⟩ | ⟨-, hev, -⟩
  · rw [hev, List.mem_singleton] at he
    subst he
    intro hfreed
    have hpc := h.frees.mp hfreed
    have hzero := live_zero (h.counts.symm.trans (h.quiet (.inr hpc)))
    obtain ⟨todo, hmem⟩ := reaches_begun hs hreach
    have hpool : ∃ op, g = .pool op := by
      rcases List.mem_append.mp hmem with hserial | hatPool
      · rw [Option.mem_toList, h.barrier hpc] at hserial
        cases hserial
      · obtain ⟨x, -, heq⟩ := List.mem_map.mp hatPool
        exact ⟨x.1, (congrArg Prod.fst heq).symm⟩
    obtain ⟨op, rfl⟩ := hpool
    rcases h.standing hmem with ⟨rfl, -⟩ | ⟨hsig, -, hsaid⟩
    · -- `live` would still count it.
      have hdrops := hzero.2.2.2.2 _ hmem _ List.mem_cons_self
      cases hdrops
    · exact ⟨⟨op, rfl⟩, hsig, hsaid⟩
  · rw [hev, List.mem_singleton] at he
    subst he
    intro hfreed
    have hpc := h.frees.mp hfreed
    cases pc_step hs with
    | stands _ hturns => cases hturns
    | syncs hpc' => cases hpc.symm.trans hpc'
  · rw [hev] at he
    exact absurd he List.not_mem_nil

theorem CloseSound.step (h : CloseSound tr s) (hs : s.step l = some s') :
    CloseSound (tr ++ s.events l) s' := by
  have hcounts := h.counts_step hs
  have hstill (hpc : s.pc ≠ .inUse) (hnil : s.sources = []) := stopped_step hs (closing_step hs hpc) hnil
  have hfrees (hl : l ≠ .syncs) : .frees ∈ tr ++ s.events l ↔ s.pc = .freed := by
    rw [List.mem_append, ← h.frees]
    rcases events_eq s l with ⟨g, a, -, hev, -⟩ | ⟨heq, -⟩ | ⟨-, hev, -⟩
    · simp [hev]
    · exact absurd heq hl
    · simp [hev]
  have hlate : AtEach Late (tr ++ s.events l) := by
    have hone : (s.events l).length ≤ 1 := by
      rcases events_eq s l with ⟨g, a, -, hev, -⟩ | ⟨-, hev⟩ | ⟨-, hev, -⟩ <;> simp [hev]
    cases hev : s.events l with
    | nil =>
      rw [List.append_nil]
      exact h.late
    | cons e es =>
      rw [hev, List.length_cons] at hone
      cases List.length_eq_zero_iff.mp (Nat.le_zero.mp (Nat.le_of_succ_le_succ hone))
      exact h.late.concat (h.late_next hs (by rw [hev]; exact List.mem_cons_self))
  cases pc_step hs with
  | stands hpc hturns =>
    have hl : l ≠ .syncs ∧ l ≠ .wakes := by
      constructor
      · rintro rfl
        cases hturns
      · rintro rfl
        cases hturns
    refine ⟨hcounts, fun e he => h.begun_next hs he, fun hn hm => ?_, fun hq => ?_, fun hq => ?_, fun hq => ?_,
      (hfrees hl.1).trans (by rw [hpc]), hlate⟩
    · rw [hpc] at hn hm
      exact (hstill hn (h.stopped hn hm)).1
    · rw [hpc] at hq
      have hne : s.pc ≠ .inUse := by rcases hq with hq | hq <;> simp [hq]
      exact Nat.le_zero.mp ((live_le hs hne).trans (h.quiet hq).le)
    · -- Nothing is live, so nothing is left that could begin on the serial queue.
      rw [hpc] at hq
      have hzero := live_zero (h.counts.symm.trans (h.quiet (.inr hq)))
      have hne : s.pc ≠ .inUse := by simp [hq]
      exact (hstill hne hzero.1).2 (h.barrier hq) hzero.2.1 hzero.2.2.1
    · rw [hpc] at hq
      exact (h.door hq).trans_le (door_step hs hl.2)
  | closes huse hpc =>
    exact ⟨hcounts, fun e he => h.begun_next hs he, fun _ hm => absurd hpc hm, by simp [hpc], by simp [hpc],
      by simp [hpc], (hfrees (by simp)).trans (by simp [hpc, huse]), hlate⟩
  | stopped hstop hpc hnil =>
    exact ⟨hcounts, fun e he => h.begun_next hs he, fun _ _ => (hstill (by simp [hstop]) hnil).1, by simp [hpc],
      by simp [hpc], by simp [hpc], (hfrees (by simp)).trans (by simp [hpc, hstop]), hlate⟩
  | looks hpc hpc' =>
    have hnil := (hstill (by simp [hpc]) (h.stopped (by simp [hpc]) (by simp [hpc]))).1
    by_cases hlive : s.live = 0
    · rw [if_pos hlive] at hpc'
      have hlive' := Nat.le_zero.mp ((live_le hs (by simp [hpc])).trans hlive.le)
      exact ⟨hcounts, fun e he => h.begun_next hs he, fun _ _ => hnil, fun _ => hlive', by simp [hpc'],
        by simp [hpc'], (hfrees (by simp)).trans (by simp [hpc, hpc']), hlate⟩
    · rw [if_neg hlive] at hpc'
      -- Who is counted here will ring.
      have hdoor : 0 < s.gate + s.weigh gateWeights := by
        have hle : s.weigh liveWeights ≤ s.weigh gateWeights :=
          weigh_mono (Nat.le_refl 1) (Nat.le_refl 1) (Nat.le_refl 1) (Nat.le_refl 1)
            fun a => Nat.le_add_right _ _
        have hcount := h.counts
        omega
      exact ⟨hcounts, fun e he => h.begun_next hs he, fun _ _ => hnil, by simp [hpc'], by simp [hpc'],
        fun _ => hdoor.trans_le (door_step hs (by simp)), (hfrees (by simp)).trans (by simp [hpc, hpc']), hlate⟩
  | wakes hpc hpc' =>
    have hnil := (hstill (by simp [hpc]) (h.stopped (by simp [hpc]) (by simp [hpc]))).1
    exact ⟨hcounts, fun e he => h.begun_next hs he, fun _ _ => hnil, by simp [hpc'], by simp [hpc'],
      by simp [hpc'], (hfrees (by simp)).trans (by simp [hpc, hpc']), hlate⟩
  | syncs hpc hpc' hserial =>
    have hnil := (hstill (by simp [hpc]) (h.stopped (by simp [hpc]) (by simp [hpc]))).1
    have hlive := Nat.le_zero.mp ((live_le hs (by simp [hpc])).trans (h.quiet (.inl hpc)).le)
    refine ⟨hcounts, fun e he => h.begun_next hs he, fun _ _ => hnil, fun _ => hlive, fun _ => hserial,
      by simp [hpc'], ?_, hlate⟩
    simp [hpc', DspClosing.events, DspClosing.reaches]

theorem CloseSound.run {C : DspClosing → DspCloseLabel → Prop} (hr : Run dspCloseMachine C {} tr s) :
    CloseSound tr s := by
  apply hr.invariant CloseSound
  · exact CloseSound.start
  · exact fun _ _ _ _ _ h _ hs => h.step hs

/-- A handler that has begun can go on. -/
theorem CloseSound.goes (h : CloseSound tr s) {e : GcdHandler × List DspAccess} (he : e ∈ s.begun) :
    ∃ l s', (∀ src, l ≠ .reports src) ∧ s.step l = some s' ∧ ∃ g a, .touches g a ∈ s.events l := by
  obtain ⟨a, todo, htodo⟩ : ∃ a todo, e.2 = a :: todo := by
    rcases h.begun e he with hfirst | ⟨hne, -⟩
    · exact ⟨_, _, hfirst⟩
    · exact List.exists_cons_of_ne_nil hne
  rcases List.mem_append.mp he with he | he
  · have hserial := Option.mem_toList.mp he
    refine ⟨.serialGoes, { (s.touch a).1 with serial := carry e.1 ((s.touch a).2 ++ todo) }, by simp, ?_,
      e.1, a, ?_⟩
    · obtain ⟨g, rest⟩ := e
      cases htodo
      simp [DspClosing.step, hserial]
    · obtain ⟨g, rest⟩ := e
      cases htodo
      simp [DspClosing.events, DspClosing.reaches, hserial]
  · obtain ⟨x, hx, heq⟩ := List.mem_map.mp he
    obtain ⟨op, rest⟩ := x
    cases heq
    cases htodo
    refine ⟨.poolGoes op (a :: todo),
      { (s.touch a).1 with
        atPool := (carry op ((s.touch a).2 ++ todo)).toList ++ s.atPool.erase (op, a :: todo) },
      by simp, ?_, .pool op, a, List.mem_singleton_self _⟩
    simp only [DspClosing.step, if_pos hx]

/-- With nothing left on the global queue nothing comes behind the frees. -/
theorem CloseSound.over (h : CloseSound tr s) (hpc : s.pc = .freed) (hnil : s.atPool = []) (l : DspCloseLabel) :
    s.step l = none := by
  have hserial := h.barrier hpc
  have hzero := live_zero (h.counts.symm.trans (h.quiet (.inr hpc)))
  cases l with
  | submits channel => simp [DspClosing.step, hpc]
  | _ => simp [DspClosing.step, hpc, hnil, hserial, hzero.1, hzero.2.1, hzero.2.2.1, hzero.2.2.2.1]

/-- The state is freed once, and what still comes to it then are signals of blocking ops of the global queue:
they come, in some continuation, exactly if such an op stood between its unlock and its last signal. -/
theorem dsp_close_frees_under_signals (hr : Run dspCloseMachine (fun _ _ => True) {} tr s) :
    AtEach Late tr ∧ (s.pc = .freed →
      ((∃ ev s', Run dspCloseMachine (fun _ _ => True) s ev s' ∧ ∃ h a, .touches h a ∈ ev) ↔
        s.atPool ≠ [])) := by
  have hsound := CloseSound.run hr
  refine ⟨hsound.late, fun hpc => ⟨?_, fun hne => ?_⟩⟩
  · rintro ⟨ev, s', hr', g, a, hmem⟩ hnil
    have hstuck : ev = [] ∧ s' = s := by
      apply hr'.invariant fun ev s' => ev = [] ∧ s' = s
      · exact ⟨rfl, rfl⟩
      · intro ev s₁ l s₂ _ hs₁ _ hs
        rw [hs₁.2] at hs
        cases (hsound.over hpc hnil l).symm.trans hs
    rw [hstuck.1] at hmem
    exact absurd hmem List.not_mem_nil
  · obtain ⟨x, hx⟩ := List.exists_mem_of_ne_nil _ hne
    obtain ⟨l, s', -, hs, g, a, hmem⟩ :=
      hsound.goes (List.mem_append_right _ (List.mem_map_of_mem hx))
    exact ⟨_, s', Run.start.next trivial hs, g, a, List.mem_append_right _ hmem⟩

/-- A blocking op has unlocked, the close sees that nothing is live, and the two signals come late. -/
theorem dsp_close_frees_under_signals_late : ∃ (tr : List DspCloseEvent) (s : DspClosing),
    AtEach Late tr ∧ s.pc = .freed ∧
    tr = [.touches (.pool 0) .done, .frees, .touches (.pool 0) .signalSem, .touches (.pool 0) .signalGate] := by
  obtain ⟨tr, s, hr, hpc, htr⟩ := Run.of_exec dspCloseMachine (fun _ _ => True) {}
    (fun tr s => s.pc = .freed ∧ tr = [.touches (.pool 0) .done, .frees, .touches (.pool 0) .signalSem,
      .touches (.pool 0) .signalGate])
    [.submits false, .poolEnds 0, .poolGoes 0 [.done], .closes, .stopped, .looks, .syncs,
      .poolGoes 0 [.signalSem, .signalGate], .poolGoes 0 [.signalGate]] (by decide)
  exact ⟨tr, s, (dsp_close_frees_under_signals hr).1, hpc, htr⟩

/-- Steps of the thread that are left with the place it stands at. -/
def ClosePc.left : ClosePc → ℕ
  | .inUse | .freed => 0
  | .stopping => 3
  | .looking => 2
  | .atGate | .syncing => 1

def DspClosing.left (s : DspClosing) : ℕ := s.weigh costWeights + 2 * s.gate + s.pc.left

theorem CloseSound.progress (h : CloseSound tr s) (huse : s.pc ≠ .inUse) (hfreed : s.pc ≠ .freed) :
    ∃ l s', (∀ src, l ≠ .reports src) ∧ s.step l = some s' := by
  have hbegun (hne : s.begun ≠ []) : ∃ l s', (∀ src, l ≠ .reports src) ∧ s.step l = some s' := by
    obtain ⟨e, he⟩ := List.exists_mem_of_ne_nil _ hne
    obtain ⟨l, s', hl, hs, -⟩ := h.goes he
    exact ⟨l, s', hl, hs⟩
  cases hpc : s.pc with
  | inUse => exact absurd hpc huse
  | freed => exact absurd hpc hfreed
  | stopping =>
    cases hsources : s.sources with
    | nil => exact ⟨.stopped, _, by simp, by simp only [DspClosing.step, hpc, hsources, and_self, if_true]; rfl⟩
    | cons src rest => exact ⟨.stops src, _, by simp, by simp [DspClosing.step, hpc, hsources]; rfl⟩
  | looking => exact ⟨.looks, _, by simp, by simp only [DspClosing.step, hpc, if_true]; rfl⟩
  | syncing =>
    cases hserial : s.serial with
    | none => exact ⟨.syncs, _, by simp, by simp only [DspClosing.step, hpc, hserial, and_self, if_true]; rfl⟩
    | some e =>
      apply hbegun
      simp [DspClosing.begun, hserial]
  | atGate =>
    by_cases hgate : 0 < s.gate
    · exact ⟨.wakes, _, by simp, by simp only [DspClosing.step, hpc, hgate, and_self, if_true]; rfl⟩
    by_cases hnone : s.begun = []
    · -- Nobody is on his way, so the count is one of those that have not begun.
      obtain ⟨hserial, hatPool⟩ := List.append_eq_nil_iff.mp hnone
      have hserial := Option.toList_eq_nil_iff.mp hserial
      have hsources := h.stopped (by simp [hpc]) (by simp [hpc])
      cases hcancelled : s.cancelled with
      | cons src rest => exact ⟨.ends src, _, by simp, by simp [DspClosing.step, hserial, hcancelled]; rfl⟩
      | nil =>
        cases hchannels : s.channels with
        | cons op rest => exact ⟨.channelEnds op, _, by simp, by simp [DspClosing.step, hserial, hchannels]; rfl⟩
        | nil =>
          cases hpooled : s.pooled with
          | cons op rest => exact ⟨.poolEnds op, _, by simp, by simp [DspClosing.step, hpooled]; rfl⟩
          | nil =>
            have hdoor := h.door hpc
            simp [DspClosing.weigh, hserial, List.map_eq_nil_iff.mp hatPool, hsources, hcancelled, hchannels,
              hpooled] at hdoor
            exact absurd hdoor hgate
    · exact hbegun hnone

/-- What a handler and GCD do costs what it was counted with. -/
theorem cost_balance (hs : s.step l = some s') (huse : l.ofUse = false) (hturns : l.turns = false)
    (hl : ∀ src, l ≠ .reports src) :
    costWeights.gained s l + 2 * s.reached l DspAccess.rings < costWeights.paid s l := by
  cases steps_of_step hs with
  | starts | submitsChannel | submitsPool | pokes | collects => cases huse
  | closes | stopped | looks | wakes | syncs => cases hturns
  | reports => exact absurd rfl (hl _)
  | stops | ends | channelEnds | poolEnds =>
    simp [Weights.gained, Weights.paid, DspClosing.reached, DspClosing.reaches, costWeights, DspAccess.cost]
  | serialGoes hserial =>
    simp only [Weights.gained, Weights.paid, DspClosing.reached, DspClosing.reaches, hserial, Option.bind_some,
      List.head?_cons, Option.map_some, Option.getD_some]
    exact cost_touch s _
  | poolGoes => exact cost_touch s _

/-- The steps of the thread itself weigh nothing. -/
theorem turns_free (w : Weights) (s : DspClosing) (hturns : l.turns = true) :
    w.paid s l = 0 ∧ w.gained s l = 0 ∧ s.reached l DspAccess.rings = 0 := by
  cases l with
  | closes | stopped | looks | wakes | syncs => exact ⟨rfl, rfl, rfl⟩
  | _ => cases hturns

theorem left_step (hs : s.step l = some s') (hpc : s.pc ≠ .inUse) (hl : ∀ src, l ≠ .reports src) :
    s'.left < s.left := by
  have huse := closing_step hs hpc
  have hweigh := weigh_step costWeights hs
  have hgate := (counters_step hs).2
  have hfree := fun hturns => turns_free (l := l) costWeights s hturns
  unfold DspClosing.left
  cases pc_step hs with
  | stands hstill hturns =>
    have hcost := cost_balance hs huse hturns hl
    have hwakes : l ≠ .wakes := by
      rintro rfl
      cases hturns
    rw [if_neg hwakes] at hgate
    rw [hstill]
    omega
  | closes => cases huse
  | stopped hbefore hbehind =>
    obtain ⟨hpaid, hgained, hreached⟩ := hfree rfl
    rw [if_neg (by simp)] at hgate
    rw [hbefore, hbehind]
    simp only [ClosePc.left]
    omega
  | looks hbefore hbehind =>
    -- Waiting at the gate is as far from the end as the barrier.
    obtain ⟨hpaid, hgained, hreached⟩ := hfree rfl
    have hnext : s'.pc.left = 1 := by
      rw [hbehind]
      split
      · rfl
      · rfl
    rw [if_neg (by simp)] at hgate
    rw [hbefore, hnext]
    simp only [ClosePc.left]
    omega
  | wakes hbefore hbehind =>
    -- The signal it takes was worth two steps, and one more look is one of them.
    obtain ⟨hpaid, hgained, hreached⟩ := hfree rfl
    rw [if_pos rfl] at hgate
    rw [hbefore, hbehind]
    simp only [ClosePc.left]
    omega
  | syncs hbefore hbehind =>
    obtain ⟨hpaid, hgained, hreached⟩ := hfree rfl
    rw [if_neg (by simp)] at hgate
    rw [hbefore, hbehind]
    simp only [ClosePc.left]
    omega

/-- A close that is past its call stays so, and past its first loop too. -/
theorem pc_stays (hs : s.step l = some s') (huse : s.pc ≠ .inUse) :
    s'.pc ≠ .inUse ∧ (s.pc ≠ .stopping → s'.pc ≠ .stopping) := by
  cases pc_step hs with
  | stands hstill =>
    rw [hstill]
    exact ⟨huse, id⟩
  | closes hbefore => exact absurd hbefore huse
  | looks _ hbehind =>
    rw [hbehind]
    split <;> simp
  | stopped _ hbehind | wakes _ hbehind | syncs _ hbehind => simp [hbehind]

/-- A close comes to its end, whatever is out and in whatever order the handlers and the thread go on. Only
reports of sources that it has not stopped yet can hold it up, and none once they are all stopped. -/
theorem dsp_close_ends (hr : Run dspCloseMachine (fun _ _ => True) {} tr s) (hpc : s.pc ≠ .inUse) :
    Inevitable dspCloseMachine (fun l => ∀ src, l ≠ .reports src) (fun s => s.pc = .freed) s ∧
      (s.pc ≠ .stopping → Inevitable dspCloseMachine (fun _ => True) (fun s => s.pc = .freed) s) := by
  have hsound := CloseSound.run hr
  constructor
  · apply Inevitable.of_measure (fun s => (∃ tr, CloseSound tr s) ∧ s.pc ≠ .inUse) DspClosing.left
    · rintro s ⟨⟨tr, h⟩, huse⟩ hfreed
      exact h.progress huse hfreed
    · rintro s l s' ⟨⟨tr, h⟩, huse⟩ - hl hs
      exact ⟨⟨⟨_, h.step hs⟩, (pc_stays hs huse).1⟩, left_step hs huse hl⟩
    · exact ⟨⟨tr, hsound⟩, hpc⟩
  · intro hstop
    apply Inevitable.of_measure (fun s => (∃ tr, CloseSound tr s) ∧ s.pc ≠ .inUse ∧ s.pc ≠ .stopping)
      DspClosing.left
    · rintro s ⟨⟨tr, h⟩, huse, -⟩ hfreed
      obtain ⟨l, s', -, hs⟩ := h.progress huse hfreed
      exact ⟨l, s', trivial, hs⟩
    · rintro s l s' ⟨⟨tr, h⟩, huse, hstop⟩ - - hs
      -- No source is left to report.
      have hl : ∀ src, l ≠ .reports src := by
        rintro src rfl
        simp [dspCloseMachine, DspClosing.step, h.stopped huse hstop] at hs
      exact ⟨⟨⟨_, h.step hs⟩, (pc_stays hs huse).1, (pc_stays hs huse).2 hstop⟩, left_step hs huse hl⟩
    · exact ⟨⟨tr, hsound⟩, hpc, hstop⟩

/-- Closed with a source, a channel and a blocking op out. -/
theorem dsp_close_ends_busy : ∃ s : DspClosing, s.sources = [0] ∧ s.channels = [1] ∧ s.pooled = [2] ∧
    Inevitable dspCloseMachine (fun l => ∀ src, l ≠ .reports src) (fun s => s.pc = .freed) s := by
  obtain ⟨tr, s, hr, hpc, hs⟩ := Run.of_exec dspCloseMachine (fun _ _ => True) {}
    (fun _ s => s.pc = .stopping ∧ s.sources = [0] ∧ s.channels = [1] ∧ s.pooled = [2])
    [.starts, .submits true, .submits false, .closes] (by decide)
  exact ⟨s, hs.1, hs.2.1, hs.2.2, (dsp_close_ends hr (by simp [hpc])).1⟩

end

end SlipstreamIO.Engine
