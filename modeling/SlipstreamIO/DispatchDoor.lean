import SlipstreamIO.DispatchWakes

/-! The door of the dispatch backend at the grain of its lock: source handlers, finished blocking ops
and pokes set `knocked` under the lock and signal the semaphore outside it, and the submitter's wait
takes the one token there is. The chain of ready descriptors runs through their own table entries. -/
namespace SlipstreamIO.Engine

open ThreadedList Runs

/-- Where an op of the pool is: with the core, parked on a side of a descriptor, out on a GCD queue, or
back from it and in `done[]`. -/
inductive OpPlace where
  | core
  | parked (fd : ℕ) (side : Side)
  | onQueue
  | cameBack
  deriving DecidableEq

/-- An entry of `fds[]`: its sources, hits and mark, the ops behind either side, and the next descriptor
of the chain. -/
structure DoorFd where
  reg : DspReg := {}
  inOps : List Slot := []
  outOps : List Slot := []
  nextReady : Option ℕ := none
  deriving DecidableEq

namespace DoorFd

def ops (e : DoorFd) : Side → List Slot
  | .input => e.inOps
  | .output => e.outOps

def setOps (e : DoorFd) (side : Side) (ops : List Slot) : DoorFd :=
  match side with
  | .input => { e with inOps := ops }
  | .output => { e with outOps := ops }

/-- The waiters behind the sides that were hit. -/
def behind (e : DoorFd) : List Slot :=
  (if e.reg.rdHit then e.inOps else []) ++ if e.reg.wrHit then e.outOps else []

end DoorFd

/-- Where the submitter stands in `dsp_wait`: outside, at the semaphore, with its token in front of the
barrier, in front of the lock, behind the lock with something left and its signal still to come, or in
`slip_posix_finish_ready` with the rest of `ready[]` and the room left in `out`. -/
inductive DspPc where
  | elsewhere
  | atSem
  | taken
  | synced
  | leaving (ready : List Slot) (room : ℕ)
  | finishing (ready : List Slot) (room : ℕ)
  deriving DecidableEq

/-- `handler` is the source handler that runs on the serial queue, past its lock: whether it has still
to signal. `doneOwes` and `pokeOwes` count the other threads that have. -/
structure DspDoor where
  opPoolN : ℕ
  fds : ℕ → DoorFd := fun _ => {}
  fdsN : ℕ := 0
  readyHead : Option ℕ := none
  done : List (Slot × Int32) := []
  knocked : Bool := false
  sem : ℕ := 0
  place : Slot → OpPlace := fun _ => .core
  handler : Option Bool := none
  doneOwes : ℕ := 0
  pokeOwes : ℕ := 0
  pc : DspPc := .elsewhere

inductive DspDoorLabel where
  | report (fd : ℕ) (side : Side)
  | handlerSignal
  | submit (op : Slot)
  | done (op : Slot) (res : Int32)
  | doneSignal
  | poke
  | pokeSignal
  | arm (op : Slot) (fd : ℕ) (side : Side) (grown started : Bool)
  | unpark (op : Slot)
  | forget (fd : ℕ)
  | wait
  | timeout
  | take
  | barrier
  | collect
  | keep
  | retry (again : Option (Side × Bool × Bool))
  | finish
  deriving DecidableEq

/-- A blocking op that came back, and one that a wait put into `out`. -/
inductive DoorEvent where
  | finished (d : Slot × Int32)
  | handed (d : Slot × Int32)
  deriving DecidableEq

namespace DspDoor

def setFd (s : DspDoor) (fd : ℕ) (e : DoorFd) : DspDoor :=
  { s with fds := fun f => if f = fd then e else s.fds f }

def setPlace (s : DspDoor) (op : Slot) (p : OpPlace) : DspDoor :=
  { s with place := fun x => if x = op then p else s.place x }

/-- With the lock held: whether the caller owes the door a knock. -/
def knockLocked (s : DspDoor) : DspDoor × Bool :=
  if s.knocked then (s, false) else ({ s with knocked := true }, true)

/-- The slot function: the table grows with zeroed entries, if realloc gives the memory. -/
def slot (s : DspDoor) (fd : ℕ) (grown : Bool) : Option DspDoor :=
  if fd < s.fdsN then some s
  else if grown then
    let want := growTo fd (fd + 1) (if s.fdsN ≠ 0 then s.fdsN else 64)
    some { s with fds := fun f => if s.fdsN ≤ f ∧ f < want then {} else s.fds f, fdsN := want }
  else none

/-- The locked part of `dsp_report`. -/
def report (s : DspDoor) (fd : ℕ) (side : Side) : DspDoor × Bool :=
  if fd < s.fdsN then
    let e := s.fds fd
    let e := { e with reg := e.reg.setHit side }
    let s :=
      if e.reg.queued then s.setFd fd e
      else
        let e := { e with reg := { e.reg with queued := true }, nextReady := s.readyHead }
        { s.setFd fd e with readyHead := some fd }
    s.knockLocked
  else (s, false)

/-- The locked part of `dsp_done`; `done_max` is the size of the pool. -/
def finished (s : DspDoor) (op : Slot) (res : Int32) : DspDoor × Bool :=
  let s := if s.done.length < s.opPoolN then { s with done := s.done ++ [(op, res)] } else s
  (s.setPlace op .cameBack).knockLocked

def arm (s : DspDoor) (op : Slot) (fd : ℕ) (side : Side) (grown started : Bool) : DspDoor × Bool :=
  match s.slot fd grown with
  | none => (s, false)
  | some s =>
    let e := s.fds fd
    if e.ops side ≠ [] then
      ((s.setFd fd (e.setOps side (op :: e.ops side))).setPlace op (.parked fd side), true)
    else if started then
      ((s.setFd fd ({ e with reg := e.reg.setSource side true }.setOps side [op])).setPlace op
        (.parked fd side), true)
    else (s.setFd fd { e with reg := e.reg.setSource side false }, false)

/-- `unpark`, for an op that is parked: it leaves its side, and the last one takes the source along. -/
def disarm (s : DspDoor) (op : Slot) (fd : ℕ) (side : Side) : DspDoor :=
  match s.slot fd true with
  | none => s
  | some s =>
    let e := s.fds fd
    let e := e.setOps side ((e.ops side).erase op)
    let reg := if e.ops side = [] ∧ e.reg.source side then e.reg.setSource side false else e.reg
    (s.setFd fd { e with reg := reg }).setPlace op .core

def forget (s : DspDoor) (fd : ℕ) : DspDoor :=
  if fd < s.fdsN then
    let e := s.fds fd
    s.setFd fd { e with reg := { queued := e.reg.queued }, inOps := [], outOps := [] }
  else s

/-- The walk of the chain: a descriptor whose waiters do not fit stays on it with its hits. `fuel` is the
size of the table. -/
def walkChain : ℕ → DspDoor → List Slot → DspDoor × List Slot
  | 0, s, ready => (s, ready)
  | fuel + 1, s, ready =>
    match s.readyHead with
    | none => (s, ready)
    | some i =>
      let e := s.fds i
      if s.opPoolN < ready.length + e.behind.length then (s, ready)
      else
        let e' := { e with reg := e.reg.answered, nextReady := none }
        walkChain fuel { s.setFd i e' with readyHead := e.nextReady } (ready ++ e.behind)

/-- What a wait puts into `out` first: the entries of `done[]`, last one first, as far as there is room. -/
def handed (s : DspDoor) : List (Slot × Int32) := s.done.reverse.take s.opPoolN

/-- The locked part of `dsp_wait`, which enter gives room for the whole pool. -/
def collect (s : DspDoor) : DspDoor :=
  let out := s.handed
  let room := s.opPoolN - out.length
  let s := { s with
    done := s.done.take (s.done.length - s.opPoolN)
    place := fun op => if op ∈ out.map Prod.fst then .core else s.place op }
  let (s, ready) := if 0 < room then walkChain s.fdsN s [] else (s, [])
  if s.readyHead ≠ none ∨ s.done ≠ [] then { s with pc := .leaving ready room }
  else { s with knocked := false, pc := .finishing ready room }

/-- One turn of the loop of `slip_posix_finish_ready`: `again` is the side an op that would still block
is parked on, and what its arm is answered. -/
def retry (s : DspDoor) (op : Slot) (ready : List Slot) (room : ℕ)
    (again : Option (Side × Bool × Bool)) : Option DspDoor :=
  match s.place op with
  | .parked fd side =>
    let s := s.disarm op fd side
    match again with
    | none => some { s with pc := .finishing ready (room - 1) }
    | some (side, grown, started) =>
      match s.arm op fd side grown started with
      | (s, true) => some { s with pc := .finishing ready room }
      | (s, false) => some { s with pc := .finishing ready (room - 1) }
  -- never: what is in `ready[]` is parked
  | _ => none

/-- The core parks and submits ops of the pool that it has. -/
def atHand (s : DspDoor) (op : Slot) : Bool :=
  s.pc = .elsewhere && op < s.opPoolN && s.place op = .core

def step (s : DspDoor) : DspDoorLabel → Option DspDoor
  -- the handlers run on a serial queue
  | .report fd side =>
    if s.handler = none then
      let (s, knock) := s.report fd side
      some { s with handler := some knock }
    else none
  | .handlerSignal => s.handler.map fun knock =>
      { s with handler := none, sem := if knock then s.sem + 1 else s.sem }
  | .submit op => if s.atHand op then some (s.setPlace op .onQueue) else none
  | .done op res =>
    if s.place op = .onQueue then
      let (s, knock) := s.finished op res
      some { s with doneOwes := if knock then s.doneOwes + 1 else s.doneOwes }
    else none
  | .doneSignal =>
    if 0 < s.doneOwes then some { s with doneOwes := s.doneOwes - 1, sem := s.sem + 1 } else none
  | .poke =>
    let (s, knock) := s.knockLocked
    some { s with pokeOwes := if knock then s.pokeOwes + 1 else s.pokeOwes }
  | .pokeSignal =>
    if 0 < s.pokeOwes then some { s with pokeOwes := s.pokeOwes - 1, sem := s.sem + 1 } else none
  | .arm op fd side grown started =>
    if s.atHand op then some (s.arm op fd side grown started).1 else none
  | .unpark op =>
    match s.place op with
    | .parked fd side => if s.pc = .elsewhere then some (s.disarm op fd side) else none
    | _ => none
  | .forget fd => if s.pc = .elsewhere then some (s.forget fd) else none
  | .wait => if s.pc = .elsewhere then some { s with pc := .atSem } else none
  | .timeout => if s.pc = .atSem then some { s with pc := .elsewhere } else none
  | .take => if s.pc = .atSem ∧ 0 < s.sem then some { s with pc := .taken, sem := s.sem - 1 } else none
  | .barrier => if s.pc = .taken ∧ s.handler = none then some { s with pc := .synced } else none
  | .collect => if s.pc = .synced then some s.collect else none
  | .keep =>
    match s.pc with
    | .leaving ready room => some { s with pc := .finishing ready room, sem := s.sem + 1 }
    | _ => none
  | .retry again =>
    match s.pc with
    | .finishing (op :: ready) room => if 0 < room then s.retry op ready room again else none
    | _ => none
  | .finish =>
    match s.pc with
    | .finishing ready room => if ready = [] ∨ room = 0 then some { s with pc := .elsewhere } else none
    | _ => none

def events (s : DspDoor) : DspDoorLabel → List DoorEvent
  | .done op res => [.finished (op, res)]
  | .collect => s.handed.map .handed
  | _ => []

end DspDoor

def dspDoorMachine : Machine DspDoor DspDoorLabel DoorEvent := ⟨DspDoor.step, DspDoor.events⟩

/-- The ring as `dsp_open_ring` leaves it. -/
def setupDspDoor (n : ℕ) : DspDoor := { opPoolN := n }

end SlipstreamIO.Engine
