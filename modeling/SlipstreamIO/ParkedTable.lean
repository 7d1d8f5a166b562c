import SlipstreamIO.FixedTable
import SlipstreamIO.IndexedBag

/-! Parking on a readiness backend: `waiting[]`, the table of descriptors with the ops parked on
either side of each, and how epoll, kqueue and dispatch register them with the system. -/
namespace SlipstreamIO.Engine

open ThreadedList Runs IndexedBag

def pollIn : UInt16 := 1
def pollPri : UInt16 := 2
def pollOut : UInt16 := 4

/-- The side of a descriptor an op is parked on. -/
inductive Side where
  | input
  | output
  deriving DecidableEq, Repr

def sideOf (waitEvents : UInt16) : Side := if waitEvents &&& pollOut ≠ 0 then .output else .input

def EngOp.side (o : EngOp) : Side := sideOf o.waitEvents

/-- A descriptor as an index of the table. -/
def EngOp.fdIndex (o : EngOp) : ℕ := o.sqe.fd.toInt.toNat

/-- What a backend's table keeps for one descriptor: the ops parked on its in and out side, chained
through their own `next` fields, and the registration the backend made. -/
structure FdEntry (κ : Type) where
  inOps : Option Slot := none
  outOps : Option Slot := none
  reg : κ

namespace FdEntry
variable {κ : Type}

def side (e : FdEntry κ) : Side → Option Slot
  | .input => e.inOps
  | .output => e.outOps

def setSide (e : FdEntry κ) (s : Side) (h : Option Slot) : FdEntry κ :=
  match s with
  | .input => { e with inOps := h }
  | .output => { e with outOps := h }

def idle (e : FdEntry κ) : Bool := e.inOps = none && e.outOps = none

end FdEntry

/-- A table indexed by descriptor; the first `n` entries exist. -/
structure FdTable (κ : Type) where
  fds : ℕ → FdEntry κ
  n : ℕ := 0

/-- `want`, doubled until it is above `fd`. -/
def growTo (fd : ℕ) : ℕ → ℕ → ℕ
  | 0, want => want
  | k + 1, want => if want ≤ fd then growTo fd k (want * 2) else want

namespace FdTable
variable {κ : Type}

def set (st : FdTable κ) (f : ℕ) (e : FdEntry κ) : FdTable κ :=
  { st with fds := fun i => if i = f then e else st.fds i }

/-- The slot function of the three backends: the table grows to the descriptor with zeroed entries,
if realloc gives the memory. -/
def slot (zero : κ) (st : FdTable κ) (fd : Int32) (grown : Bool) : Option (FdTable κ) :=
  if fd < 0 then none
  else if fd.toInt.toNat < st.n then some st
  else if grown then
    let want := growTo fd.toInt.toNat 32 (if st.n ≠ 0 then st.n else 64)
    some { fds := fun i => if st.n ≤ i ∧ i < want then { reg := zero } else st.fds i, n := want }
  else none

end FdTable

/-- The ring, the backend's table, and what the backend leans on beside it: the kernel's set of
registrations, or the chain of descriptors that were reported ready. -/
structure Parking (κ ω : Type) where
  ring : Ring
  st : FdTable κ
  env : ω

/-- What a readiness backend brings to the shared parking code: how an arm registers, what a disarm
and a close take back, what reaches the backend between two waits, and how a wait collects the ops
that woke. `A` are the system's answers to an arm, `E` what it reports. -/
structure ReadyBackend (κ ω A E : Type) where
  zero : κ
  register : FdEntry κ → EngOp → A → ω → Bool × κ × ω
  quit : FdEntry κ → Side → κ
  forgotten : κ → κ
  forgetGrows : Bool
  closed : ω → ℕ → ω
  hear : Parking κ ω → E → Parking κ ω
  collect : Parking κ ω → E → Parking κ ω × List Slot

/-- Taking `op` out of the side list at `h`, if it is on it. -/
def Vault.leaveSide (v : Vault) (h : Option Slot) (op : Slot) : Vault × Option Slot :=
  match findCell v.next h op (v.opPoolN + 1) .head with
  | some .head => (v.setNext op none, v.next op)
  | some (.nextOf x) => ((v.setNext x (v.next op)).setNext op none, h)
  | none => (v, h)

namespace ReadyBackend
variable {κ ω A E : Type} (b : ReadyBackend κ ω A E)

/-- The op joins its side and the system is told, or told and refused: then it leaves its side. -/
def arm (s : Parking κ ω) (op : Slot) (grown : Bool) (a : A) : Parking κ ω × Bool :=
  let o := s.ring.opPool op
  match s.st.slot b.zero o.sqe.fd grown with
  | none => (s, false)
  | some st =>
    let e := st.fds o.fdIndex
    match b.register e o a s.env with
    | (true, reg, env) =>
      ({ ring := s.ring.inVault (·.setNext op (e.side o.side))
         st := st.set o.fdIndex ({ e with reg := reg }.setSide o.side (some op))
         env := env }, true)
    | (false, reg, env) =>
      ({ ring := s.ring.inVault (·.setNext op none)
         st := st.set o.fdIndex { e with reg := reg }
         env := env }, false)

def disarm (s : Parking κ ω) (op : Slot) : Parking κ ω :=
  let o := s.ring.opPool op
  match s.st.slot b.zero o.sqe.fd true with
  | none => s
  | some st =>
    let e := st.fds o.fdIndex
    let e' := e.setSide o.side (s.ring.leaveSide (e.side o.side) op).2
    { s with
      ring := s.ring.inVault (fun v => (v.leaveSide (e.side o.side) op).1)
      st := st.set o.fdIndex { e' with reg := b.quit e' o.side } }

/-- The descriptor is closing. -/
def forget (s : Parking κ ω) (fd : Int32) (grown : Bool) : Parking κ ω :=
  match s.st.slot b.zero fd (grown && b.forgetGrows) with
  | none => s
  | some st =>
    let e := st.fds fd.toInt.toNat
    { s with st := st.set fd.toInt.toNat { reg := b.forgotten e.reg } }

def park (s : Parking κ ω) (op : Slot) (grown : Bool) (a : A) : Parking κ ω × Bool :=
  if s.ring.opPoolN ≤ s.ring.waiting.length then (s, false)
  else
    match b.arm s op grown a with
    | (s, false) => (s, false)
    | (s, true) =>
      let o := { s.ring.opPool op with waitSlot := s.ring.waiting.length }
      ({ s with ring := { s.ring.inVault (·.setOp op o) with waiting := s.ring.waiting ++ [op] } },
        true)

/-- The last op of `waiting[]` takes the place of the leaving one, and is told. -/
def leaveWaiting (r : Ring) (i : ℕ) : Ring :=
  match r.waiting.getLast? with
  | none => r
  | some last =>
    { r.inVault (·.setOp last { r.opPool last with waitSlot := i }) with
      waiting := swapRemove r.waiting i }

def unpark (s : Parking κ ω) (op : Slot) : Parking κ ω :=
  let i := (s.ring.opPool op).waitSlot
  if s.ring.waiting[i]? ≠ some op then s
  else b.disarm { s with ring := leaveWaiting s.ring i } op

end ReadyBackend

/-- What `slip_posix_try` answers: finished, or would block and waits for these events, or has no
readiness to wait for. -/
inductive Verdict where
  | ran (res : Int32)
  | park (events : UInt16)
  | file
  deriving DecidableEq

/-- The try writes what the op waits for. -/
def Ring.setWaitEvents (r : Ring) (op : Slot) (events : UInt16) : Ring :=
  r.inVault (·.setOp op { r.opPool op with waitEvents := events })

/-- The answers one retry meets: the try's own, and those to its park. -/
structure Retry (A : Type) where
  verdict : Verdict
  grown : Bool
  answers : A

namespace ReadyBackend
variable {κ ω A E : Type} (b : ReadyBackend κ ω A E)

/-- One turn of the loop of `slip_posix_finish_ready`. -/
def retry (s : Parking κ ω) (op : Slot) (t : Retry A) : Parking κ ω × Option (Slot × Int32) :=
  let s := b.unpark s op
  match t.verdict with
  | .ran res => (s, some (op, res))
  | .file => (s, some (op, -eopnotsupp))
  | .park events =>
    match b.park { s with ring := s.ring.setWaitEvents op events } op t.grown t.answers with
    | (s, true) => (s, none)
    | (s, false) => (s, some (op, -ebusy))

/-- The ready ops are retried while `out` has room; a retry the list does not answer ends the pass. -/
def slipPosixFinishReady (s : Parking κ ω) (ready : List Slot) (retries : List (Retry A)) (max : ℕ)
    (out : List (Slot × Int32)) : Parking κ ω × List (Slot × Int32) :=
  match ready, retries with
  | op :: ready, t :: retries =>
    if out.length < max then
      match b.retry s op t with
      | (s, some d) => slipPosixFinishReady s ready retries max (out ++ [d])
      | (s, none) => slipPosixFinishReady s ready retries max out
    else (s, out)
  | _, _ => (s, out)

/-- The descriptor is forgotten and closed; the system drops what was registered for it. -/
def closeFd (s : Parking κ ω) (fd : Int32) (grown : Bool) : Parking κ ω :=
  let s := b.forget s fd grown
  if fd < 0 then s else { s with env := b.closed s.env fd.toInt.toNat }

/-- IORING_OP_CLOSE: a plain close names its descriptor, a direct one the slot of the fixed table
that holds it. `grown` is what realloc answers if the table has to grow. -/
def close (s : Parking κ ω) (sqe : Sqe) (grown : Bool) : Parking κ ω :=
  if sqe.fileIndex ≠ 0 then
    let slot := sqe.fileIndex - 1
    let real := s.ring.slipFixedLookup slot.toInt32
    if real < 0 then s
    else b.closeFd { s with ring := (s.ring.slipFixedClear slot.toNat).1 } real grown
  else b.closeFd s sqe.fd grown

end ReadyBackend

/-- What can happen to the parked set. A pass collects, and retries what it collected; the other ops
and the fixed table change as they like, and the caller may close a descriptor of its own. -/
inductive ParkLabel (A E : Type) where
  | other (op : Slot) (o : EngOp)
  | fixed (table : Option (List Int32))
  | park (op : Slot) (events : UInt16) (grown : Bool) (answers : A)
  | unpark (op : Slot)
  | pass (events : E) (retries : List (Retry A)) (max : ℕ)
  | close (sqe : Sqe) (grown : Bool)
  | gone (fd : Int32)
  | hear (events : E)

namespace ReadyBackend
variable {κ ω A E : Type} (b : ReadyBackend κ ω A E)

def step (s : Parking κ ω) : ParkLabel A E → Parking κ ω
  | .other op o => { s with ring := s.ring.inVault (·.setOp op o) }
  | .fixed table => { s with ring := { s.ring with fixed := table } }
  | .park op events grown a =>
    (b.park { s with ring := s.ring.setWaitEvents op events } op grown a).1
  | .unpark op => b.unpark s op
  | .pass events retries max =>
    let (s, ready) := b.collect s events
    (b.slipPosixFinishReady s ready retries max []).1
  | .close sqe grown => b.close s sqe grown
  | .gone fd => if fd < 0 then s else { s with env := b.closed s.env fd.toInt.toNat }
  | .hear events => b.hear s events

def parking : Machine (Parking κ ω) (ParkLabel A E) Empty := ⟨fun s l => some (b.step s l), fun _ _ => []⟩

/-- The ring as setup leaves it, with an empty table. -/
def setupParking (n : ℕ) (cqEntries : UInt32) (env : ω) : Parking κ ω where
  ring := { toVault := emptyVault n cqEntries }
  st := { fds := fun _ => { reg := b.zero } }
  env := env

end ReadyBackend

section Conditions
variable {κ ω A E : Type}

/-- Only an op that is not parked is changed or parked. -/
def ParksOnce (s : Parking κ ω) : ParkLabel A E → Prop
  | .other op _ | .park op _ _ _ => op ∉ s.ring.waiting
  | _ => True

/-- The descriptor a CLOSE closes. -/
def Parking.closes (s : Parking κ ω) (sqe : Sqe) : Option Int32 :=
  if sqe.fileIndex ≠ 0 then
    let real := s.ring.slipFixedLookup (sqe.fileIndex - 1).toInt32
    if real < 0 then none else some real
  else some sqe.fd

/-- Nobody closes a descriptor that has ops parked on it. -/
def ClosesIdle (s : Parking κ ω) : ParkLabel A E → Prop
  | .close sqe _ => ∀ fd ∈ s.closes sqe, ∀ x ∈ s.ring.waiting, (s.ring.opPool x).sqe.fd ≠ fd
  | .gone fd => ∀ x ∈ s.ring.waiting, (s.ring.opPool x).sqe.fd ≠ fd
  | _ => True

instance (s : Parking κ ω) (l : ParkLabel A E) : Decidable (ParksOnce s l) :=
  match l with
  | .other op _ | .park op _ _ _ => inferInstanceAs (Decidable (op ∉ s.ring.waiting))
  | .fixed _ | .unpark _ | .pass _ _ _ | .close _ _ | .gone _ | .hear _ =>
    isTrue trivial

instance (s : Parking κ ω) (l : ParkLabel A E) : Decidable (ClosesIdle s l) :=
  match l with
  | .close sqe _ => Option.decidableForallMem (s.closes sqe)
  | .gone fd => inferInstanceAs (Decidable (∀ x ∈ s.ring.waiting, (s.ring.opPool x).sqe.fd ≠ fd))
  | .other _ _ | .fixed _ | .park _ _ _ _ | .unpark _ | .pass _ _ _ | .hear _ => isTrue trivial

end Conditions

end SlipstreamIO.Engine
