import SlipstreamIO.CtlPipe
import SlipstreamIO.Enter
import SlipstreamIO.FileSlots
import SlipstreamIO.PosixTry

/-! One ring on a backend of `engine_posix.c`, with its worker and the other rings that message it:
what execute, a cancel, a wait and the worker do to it, one step for each stretch under `mtx`. -/
namespace SlipstreamIO.Engine

open ThreadedList Runs

/-! ### The worker queue and the cancel's three searches -/

def ioringAsyncCancelAll : UInt32 := 1
def ioringAsyncCancelFd : UInt32 := 2

/-- The cancel op names this target. -/
def cancelNames (cancel target : Sqe) : Bool :=
  if cancel.opcode = .pollRemove then
    target.opcode = .pollAdd && target.userData = cancel.addr
  else if cancel.opFlags &&& ioringAsyncCancelFd ≠ 0 then target.fd = cancel.fd
  else target.userData = cancel.addr

def cancelAll (cancel : Sqe) : Bool :=
  cancel.opcode = .asyncCancel && cancel.opFlags &&& ioringAsyncCancelAll ≠ 0

namespace Ring

/-- What a backend's arm or disarm of `op` writes into the `next` fields of the ops parked with it. -/
def relink (r : Ring) (op : Slot) (links : List (Slot × Option Slot)) : Ring :=
  (links.filter (·.1 ∈ op :: r.waiting)).foldl (fun r l => r.inVault (·.setNext l.1 l.2)) r

/-- `armed` is what the backend's arm answers. -/
def park (r : Ring) (op : Slot) (armed : Bool) (links : List (Slot × Option Slot)) : Ring × Bool :=
  if r.opPoolN ≤ r.waiting.length then (r, false)
  else
    let r := r.relink op links
    if armed then
      ({ r.inVault (·.setOp op { r.opPool op with waitSlot := r.waiting.length }) with
        waiting := r.waiting ++ [op] }, true)
    else (r, false)

def unpark (r : Ring) (op : Slot) (links : List (Slot × Option Slot)) : Ring :=
  let i := (r.opPool op).waitSlot
  if r.waiting[i]? ≠ some op then r else (ReadyBackend.leaveWaiting r i).relink op links

/-- The op goes behind the worker's queue; the worker is started if this is its first op. -/
def slipPosixHandToWorker (r : Ring) (op : Slot) : Ring :=
  let r := if r.linked op then r.inVault (·.setOp op { r.opPool op with stallsQueue := true }) else r
  let r := match r.wqTail with
    | some last => r.inVault (·.setNext last (some op))
    | none => { r with wqHead := some op }
  { r with wqTail := some op, workerLive := true }

/-- The worker takes the head of its queue. -/
def workerPop (r : Ring) (op : Slot) : Ring :=
  let next := r.next op
  { r with wqHead := next, wqTail := if next = none then none else r.wqTail }

/-- `*p = t->next`, with the tail walked for again when `t` was the last one. -/
def unlinkWq (r : Ring) (p : Link Slot) (t : Slot) : Ring :=
  let next := r.next t
  let r := match p with
    | .head => { r with wqHead := next }
    | .nextOf x => r.inVault (·.setNext x next)
  if r.wqTail = some t then { r with wqTail := walkLast r.next r.opPoolN r.wqHead none } else r

/-- The walk of the worker queue from the cell `p`: to the next op the cancel names, with the cell in
front of it, or to the end (`some none`); no answer when it goes on for longer than the fuel. -/
def scanWq (r : Ring) (c : Slot) : ℕ → Link Slot → Option (Option (Link Slot × Slot))
  | 0, _ => none
  | fuel + 1, p =>
    match p.read r.next r.wqHead with
    | none => some none
    | some t =>
      if cancelNames (r.opPool c).sqe (r.opPool t).sqe then some (some (p, t))
      else scanWq r c fuel (.nextOf t)

end Ring

/-- What a cancel answers when it has taken `count` ops. -/
def cancelAnswer (r : Ring) (cancel : Sqe) (count : ℕ) : Int32 :=
  if 0 < count then if cancelAll cancel then Int32.ofNat count else 0
  else if r.blocking ≠ none ∧ r.blockedDone = none then -ealready
  else -enoent

/-! ### The machine -/

/-- Where the worker stands: at its condition variable, in the blocking call, in front of its post,
in front of its poke. -/
inductive WorkerPc where
  | idle
  | running (op : Slot)
  | finished (op : Slot) (res : Int32)
  | posted
  deriving DecidableEq

/-- Where the submitter stands inside the backend: not, in the three searches of a cancel, where
`count` ops are taken already (`cancelLock` is in front of the lock, `cancelTaken` behind the
unlock, with `t` unlinked from the worker queue), in front of the cancel's answer, or in a wait
that has come back: draining the pipe, going through the ready ops, trying one of them. -/
inductive BackPc where
  | core
  | cancelWaiting (i count : ℕ)
  | cancelQueue (p : Link Slot) (count : ℕ)
  | cancelLock (p : Link Slot) (count : ℕ)
  | cancelTaken (p : Link Slot) (t : Slot) (count : ℕ)
  | cancelAnswer (count : ℕ)
  | draining (ready : List Slot)
  | finishing (ready : List Slot)
  | retrying (op : Slot) (ready : List Slot)
  deriving DecidableEq

/-- `away` are the blocking ops a backend with a place of its own for them has; `senders` are the
other rings that have emitted and not yet poked. `blockSeq` is ghost: the accepted SQE `blocking`
was set for, or is going to be. -/
structure Posix where
  core : Core
  submitBlocking : Bool
  back : BackPc := .core
  worker : WorkerPc := .idle
  away : List Slot := []
  pipe : Pipe
  senders : ℕ := 0
  blockSeq : Option ℕ := none

/-- A step of the core, an emission of an op, a worker's ticket going up, one being settled, and the
answer `cancel_matching` returns. `i` and `c` number the accepted SQEs. -/
inductive PosixEvent where
  | core (e : Event)
  | emits (i : ℕ) (cqe : Cqe)
  | ticket (i : Option ℕ) (failed : ChainFailed)
  | settles (i : Option ℕ) (failed : ChainFailed)
  | answers (c : Option ℕ) (res : Int32)
  deriving DecidableEq

/-- `reads` are the caller's, as in the core; `links` and `armed` what the backend does and answers. `table` is
what happens to the fixed table: the caller's registrations, and the installs and clears of direct ops. -/
inductive PosixLabel where
  | engine (l : CoreLabel)
  | tries (a : OsAnswer) (armed : Bool) (links : List (Slot × Option Slot)) (reads : List ℕ)
  | pending
  | cancel (links : List (Slot × Option Slot)) (reads : List ℕ)
  | wake (reported : Bool) (ready : List Slot)
  | drain
  | ready (links : List (Slot × Option Slot))
  | cameBack (op : Slot) (res : Int32)
  | back
  | fail
  | workerTake
  | workerFinish (res : Int32)
  | workerPost (reads : List ℕ)
  | workerPoke
  | senderEmit (userData : UInt64) (res : Int32) (reads : List ℕ)
  | senderPoke
  | interrupted (worker : Bool)
  | table (l : TableLabel)

/-- The labels of the core that are the engine's own, or the caller's. -/
def CoreLabel.isEngine : CoreLabel → Bool
  | .enter _ | .takeSqe | .append | .queueStep _ _ | .post _ | .settle _ | .check _ | .complete _
  | .read _ => true
  | _ => false

namespace Posix

def setRing (s : Posix) (r : Ring) : Posix := { s with core := { s.core with ring := r } }

/-- What a step comes to: what it reports, and the state after it. -/
abbrev Out := Option (List PosixEvent × Posix)

def quiet (s : Posix) : Out := some ([], s)

/-- A step of the core, with the submitter at `b` in the backend afterwards. -/
def inCore (s : Posix) (l : CoreLabel) (b : BackPc) : Out :=
  (s.core.step l).map fun c => ((s.core.events l).map .core, { s with core := c, back := b })

def andThen (x : Out) (f : Posix → Out) : Out :=
  x.bind fun p => (f p.2).map fun q => (p.1 ++ q.1, q.2)

/-- An event about the SQE an op carries. -/
def about (s : Posix) (op : Slot) (e : ℕ → PosixEvent) : List PosixEvent :=
  match (s.core.ring.opPool op).seq with
  | some i => [e i]
  | none => []

/-- What one turn of a try emits and leaves in the op. -/
def turn (s : Posix) (op : Slot) (a : OsAnswer) (reads : List ℕ) : List PosixEvent × Posix :=
  let r := s.core.ring
  let o := r.opPool op
  let t := o.slipPosixTry a
  match t.emits with
  | some (res, flags) =>
    (s.about op (.emits · ⟨o.sqe.userData, res, flags⟩),
      s.setRing ((r.inVault (·.slipEngineEmit o.sqe.userData res flags reads)).inVault (·.setOp op t.op)))
  | none => ([], s.setRing (r.inVault (·.setOp op t.op)))

/-- The backend takes the op in execute; what `blocking` is going to be set for is remembered. -/
def takeOp (s : Posix) (op : Slot) (linked : Bool) (r : Ring) : Out :=
  let seq := if linked then (s.core.ring.opPool op).seq else s.blockSeq
  inCore { s.setRing r with blockSeq := seq } .execTake .core

/-- `slip_posix_execute` of an op that is not a cancel: one turn of its try, and what follows from the
verdict. -/
def execute (s : Posix) (a : OsAnswer) (armed : Bool) (links : List (Slot × Option Slot))
    (reads : List ℕ) : Out :=
  match s.core.pc with
  | .exec _ op linked false =>
    if (s.core.ring.opPool op).sqe.opcode.cancels then none
    else
      andThen (some (s.turn op a reads)) fun s' =>
        let r := s'.core.ring
        match ((s.core.ring.opPool op).slipPosixTry a).verdict with
        | none => s'.quiet
        | some (.ran res) => s'.inCore (.execDone res) .core
        | some (.park _) =>
          match r.park op armed links with
          | (r, true) => andThen (s'.takeOp op linked r) (·.inCore .execPending .core)
          | (r, false) => (s'.setRing r).inCore (.execDone (-ebusy)) .core
        | some .file =>
          if s.submitBlocking then
            andThen ({ s' with away := s'.away ++ [op] }.takeOp op linked r) (·.inCore .execPending .core)
          else s'.takeOp op linked (r.slipPosixHandToWorker op)
  | _ => none

/-- One step of `cancel_matching`. -/
def cancelStep (s : Posix) (links : List (Slot × Option Slot)) (reads : List ℕ) : Out :=
  match s.core.pc.executing with
  | none => none
  | some c =>
    let r := s.core.ring
    let cancel := (r.opPool c).sqe
    let all := cancelAll cancel
    match s.back with
    | .core => if cancel.opcode.cancels then quiet { s with back := .cancelWaiting 0 0 } else none
    | .cancelWaiting i count =>
      match r.waiting[i]? with
      | none => quiet { s with back := .cancelQueue .head count }
      | some t =>
        if cancelNames cancel (r.opPool t).sqe then
          -- the swap has put another op at index i
          (s.setRing (r.unpark t links)).inCore (.cancelHeld t reads)
            (if all then .cancelWaiting i (count + 1) else .cancelAnswer (count + 1))
        else quiet { s with back := .cancelWaiting (i + 1) count }
    | .cancelQueue p count =>
      match p.read r.next r.queueHead with
      | none => quiet { s with back := .cancelLock .head count }
      | some t =>
        if cancelNames cancel (r.opPool t).sqe then
          s.inCore (.cancelQueued p reads)
            (if all then .cancelQueue p (count + 1) else .cancelAnswer (count + 1))
        else quiet { s with back := .cancelQueue (.nextOf t) count }
    | .cancelLock p count =>
      match r.scanWq c (r.opPoolN + 1) p with
      | none => none
      | some none => quiet { s with back := .cancelAnswer count }
      | some (some (p, t)) => quiet { s.setRing (r.unlinkWq p t) with back := .cancelTaken p t count }
    | .cancelTaken p t count =>
      s.inCore (.cancelHeld t reads)
        (if all then .cancelLock p (count + 1) else .cancelAnswer (count + 1))
    | .cancelAnswer count =>
      let res := Engine.cancelAnswer r cancel count
      andThen (some ([.answers (r.opPool c).seq res], s)) (·.inCore (.execDone res) .core)
    | _ => none

/-- The backend's wait comes back: the pipe's read end may be reported, and `ready` are the parked
ops it collected. -/
def wake (s : Posix) (reported : Bool) (ready : List Slot) : Out :=
  match s.core.pc, s.back with
  | .wait _ _ [], .core =>
    if ready.Nodup ∧ ∀ x ∈ ready, x ∈ s.core.ring.waiting then
      quiet { s with back := if reported then .draining ready else .finishing ready }
    else none
  | _, _ => none

def drain (s : Posix) : Out :=
  match s.back with
  | .draining ready => (slipPosixCtlDrain s.pipe).bind fun (got, p) =>
      quiet { s with pipe := p, back := if 0 < got then .draining ready else .finishing ready }
  | _ => none

/-- The loop of `slip_posix_finish_ready` takes the next ready op; `done[]` has room for a pool. -/
def nextReady (s : Posix) (links : List (Slot × Option Slot)) : Out :=
  match s.core.pc, s.back with
  | .wait _ _ done, .finishing (op :: ready) =>
    if done.length < s.core.ring.opPoolN then
      quiet { s.setRing (s.core.ring.unpark op links) with back := .retrying op ready }
    else none
  | _, _ => none

/-- One turn of the try of a ready op. -/
def retry (s : Posix) (a : OsAnswer) (armed : Bool) (links : List (Slot × Option Slot))
    (reads : List ℕ) : Out :=
  match s.back with
  | .retrying op ready =>
    andThen (some (s.turn op a reads)) fun s' =>
      match ((s.core.ring.opPool op).slipPosixTry a).verdict with
      | none => s'.quiet
      | some (.ran res) => s'.inCore (.handBack op res) (.finishing ready)
      | some .file => s'.inCore (.handBack op (-eopnotsupp)) (.finishing ready)
      | some (.park _) =>
        match s'.core.ring.park op armed links with
        | (r, true) => quiet { s'.setRing r with back := .finishing ready }
        | (r, false) => (s'.setRing r).inCore (.handBack op (-ebusy)) (.finishing ready)
  | _ => none

/-- A blocking op of a backend that has a place of its own for them is handed out. -/
def cameBack (s : Posix) (op : Slot) (res : Int32) : Out :=
  match s.back with
  | .finishing ready =>
    if op ∈ s.away then
      inCore { s with away := s.away.erase op } (.handBack op res) (.finishing ready)
    else none
  | _ => none

def waitReturns (s : Posix) : Out :=
  match s.core.pc, s.back with
  | .wait _ _ done, .finishing ready =>
    if ready = [] ∨ s.core.ring.opPoolN ≤ done.length then s.inCore .waitReturn .core else none
  | _, _ => none

def workerTake (s : Posix) : Out :=
  match s.worker, s.core.ring.wqHead with
  | .idle, some op => quiet { s.setRing (s.core.ring.workerPop op) with worker := .running op }
  | _, _ => none

/-- The blocking call returns, and the ticket of a linked op goes up. -/
def workerFinish (s : Posix) (res : Int32) : Out :=
  match s.worker with
  | .running op =>
    let stalls := (s.core.ring.opPool op).stallsQueue
    andThen ({ s with worker := .finished op res }.inCore (.offFinish op res stalls) s.back) fun s' =>
      if stalls then
        some ([.ticket (s'.core.ring.opPool op).seq s'.core.ring.blockedFailed], s')
      else s'.quiet
  | _ => none

/-- The worker posts, whoever holds the op by now. -/
def workerPost (s : Posix) (reads : List ℕ) : Out :=
  match s.worker with
  | .finished op res =>
    some ((s.core.gives op res).map .core,
      { s with
        core := { s.core.setHand op .none with
          ring := s.core.ring.inVault (·.slipEnginePost op res reads) }
        worker := .posted })
  | _ => none

/-- A step of the engine itself. -/
def engineStep (s : Posix) (l : CoreLabel) : Out :=
  if l.isEngine then
    andThen (s.inCore l s.back) fun s' =>
      match l with
      | .settle _ =>
        if s.core.ring.blocking ≠ none ∧ s'.core.ring.blocking = none then
          some ([.settles s.blockSeq s'.core.ring.chainFailed], s')
        else s'.quiet
      | _ => s'.quiet
  else none

def out (s : Posix) : PosixLabel → Out
  | .engine l => s.engineStep l
  | .tries a armed links reads =>
    if s.back = .core then s.execute a armed links reads else s.retry a armed links reads
  | .pending => s.inCore .execPending .core
  | .cancel links reads => s.cancelStep links reads
  | .wake reported ready => s.wake reported ready
  | .drain => s.drain
  | .ready links => s.nextReady links
  | .cameBack op res => s.cameBack op res
  | .back => s.waitReturns
  | .fail => if s.back = .core then s.inCore .waitFail .core else none
  | .workerTake => s.workerTake
  | .workerFinish res => s.workerFinish res
  | .workerPost reads => s.workerPost reads
  | .workerPoke =>
    if s.worker = .posted then
      (slipPosixPoke s.pipe).bind fun p => quiet { s with pipe := p, worker := .idle }
    else none
  | .senderEmit u res reads =>
    quiet { s.setRing (s.core.ring.inVault (·.slipEngineEmit u res 0 reads)) with
      senders := s.senders + 1 }
  | .senderPoke =>
    if 0 < s.senders then
      (slipPosixPoke s.pipe).bind fun p => quiet { s with pipe := p, senders := s.senders - 1 }
    else none
  -- a write that would block comes back from a signal with nothing written
  | .interrupted worker =>
    if (slipPosixPoke s.pipe).isSome then none
    else if worker then if s.worker = .posted then quiet { s with worker := .idle } else none
    else if 0 < s.senders then quiet { s with senders := s.senders - 1 } else none
  | .table l => quiet (s.setRing (s.core.ring.tableStep l).1)

end Posix

def posixMachine : Machine Posix PosixLabel PosixEvent where
  step s l := (s.out l).map Prod.snd
  events s l := ((s.out l).map Prod.fst).getD []

/-- A ring as setup leaves it. -/
def setupPosix (n : ℕ) (cqEntries : UInt32) (submitBlocking : Bool) (capacity : ℕ)
    (holds : 0 < capacity) : Posix where
  core := setupCore n cqEntries
  submitBlocking := submitBlocking
  pipe := slipPosixCtlOpen capacity holds

end SlipstreamIO.Engine
