import SlipstreamIO.Completions
import SlipstreamIO.Runs

/-! `slipstream_engine_enter` and `process_queue` over an arbitrary backend: one step for each
stretch of the submitter that holds `mtx` at most once, one for each thing a backend does. -/
namespace SlipstreamIO.Engine

open ThreadedList Runs

/-- One call of enter. `entries` are the SQEs between `sq->head` and the tail it loads, at most
`to_submit` of them; `none` is an index past the array. -/
structure Call where
  entries : List (Option Sqe) := []
  minComplete : UInt32 := 0
  getevents : Bool := false
  hasDeadline : Bool := false
  deriving DecidableEq

/-- The locals of enter once the SQEs are taken; `looped` once `be->wait` was called. -/
structure Frame where
  call : Call
  submitted : ℕ
  looped : Bool := false
  deriving DecidableEq

/-- Where the submitter stands. -/
inductive Pc where
  | out (ret : Option Int32)
  | take (call : Call) (rest : List (Option Sqe)) (submitted : ℕ) (batchHead batchTail : Option Slot)
  | queue (f : Frame)
  | exec (f : Frame) (op : Slot) (linked taken : Bool)
  | post (f : Frame) (op : Slot) (res : Int32)
  | settle (f : Frame)
  | check (f : Frame)
  | wait (f : Frame) (forever : Bool) (done : List (Slot × Int32))
  | complete (f : Frame) (done : List (Slot × Int32))
  deriving DecidableEq

/-- How the backend holds an op: not, until it finishes, or finished off the engine thread and
still to be posted. -/
inductive Hold where
  | none
  | held
  | off (res : Int32)
  deriving DecidableEq

/-- What a step reports. `i` and `c` number the SQEs in the order enter accepted them; a `take`
carries the cancel's SQE and the target's as they stand in the ops. -/
inductive Event where
  | accept (i : ℕ) (sqe : Sqe)
  | start (i : ℕ)
  | result (i : ℕ) (res : Int32)
  | cancel (i : ℕ) (quiet : Bool)
  | take (c i : ℕ) (cancel target : Sqe)
  | give (i : ℕ) (cqe : Option Cqe)
  deriving DecidableEq

namespace Ring

def linked (r : Ring) (op : Slot) : Bool := (r.opPool op).sqe.flags.ioLink

def slipFixedLookup (r : Ring) (slot : Int32) : Int32 :=
  match r.fixed with
  | none => -ebadf
  | some fixed =>
    if slot < 0 then -ebadf
    else
      match fixed[slot.toInt.toNat]? with
      | none => -ebadf
      | some fd => if fd < 0 then -ebadf else fd

/-- `complete`: the chain's standing first, then the post. -/
def complete (r : Ring) (op : Slot) (res : Int32) (reads : List ℕ) : Ring :=
  let r :=
    if r.blocking = some op then
      { r with
        blocking := none
        chainFailed := if res < 0 then slipChainFailureOf (r.opPool op) else r.chainFailed }
    else if res < 0 && r.linked op then
      { r with chainFailed := slipChainFailureOf (r.opPool op) }
    else r
  r.inVault (·.slipEnginePost op res reads)

def cancelTarget (r : Ring) (t : Slot) (reads : List ℕ) : Ring :=
  let r :=
    if r.blocking = some t then
      { r with blocking := none, chainFailed := slipChainFailureOf (r.opPool t) }
    else if r.linked t then { r with chainFailed := slipChainFailureOf (r.opPool t) }
    else r
  r.inVault (·.slipEnginePost t (-ecanceled) reads)

def settleWorkerTicket (r : Ring) (reads : List ℕ) : Ring :=
  let r :=
    if r.blockedDone ≠ none ∧ r.blockedDone = r.blocking then
      if r.blockedFailed ≠ .holds then
        { r with
          blocking := none
          blockedDone := none
          chainFailed := r.blockedFailed
          blockedFailed := .holds }
      else { r with blocking := none, blockedDone := none }
    else r
  r.inVault (fun v => (v.drainBacklogLocked reads).1)

/-- Takes the head off the queue. -/
def popQueue (r : Ring) (op : Slot) : Ring :=
  let next := r.next op
  { r with
    toVault := r.setNext op none
    queueHead := next
    queueTail := if next = none then none else r.queueTail }

/-- The batch from `h` to `t` goes behind the queue. -/
def appendBatch (r : Ring) (h : Slot) (t : Option Slot) : Ring :=
  let r := match r.queueTail with
    | some last => r.inVault (·.setNext last (some h))
    | none => { r with queueHead := some h }
  { r with queueTail := t }

/-- `*p = t->next`, with the tail walked for again when `t` was the last one. -/
def unlinkQueued (r : Ring) (p : Link Slot) (t : Slot) : Ring :=
  let next := r.next t
  let r := match p with
    | .head => { r with queueHead := next }
    | .nextOf x => r.inVault (·.setNext x next)
  if r.queueTail = some t then
    { r with queueTail := walkLast r.next r.opPoolN r.queueHead none }
  else r

end Ring

/-- What `ring_of(s->fd)` says of the target of a MSG_RING. -/
inductive MsgTarget where
  | own
  | other
  | noRing
  deriving DecidableEq

def ioringMsgData : UInt64 := 0

/-- `msg_ring` as far as this ring goes: a message to another ring leaves it alone. -/
def msgRing (r : Ring) (s : Sqe) (target : MsgTarget) (reads : List ℕ) : Ring × Int32 :=
  if s.addr ≠ ioringMsgData then (r, -eopnotsupp)
  else
    match target with
    | .noRing => (r, -ebadf)
    | .own => (r.inVault (·.slipEngineEmit s.off s.len.toInt32 0 reads), 0)
    | .other => (r, 0)

/-- The ring, the submitter, and ghost: what the backend holds and how many SQEs were accepted. -/
structure Core where
  ring : Ring
  pc : Pc := .out none
  hands : Slot → Hold := fun _ => .none
  accepted : ℕ := 0

inductive CoreLabel where
  | enter (call : Call)
  | takeSqe
  | append
  | queueStep (target : MsgTarget) (reads : List ℕ)
  | post (reads : List ℕ)
  | settle (reads : List ℕ)
  | check (left : ℤ)
  | complete (reads : List ℕ)
  | write (r : Ring)
  | execDone (res : Int32)
  | execTake
  | execPending
  | cancelHeld (t : Slot) (reads : List ℕ)
  | cancelQueued (p : Link Slot) (reads : List ℕ)
  | handBack (op : Slot) (res : Int32)
  | waitReturn
  | waitFail
  | offFinish (op : Slot) (res : Int32) (ticket : Bool)
  | offPost (op : Slot) (reads : List ℕ)
  | emit (userData : UInt64) (res : Int32) (flags : UInt32) (reads : List ℕ)
  | read (k : ℕ)

namespace Core

def setHand (s : Core) (op : Slot) (h : Hold) : Core :=
  { s with hands := fun x => if x = op then h else s.hands x }

/-- Where enter goes when `process_queue` returns. -/
def afterQueue (f : Frame) : Pc :=
  if f.looped || (f.call.getevents && 0 < f.call.minComplete) then .settle f
  else .out (some (Int32.ofNat f.submitted))

/-- One turn of the loop that takes SQEs; an empty pool ends it. -/
def takeSqe (s : Core) : Option Core :=
  match s.pc with
  | .take call (entry :: rest) submitted batchHead batchTail =>
    match entry with
    | none =>
      some { s with
        ring := { s.ring with sqDropped := s.ring.sqDropped + 1 }
        pc := .take call rest (submitted + 1) batchHead batchTail }
    | some sqe =>
      match s.ring.opAllocLocked with
      | none => some { s with pc := .take call [] submitted batchHead batchTail }
      | some (op, v) =>
        let v := v.setOp op { v.opPool op with sqe := sqe, seq := some s.accepted }
        let v := match batchTail with
          | some t => v.setNext t (some op)
          | none => v
        let batchHead := if batchTail = none then some op else batchHead
        some { s with
          ring := s.ring.inVault (fun _ => v)
          pc := .take call rest (submitted + 1) batchHead (some op)
          accepted := s.accepted + 1 }
  | _ => none

/-- The batch goes behind the queue, and the queue is processed if there is a batch. -/
def append (s : Core) : Option Core :=
  match s.pc with
  | .take call [] submitted batchHead batchTail =>
    let f : Frame := { call := call, submitted := submitted }
    match batchHead with
    | none => some { s with pc := afterQueue f }
    | some h =>
      some { s with ring := s.ring.appendBatch h batchTail, pc := .queue f }
  | _ => none

/-- One turn of the loop of `process_queue`, to the post or the backend's execute. -/
def queueStep (s : Core) (target : MsgTarget) (reads : List ℕ) : Option Core :=
  match s.pc with
  | .queue f =>
    match s.ring.queueHead with
    | none => some { s with pc := afterQueue f }
    | some op =>
      if s.ring.blocking ≠ none then some { s with pc := afterQueue f }
      else
        let r := s.ring.popQueue op
        let linked := r.linked op
        let o := r.opPool op
        if r.chainFailed ≠ .holds then
          let failed := if linked then r.chainFailed else .holds
          if r.chainFailed = .cancelsQuietly then
            some { s with ring := { r.inVault (·.opRelease op) with chainFailed := failed } }
          else some { s with ring := { r with chainFailed := failed }, pc := .post f op (-ecanceled) }
        else
          let resolves := o.sqe.flags.fixedFile && o.sqe.opcode ≠ .socket && o.sqe.opcode ≠ .nop
          let realfd := r.slipFixedLookup o.sqe.fd
          if resolves && realfd < 0 then
            some { s with
              ring := { r with
                chainFailed := if linked then slipChainFailureOf o else r.chainFailed }
              pc := .post f op (-ebadf) }
          else
            let o := if resolves then
              { o with sqe := { o.sqe with
                fd := realfd, flags := { o.sqe.flags with fixedFile := false } } }
              else o
            let r := r.inVault (·.setOp op o)
            if o.sqe.opcode = .msgRing then
              some { s with
                ring := (msgRing r o.sqe target reads).1
                pc := .post f op (msgRing r o.sqe target reads).2 }
            else some { s with ring := r, pc := .exec f op linked false }
  | _ => none

def post (s : Core) (reads : List ℕ) : Option Core :=
  match s.pc with
  | .post f op res =>
    some { s with ring := s.ring.inVault (·.slipEnginePost op res reads), pc := .queue f }
  | _ => none

def settle (s : Core) (reads : List ℕ) : Option Core :=
  match s.pc with
  | .settle f => some { s with ring := s.ring.settleWorkerTicket reads, pc := .check f }
  | _ => none

/-- `left` is the time to the deadline in milliseconds. -/
def check (s : Core) (left : ℤ) : Option Core :=
  match s.pc with
  | .check f =>
    if f.call.minComplete ≤ s.ring.cqAvail then
      some { s with pc := .out (some (Int32.ofNat f.submitted)) }
    else if f.call.hasDeadline then
      if f.looped || left ≤ 0 then some { s with pc := .out (some (-etime)) }
      else some { s with pc := .wait f false [] }
    else some { s with pc := .wait f true [] }
  | _ => none

/-- One turn of the loop over `done[]`, then back to `process_queue`. -/
def complete (s : Core) (reads : List ℕ) : Option Core :=
  match s.pc with
  | .complete f ((op, res) :: done) =>
    some { s with ring := s.ring.complete op res reads, pc := .complete f done }
  | .complete f [] => some { s with pc := .queue { f with looped := true } }
  | _ => none

/-- The op is done: EXEC_DONE with `res`. -/
def execDone (s : Core) (res : Int32) : Option Core :=
  match s.pc with
  | .exec f op linked false =>
    some { s with
      ring := { s.ring with
        chainFailed := if res < 0 && linked then slipChainFailureOf (s.ring.opPool op)
          else s.ring.chainFailed }
      pc := .post f op res }
  | _ => none

/-- The backend takes the op inside execute; other threads may see it from here on. -/
def execTake (s : Core) : Option Core :=
  match s.pc with
  | .exec f op linked false => some { s.setHand op .held with pc := .exec f op linked true }
  | _ => none

/-- Execute returns EXEC_PENDING. -/
def execPending (s : Core) : Option Core :=
  match s.pc with
  | .exec f op linked true =>
    some { s with
      ring := { s.ring with blocking := if linked then some op else s.ring.blocking }
      pc := .queue f }
  | _ => none

def cancelHeld (s : Core) (t : Slot) (reads : List ℕ) : Option Core :=
  match s.pc with
  | .exec _ _ _ false => some { s.setHand t .none with ring := s.ring.cancelTarget t reads }
  | _ => none

def cancelQueued (s : Core) (p : Link Slot) (reads : List ℕ) : Option Core :=
  match s.pc, p.read s.ring.next s.ring.queueHead with
  | .exec _ _ _ false, some t =>
    some { s with ring := (s.ring.unlinkQueued p t).cancelTarget t reads }
  | _, _ => none

def handBack (s : Core) (op : Slot) (res : Int32) : Option Core :=
  match s.pc with
  | .wait f forever done =>
    some { s.setHand op .none with pc := .wait f forever (done ++ [(op, res)]) }
  | _ => none

def waitReturn (s : Core) : Option Core :=
  match s.pc with
  | .wait f _ done => some { s with pc := .complete f done }
  | _ => none

def waitFail (s : Core) : Option Core :=
  match s.pc with
  | .wait _ _ [] => some { s with pc := .out (some (-ebadf)) }
  | _ => none

/-- An op finishes off the engine thread; with `ticket` it goes up as `blocked_done`. -/
def offFinish (s : Core) (op : Slot) (res : Int32) (ticket : Bool) : Core :=
  let s := s.setHand op (.off res)
  if ticket then
    { s with ring := { s.ring with
      blockedDone := some op
      blockedFailed := if res < 0 then slipChainFailureOf (s.ring.opPool op) else .holds } }
  else s

def offPost (s : Core) (op : Slot) (reads : List ℕ) : Option Core :=
  match s.hands op with
  | .off res =>
    some { s.setHand op .none with ring := s.ring.inVault (·.slipEnginePost op res reads) }
  | _ => none

def step (s : Core) : CoreLabel → Option Core
  | .enter call =>
    match s.pc with
    | .out _ => some { s with pc := .take call call.entries 0 none none }
    | _ => none
  | .takeSqe => s.takeSqe
  | .append => s.append
  | .queueStep target reads => s.queueStep target reads
  | .post reads => s.post reads
  | .settle reads => s.settle reads
  | .check left => s.check left
  | .complete reads => s.complete reads
  | .write r => some { s with ring := r }
  | .execDone res => s.execDone res
  | .execTake => s.execTake
  | .execPending => s.execPending
  | .cancelHeld t reads => s.cancelHeld t reads
  | .cancelQueued p reads => s.cancelQueued p reads
  | .handBack op res => s.handBack op res
  | .waitReturn => s.waitReturn
  | .waitFail => s.waitFail
  | .offFinish op res ticket => some (s.offFinish op res ticket)
  | .offPost op reads => s.offPost op reads
  | .emit userData res flags reads =>
    some { s with ring := s.ring.inVault (·.slipEngineEmit userData res flags reads) }
  | .read k => some { s with ring := s.ring.inVault (·.callerReads k) }

/-- An event about the SQE an op carries. -/
def about (s : Core) (op : Slot) (e : ℕ → Event) : List Event :=
  match (s.ring.opPool op).seq with
  | some i => [e i]
  | none => []

/-- The completion the op gives when it finishes with `res`. -/
def gives (s : Core) (op : Slot) (res : Int32) : List Event :=
  let o := s.ring.opPool op
  s.about op (.give · (if 0 ≤ res && o.sqe.flags.cqeSkipSuccess then none
    else some ⟨o.sqe.userData, res, o.cqeFlags⟩))

/-- The op a cancel takes, and its completion. -/
def takes (s : Core) (c t : Slot) : List Event :=
  match (s.ring.opPool c).seq with
  | some i => s.about t (.take i · (s.ring.opPool c).sqe (s.ring.opPool t).sqe) ++
      s.gives t (-ecanceled)
  | none => s.gives t (-ecanceled)

def queueEvents (s : Core) (target : MsgTarget) (reads : List ℕ) : List Event :=
  match s.pc, s.ring.queueHead with
  | .queue _, some op =>
    if s.ring.blocking ≠ none then []
    else if s.ring.chainFailed = .cancelsQuietly then
      s.about op (.cancel · true) ++ s.about op (.give · none)
    else if s.ring.chainFailed = .cancels then s.about op (.cancel · false)
    else
      match s.queueStep target reads with
      | some ⟨_, .post _ _ res, _, _⟩ => s.about op .start ++ s.about op (.result · res)
      | _ => s.about op .start
  | _, _ => []

def events (s : Core) : CoreLabel → List Event
  | .takeSqe =>
    match s.pc, s.ring.opFree with
    | .take _ (some sqe :: _) _ _ _, some _ => [.accept s.accepted sqe]
    | _, _ => []
  | .queueStep target reads => s.queueEvents target reads
  | .post _ =>
    match s.pc with
    | .post _ op res => s.gives op res
    | _ => []
  | .complete _ =>
    match s.pc with
    | .complete _ ((op, res) :: _) => s.gives op res
    | _ => []
  | .execDone res =>
    match s.pc with
    | .exec _ op _ _ => s.about op (.result · res)
    | _ => []
  | .cancelHeld t _ =>
    match s.pc with
    | .exec _ c _ _ => s.takes c t
    | _ => []
  | .cancelQueued p _ =>
    match s.pc, p.read s.ring.next s.ring.queueHead with
    | .exec _ c _ _, some t => s.takes c t
    | _, _ => []
  | .handBack op res => s.about op (.result · res)
  | .offFinish op res _ => s.about op (.result · res)
  | .offPost op _ =>
    match s.hands op with
    | .off res => s.gives op res
    | _ => []
  | _ => []

end Core

def coreMachine : Machine Core CoreLabel Event := ⟨Core.step, Core.events⟩

/-- The op inside the backend's execute, not yet taken. -/
def Pc.executing : Pc → Option Slot
  | .exec _ op _ false => some op
  | _ => none

def Opcode.cancels : Opcode → Bool
  | .asyncCancel | .pollRemove => true
  | _ => false

/-- A cancel op is inside execute. -/
def Core.cancelling (s : Core) : Prop :=
  ∃ c, s.pc.executing = some c ∧ (s.ring.opPool c).sqe.opcode.cancels = true

/-- What a backend may write on its own: its own fields, and of an op it holds or executes
everything but the SQE. -/
structure BackendWrites (s : Core) (r : Ring) : Prop where
  opPool : ∀ x, s.hands x ≠ .held → s.pc.executing ≠ some x → r.opPool x = s.ring.opPool x
  sqe : ∀ x, (r.opPool x).sqe = (s.ring.opPool x).sqe
  seq : ∀ x, (r.opPool x).seq = (s.ring.opPool x).seq
  opPoolN : r.opPoolN = s.ring.opPoolN
  opFree : r.opFree = s.ring.opFree
  cqEntries : r.cqEntries = s.ring.cqEntries
  cq : r.cq = s.ring.cq
  backlogHead : r.backlogHead = s.ring.backlogHead
  backlogTail : r.backlogTail = s.ring.backlogTail
  queueHead : r.queueHead = s.ring.queueHead
  queueTail : r.queueTail = s.ring.queueTail
  chainFailed : r.chainFailed = s.ring.chainFailed
  blocking : r.blocking = s.ring.blocking
  blockedDone : r.blockedDone = s.ring.blockedDone
  blockedFailed : r.blockedFailed = s.ring.blockedFailed

/-- The `eng_backend` contract: a backend finishes, hands back or cancels only an op it holds, each
once; it cancels while it executes a cancel op, and unlinks an op of the queue from the cell in
front of it; an op finished off the engine thread has its ticket put up exactly when it is linked. -/
def Keeps (s : Core) : CoreLabel → Prop
  | .write r => BackendWrites s r
  | .cancelHeld t _ => s.hands t = .held ∧ s.cancelling
  | .cancelQueued p _ =>
    (p = .head ∨ ∃ x ∈ walk s.ring.next s.ring.opPoolN s.ring.queueHead, p = .nextOf x) ∧
      s.cancelling
  | .handBack op _ => s.hands op = .held
  | .offFinish op _ ticket => s.hands op = .held ∧ ticket = s.ring.linked op
  | _ => True

/-- The contract as a check, on the labels where it can be one. -/
def keepsCheck (s : Core) : CoreLabel → Bool
  | .write _ | .cancelHeld _ _ | .cancelQueued _ _ => false
  | .handBack op _ => s.hands op = .held
  | .offFinish op _ ticket => s.hands op = .held && ticket = s.ring.linked op
  | _ => true

theorem keeps_of_check {s : Core} {l : CoreLabel} (h : keepsCheck s l = true) : Keeps s l := by
  cases l <;> simp_all [keepsCheck, Keeps]

/-- A ring as setup leaves it. -/
def setupCore (n : ℕ) (cqEntries : UInt32) : Core := { ring := { toVault := emptyVault n cqEntries } }

end SlipstreamIO.Engine
