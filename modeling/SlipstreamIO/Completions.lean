import SlipstreamIO.EngineState

/-! Where ops come from and where completions go: `op_alloc`, `op_release`, the CQ, the backlog,
`slip_engine_post` and `slip_engine_emit`. Each function here runs under `mtx`.

The caller moves `khead` on its own at any time. A function that looks at the CQ's room takes a
list `reads` of how many CQEs the caller reads just before each look (none when the list ends). -/
namespace SlipstreamIO.Engine

open ThreadedList

def packRes (res : Int32) : UInt64 := res.toUInt32.toUInt64

def unpackRes (u : UInt64) : Int32 := u.toUInt32.toInt32

theorem unpackRes_packRes (res : Int32) : unpackRes (packRes res) = res := by
  simp [unpackRes, packRes]

namespace Vault

def opAllocLocked (v : Vault) : Option (Slot × Vault) :=
  match v.opFree with
  | none => none
  | some op => some (op, { v with opFree := v.next op }.setOp op {})

def opRelease (v : Vault) (op : Slot) : Vault :=
  { v.setNext op v.opFree with opFree := some op }

def cqAvail (v : Vault) : UInt32 := v.cq.tail - v.cq.head

def cqRoom (v : Vault) : Bool := v.cqAvail < v.cqEntries

/-- The entry a free-running index names: `i & ring_mask`. -/
def cqIndex (v : Vault) (i : UInt32) : ℕ := (i &&& (v.cqEntries - 1)).toNat

/-- The caller reads up to `k` CQEs and moves `khead` past them, never beyond the tail. -/
def callerReads (v : Vault) (k : ℕ) : Vault :=
  { v with cq := { v.cq with
      head := v.cq.head + UInt32.ofNat (min k v.cqAvail.toNat)
      seen := v.cq.seen ++ (List.range (min k v.cqAvail.toNat)).map
        (fun i => v.cq.cqes (v.cqIndex (v.cq.head + UInt32.ofNat i))) } }

/-- `owner` is ghost: the accepted SQE the CQE answers. -/
def postLocked (v : Vault) (owner : Option ℕ) (userData : UInt64) (res : Int32)
    (flags : UInt32) : Vault :=
  { v with cq := { v.cq with
      cqes := fun i => if i = v.cqIndex v.cq.tail then ⟨userData, res, flags⟩ else v.cq.cqes i
      tail := v.cq.tail + 1
      log := v.cq.log ++ [(owner, ⟨userData, res, flags⟩)] } }

/-- Post the head of the backlog and release it. -/
def drainOne (v : Vault) (op : Slot) : Vault :=
  let o := v.opPool op
  ({ v with
      backlogHead := o.next
      backlogTail := if o.next = none then none else v.backlogTail }.postLocked
    o.seq o.sqe.userData (unpackRes o.sqe.pad2) o.cqeFlags).opRelease op

/-- The while loop of `drain_backlog_locked`; `fuel` is the pool size, which bounds the backlog.
Also returns what is left of `reads`. -/
def drainBacklogLoop : ℕ → Vault → List ℕ → Vault × List ℕ
  | 0, v, reads => (v, reads)
  | fuel + 1, v, reads =>
    match v.backlogHead with
    | none => (v, reads)
    | some op =>
      let v := v.callerReads (reads.headD 0)
      if v.cqRoom then drainBacklogLoop fuel (v.drainOne op) reads.tail
      else (v, reads.tail)

def drainBacklogLocked (v : Vault) (reads : List ℕ) : Vault × List ℕ :=
  drainBacklogLoop v.opPoolN v reads

/-- The op parks as a finished result: the result rides in `__pad2[0]` of its SQE copy. -/
def backlogLocked (v : Vault) (op : Slot) (res : Int32) : Vault :=
  let o := v.opPool op
  let v := v.setOp op { o with sqe := { o.sqe with pad2 := packRes res }, next := none }
  let v := match v.backlogTail with
    | some t => v.setNext t (some op)
    | none => { v with backlogHead := some op }
  { v with backlogTail := some op, cq := { v.cq with overflow := v.cq.overflow + 1 } }

def slipEnginePost (v : Vault) (op : Slot) (res : Int32) (reads : List ℕ) : Vault :=
  let (v, reads) := v.drainBacklogLocked reads
  let o := v.opPool op
  if 0 ≤ res && o.sqe.flags.cqeSkipSuccess then v.opRelease op
  else
    let v := v.callerReads (reads.headD 0)
    if v.cqRoom then (v.postLocked o.seq o.sqe.userData res o.cqeFlags).opRelease op
    else v.backlogLocked op res

/-- A multishot emission, on a carrier op of its own when the CQ is full. -/
def slipEngineEmit (v : Vault) (userData : UInt64) (res : Int32) (flags : UInt32)
    (reads : List ℕ) : Vault :=
  let (v, reads) := v.drainBacklogLocked reads
  let v := v.callerReads (reads.headD 0)
  if v.cqRoom then v.postLocked none userData res flags
  else
    match v.opAllocLocked with
    | some (carrier, v) =>
      let o := v.opPool carrier
      (v.setOp carrier { o with
        sqe := { o.sqe with userData := userData }, cqeFlags := flags }).backlogLocked carrier res
    | none => { v with cq := { v.cq with overflow := v.cq.overflow + 1 } }

end Vault

end SlipstreamIO.Engine
