import SlipstreamIO.ThreadedList
import Mathlib.Data.UInt

/-! The data of one ring: the SQE as the engine copies it, the op, the op vault with the CQ and
its backlog, and the ring itself. -/
namespace SlipstreamIO.Engine

open ThreadedList

inductive Opcode where
  | nop | read | write | recv | send | recvmsg | sendmsg | accept | connect | socket | bind
  | listen | shutdown | close | pollAdd | pollRemove | asyncCancel | statx | unlinkat | openat
  | openat2 | uringCmd | msgRing
  | other (code : UInt8)
  deriving DecidableEq, Repr

/-- The bits of `sqe->flags` the engine reads. -/
structure SqeFlags where
  fixedFile : Bool := false
  ioLink : Bool := false
  bufferSelect : Bool := false
  cqeSkipSuccess : Bool := false
  deriving DecidableEq, Repr

/-- `opFlags` is the union that carries `msg_flags`, `poll32_events`, `cancel_flags` and the
like; `pad2` is `__pad2[0]`. -/
structure Sqe where
  opcode : Opcode := .nop
  flags : SqeFlags := {}
  ioprio : UInt16 := 0
  fd : Int32 := 0
  off : UInt64 := 0
  addr : UInt64 := 0
  len : UInt32 := 0
  opFlags : UInt32 := 0
  userData : UInt64 := 0
  fileIndex : UInt32 := 0
  pad2 : UInt64 := 0
  deriving DecidableEq, Repr

/-- Ops are slots of the ring's `op_pool`, named by their index. -/
abbrev Slot := ℕ

/-- A submitted op. `seq` is ghost: which accepted SQE the op carries (none for a slot that
carries an emission), read by no code. -/
structure EngOp where
  sqe : Sqe := {}
  next : Option Slot := none
  waitEvents : UInt16 := 0
  connectInProgress : Bool := false
  socketError : Int32 := 0
  waitSlot : ℕ := 0
  stallsQueue : Bool := false
  cqeFlags : UInt32 := 0
  seq : Option ℕ := none
  deriving DecidableEq, Repr

def ecanceled : Int32 := 125
def ebadf : Int32 := 9
def eopnotsupp : Int32 := 95
def einval : Int32 := 22
def etime : Int32 := 62
def enoent : Int32 := 2
def ealready : Int32 := 114
def ebusy : Int32 := 16
def enxio : Int32 := 6
def enfile : Int32 := 23
def eagain : Int32 := 11
def einprogress : Int32 := 115

/-- The SLIP_CHAIN_ values: how a failed op leaves the rest of its chain. -/
inductive ChainFailed where
  | holds
  | cancels
  | cancelsQuietly
  deriving DecidableEq, Repr

structure Cqe where
  userData : UInt64
  res : Int32
  flags : UInt32
  deriving DecidableEq, Repr

/-- The CQ ring. `log` and `seen` are ghost: every CQE ever stored, with the accepted SQE it
answers, and the CQEs the caller has read. -/
structure CqRing where
  head : UInt32 := 0
  tail : UInt32 := 0
  overflow : UInt32 := 0
  cqes : ℕ → Cqe := fun _ => ⟨0, 0, 0⟩
  log : List (Option ℕ × Cqe) := []
  seen : List Cqe := []

/-- The part of the ring a completion touches under `mtx`: the op pool with its free list, the
CQ, and the backlog of completions the CQ had no room for. -/
structure Vault where
  opPool : Slot → EngOp
  opPoolN : ℕ
  opFree : Option Slot
  cqEntries : UInt32
  cq : CqRing
  backlogHead : Option Slot
  backlogTail : Option Slot

namespace Vault

def setOp (v : Vault) (s : Slot) (o : EngOp) : Vault :=
  { v with opPool := fun t => if t = s then o else v.opPool t }

def next (v : Vault) (s : Slot) : Option Slot := (v.opPool s).next

def setNext (v : Vault) (s : Slot) (p : Option Slot) : Vault :=
  v.setOp s { v.opPool s with next := p }

def linked (v : Vault) (s : Slot) : Bool := (v.opPool s).sqe.flags.ioLink

@[simp] theorem setOp_opPool (v : Vault) (s t : Slot) (o : EngOp) :
    (v.setOp s o).opPool t = if t = s then o else v.opPool t := rfl

@[simp] theorem setOp_setOp (v : Vault) (s : Slot) (o o' : EngOp) :
    (v.setOp s o).setOp s o' = v.setOp s o' := by
  unfold setOp
  congr 1
  funext t
  by_cases h : t = s <;> simp [h]

@[simp] theorem setOp_opPoolN (v : Vault) (s : Slot) (o : EngOp) :
    (v.setOp s o).opPoolN = v.opPoolN := rfl

@[simp] theorem setOp_opFree (v : Vault) (s : Slot) (o : EngOp) :
    (v.setOp s o).opFree = v.opFree := rfl

@[simp] theorem setOp_cqEntries (v : Vault) (s : Slot) (o : EngOp) :
    (v.setOp s o).cqEntries = v.cqEntries := rfl

@[simp] theorem setOp_cq (v : Vault) (s : Slot) (o : EngOp) : (v.setOp s o).cq = v.cq := rfl

@[simp] theorem setOp_backlogHead (v : Vault) (s : Slot) (o : EngOp) :
    (v.setOp s o).backlogHead = v.backlogHead := rfl

@[simp] theorem setOp_backlogTail (v : Vault) (s : Slot) (o : EngOp) :
    (v.setOp s o).backlogTail = v.backlogTail := rfl

@[simp] theorem setNext_next (v : Vault) (s t : Slot) (p : Option Slot) :
    (v.setNext s p).next t = if t = s then p else v.next t := by
  unfold next setNext
  rw [setOp_opPool]
  split <;> rfl

@[simp] theorem setNext_opPoolN (v : Vault) (s : Slot) (p : Option Slot) :
    (v.setNext s p).opPoolN = v.opPoolN := rfl

theorem setNext_opPool (v : Vault) (s t : Slot) (p : Option Slot) :
    (v.setNext s p).opPool t = { v.opPool t with next := (v.setNext s p).next t } := by
  simp only [setNext, next, setOp_opPool]
  split
  · next h => rw [h]
  · rfl

end Vault

/-- One ring, as far as the modelled functions read it. -/
structure Ring extends Vault where
  sqDropped : UInt32 := 0
  wqHead : Option Slot := none
  wqTail : Option Slot := none
  blockedDone : Option Slot := none
  blockedFailed : ChainFailed := .holds
  queueHead : Option Slot := none
  queueTail : Option Slot := none
  waiting : List Slot := []
  chainFailed : ChainFailed := .holds
  blocking : Option Slot := none
  fixed : Option (List Int32) := none
  allocOff : ℕ := 0
  allocLen : ℕ := 0
  allocHint : ℕ := 0
  workerLive : Bool := false

namespace Ring

/-- A change of the vault alone. -/
def inVault (r : Ring) (f : Vault → Vault) : Ring := { r with toVault := f r.toVault }

@[simp] theorem inVault_toVault (r : Ring) (f : Vault → Vault) :
    (r.inVault f).toVault = f r.toVault := rfl

end Ring

def slipChainFailureOf (o : EngOp) : ChainFailed :=
  if o.sqe.flags.cqeSkipSuccess then .cancelsQuietly else .cancels

/-- The ring setup carves out: every slot free, both rings empty. -/
def emptyVault (n : ℕ) (cqEntries : UInt32) : Vault where
  opPool := fun s => { next := if s + 1 < n then some (s + 1) else none }
  opPoolN := n
  opFree := if 0 < n then some 0 else none
  cqEntries := cqEntries
  cq := {}
  backlogHead := none
  backlogTail := none

/-- `round_up_pow2` from `n` on; none when the fuel ends before the loop does. -/
def roundUpLoop : ℕ → UInt32 → UInt32 → Option UInt32
  | 0, _, _ => none
  | fuel + 1, v, n => if n < v then roundUpLoop fuel v (n <<< 1) else some n

def roundUpPow2 (fuel : ℕ) (v : UInt32) : Option UInt32 := roundUpLoop fuel v 1

/-- `r->cq_entries`: as many as were asked for, or twice the SQ's. -/
def cqRounded (fuel : ℕ) (asked sqEntries : UInt32) : Option UInt32 :=
  if asked ≠ 0 then roundUpPow2 fuel asked else some (sqEntries * 2)

end SlipstreamIO.Engine
