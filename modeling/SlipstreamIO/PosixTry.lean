import SlipstreamIO.ReadyBackends

/-! `slip_posix_try` one answer of the system at a time: what an op emits, what it leaves in the op, and
whether it ran, parks, goes to the worker or asks again. -/
namespace SlipstreamIO.Engine

def ioringAcceptMultishot : UInt16 := 1
def ioringRecvMultishot : UInt16 := 2
def ioringRecvsendBundle : UInt16 := 16
def ioringPollAddMulti : UInt32 := 1
def ioringCqeFBuffer : UInt32 := 1
def ioringCqeFMore : UInt32 := 2
def msgDontwait : UInt32 := 64
def efault : Int32 := 14

/-- What the system answers one turn of a try: a count, a descriptor or its slot, or what is ready, with
the buffer that was taken and the length of a message's header; EAGAIN or a connect under way; an
error; no buffer; a file whose disk has to be waited for. -/
inductive OsAnswer where
  | got (n : Int32) (bid : UInt16) (header : Int32)
  | again
  | failed (errno : Int32)
  | noBuffer (rc : Int32)
  | disk
  deriving DecidableEq

def OsAnswer.res : OsAnswer → Int32
  | .got n _ _ => n
  | .again | .disk => -eagain
  | .failed errno => -errno
  | .noBuffer rc => rc

/-- One turn: the CQE it emits, the op as it leaves it, and the verdict, none when the loop of a
multishot goes round. -/
structure TryTurn where
  emits : Option (Int32 × UInt32) := none
  op : EngOp
  verdict : Option Verdict

namespace EngOp
variable (o : EngOp)

def ran (res : Int32) : TryTurn := { op := o, verdict := some (.ran res) }

def parks (events : UInt16) : TryTurn :=
  { op := { o with waitEvents := events }, verdict := some (.park events) }

def emits (res : Int32) (flags : UInt32) : TryTurn :=
  { emits := some (res, flags ||| ioringCqeFMore), op := o, verdict := none }

/-- The flags of a CQE that names a buffer. -/
def bufferFlags (bid : UInt16) : UInt32 :=
  if o.sqe.flags.bufferSelect then ioringCqeFBuffer ||| (bid.toUInt32 <<< 16) else 0

/-- An op that parks when the call would block. -/
def once (events : UInt16) (a : OsAnswer) : TryTurn :=
  if a = .again then o.parks events else o.ran a.res

/-- The same for the socket calls, which the caller may ask not to wait. -/
def onceUnlessDontwait (events : UInt16) (a : OsAnswer) : TryTurn :=
  if o.sqe.opFlags &&& msgDontwait ≠ 0 then o.ran a.res else o.once events a

def runAcceptMultishot (a : OsAnswer) : TryTurn :=
  match a with
  | .again => o.parks pollIn
  | .got answer _ _ => if answer < 0 then o.ran answer else o.emits answer 0
  | _ => o.ran a.res

def runRecvMultishot (a : OsAnswer) : TryTurn :=
  match a with
  | .again => o.parks pollIn
  | .got n bid _ => if 0 < n then o.emits n (o.bufferFlags bid) else o.ran n
  | _ => o.ran a.res

def runRecvmsgMultishot (a : OsAnswer) : TryTurn :=
  if o.sqe.addr = 0 then o.ran (-efault)
  else if !o.sqe.flags.bufferSelect then o.ran (-eopnotsupp)
  else
    match a with
    | .again => o.parks pollIn
    | .got n bid header =>
      if 0 < n then o.emits (header + n) (o.bufferFlags bid)
      else if n = 0 then { o with cqeFlags := o.bufferFlags bid }.ran header
      else o.ran n
    | _ => o.ran a.res

def runRecv (a : OsAnswer) : TryTurn :=
  match a with
  | .got n bid _ => if 0 < n then { o with cqeFlags := o.bufferFlags bid }.ran n else o.ran n
  | .noBuffer rc => o.ran rc
  | _ => o.onceUnlessDontwait pollIn a

/-- What is ready is emitted, if anything is, and the op parks again in any case. -/
def runPollMultishot (a : OsAnswer) : TryTurn :=
  let want := o.sqe.opFlags.toUInt16
  if a.res ≠ 0 then
    { o.parks want with emits := some (a.res.toUInt32.toUInt16.toUInt32.toInt32, ioringCqeFMore) }
  else o.parks want

def runPoll (a : OsAnswer) : TryTurn :=
  if a.res ≠ 0 then o.ran a.res.toUInt32.toUInt16.toUInt32.toInt32 else o.parks o.sqe.opFlags.toUInt16

/-- `.disk` is the Unix peer whose backlog is full. -/
def tryConnect (a : OsAnswer) : TryTurn :=
  if o.connectInProgress then
    if o.socketError ≠ 0 then o.ran (-o.socketError)
    else o.once pollOut a
  else
    match a with
    | .again => { o with connectInProgress := true }.parks pollOut
    | .disk => { op := o, verdict := some .file }
    | _ => o.ran a.res

def readOrWrite (events : UInt16) (a : OsAnswer) : TryTurn :=
  if a = .disk then { op := o, verdict := some .file } else o.once events a

/-- The op is one that goes on after a CQE. -/
def multishot : Bool :=
  match o.sqe.opcode with
  | .accept => o.sqe.ioprio &&& ioringAcceptMultishot ≠ 0
  | .recv => o.sqe.ioprio &&& ioringRecvsendBundle = 0 && o.sqe.ioprio &&& ioringRecvMultishot ≠ 0
  | .recvmsg => o.sqe.ioprio &&& ioringRecvMultishot ≠ 0
  | .pollAdd => o.sqe.len &&& ioringPollAddMulti ≠ 0
  | _ => false

/-- One turn of `slip_posix_try`. -/
def slipPosixTry (a : OsAnswer) : TryTurn :=
  match o.sqe.opcode with
  | .nop => o.ran 0
  | .recv =>
    if o.sqe.ioprio &&& ioringRecvsendBundle ≠ 0 then o.ran (-eopnotsupp)
    else if o.sqe.ioprio &&& ioringRecvMultishot ≠ 0 then o.runRecvMultishot a
    else o.runRecv a
  | .send | .sendmsg => o.onceUnlessDontwait pollOut a
  | .read => o.readOrWrite pollIn a
  | .write => o.readOrWrite pollOut a
  | .accept =>
    if o.sqe.ioprio &&& ioringAcceptMultishot ≠ 0 then o.runAcceptMultishot a else o.once pollIn a
  | .recvmsg =>
    if o.sqe.ioprio &&& ioringRecvMultishot ≠ 0 then o.runRecvmsgMultishot a
    else o.onceUnlessDontwait pollIn a
  | .pollAdd => if o.sqe.len &&& ioringPollAddMulti ≠ 0 then o.runPollMultishot a else o.runPoll a
  | .connect => o.tryConnect a
  | .openat | .openat2 => { op := o, verdict := some .file }
  | .socket => if o.sqe.opFlags ≠ 0 then o.ran (-einval) else o.ran a.res
  | .close | .bind | .listen | .shutdown | .statx | .unlinkat | .uringCmd => o.ran a.res
  | .pollRemove | .asyncCancel | .msgRing | .other _ => o.ran (-eopnotsupp)

/-! ### What every turn keeps -/

/-- What a try keeps of the op, and the flags it can leave for the op's own CQE. -/
structure Tried (o o' : EngOp) : Prop where
  sqe : o'.sqe = o.sqe
  next : o'.next = o.next
  seq : o'.seq = o.seq
  stallsQueue : o'.stallsQueue = o.stallsQueue
  waitSlot : o'.waitSlot = o.waitSlot
  cqeFlags : o'.cqeFlags = o.cqeFlags ∨ ∃ bid, o'.cqeFlags = o.bufferFlags bid

/-- What a turn is: it keeps the op, emits for a multishot only and with F_MORE, and sends no
multishot to the worker. -/
structure Turn (o : EngOp) (t : TryTurn) : Prop where
  tried : o.Tried t.op
  more : ∀ c ∈ t.emits, o.multishot = true ∧ c.2 &&& ioringCqeFMore ≠ 0
  file : t.verdict = some .file → o.multishot = false

section Turns
variable {o : EngOp}

theorem Tried.refl (o : EngOp) : o.Tried o := ⟨rfl, rfl, rfl, rfl, rfl, .inl rfl⟩

/-- A turn that emits nothing and does not go to the worker. -/
theorem Turn.silent {t : TryTurn} (htried : o.Tried t.op) (he : t.emits = none)
    (hv : t.verdict ≠ some .file) : o.Turn t := by
  refine ⟨htried, fun c hc => ?_, fun h => absurd h hv⟩
  rw [he] at hc
  exact absurd hc (Option.not_mem_none _)

theorem turn_ran (o : EngOp) (res : Int32) : o.Turn (o.ran res) := .silent (.refl o) rfl nofun

theorem turn_parks (o : EngOp) (events : UInt16) : o.Turn (o.parks events) :=
  .silent ⟨rfl, rfl, rfl, rfl, rfl, .inl rfl⟩ rfl nofun

theorem turn_ran_flagged (o : EngOp) (bid : UInt16) (res : Int32) :
    o.Turn (EngOp.ran { o with cqeFlags := o.bufferFlags bid } res) :=
  .silent ⟨rfl, rfl, rfl, rfl, rfl, .inr ⟨bid, rfl⟩⟩ rfl nofun

theorem turn_once (o : EngOp) (events : UInt16) (a : OsAnswer) : o.Turn (o.once events a) := by
  unfold once
  split
  · exact turn_parks o events
  · exact turn_ran o _

theorem turn_onceUnlessDontwait (o : EngOp) (events : UInt16) (a : OsAnswer) :
    o.Turn (o.onceUnlessDontwait events a) := by
  unfold onceUnlessDontwait
  split
  · exact turn_ran o _
  · exact turn_once o events a

theorem turn_file (hm : o.multishot = false) : o.Turn { op := o, verdict := some .file } :=
  ⟨.refl o, fun _ h => absurd h (Option.not_mem_none _), fun _ => hm⟩

theorem turn_readOrWrite (hm : o.multishot = false) (events : UInt16) (a : OsAnswer) :
    o.Turn (o.readOrWrite events a) := by
  unfold readOrWrite
  split
  · exact turn_file hm
  · exact turn_once o events a

theorem or_more_and_more (flags : UInt32) : (flags ||| ioringCqeFMore) &&& ioringCqeFMore ≠ 0 := by
  have habs : (flags ||| ioringCqeFMore) &&& ioringCqeFMore = ioringCqeFMore := by
    apply UInt32.toBitVec_inj.mp
    ext i hi
    simp only [UInt32.toBitVec_and, UInt32.toBitVec_or, BitVec.getElem_and, BitVec.getElem_or]
    cases flags.toBitVec[i] <;> simp
  rw [habs]
  decide

theorem bufferFlags_final (o : EngOp) (bid : UInt16) : o.bufferFlags bid &&& ioringCqeFMore = 0 := by
  unfold bufferFlags
  split
  · apply UInt32.toBitVec_inj.mp
    ext i hi
    simp only [UInt32.toBitVec_and, UInt32.toBitVec_or, UInt32.toBitVec_shiftLeft, BitVec.getElem_and,
      BitVec.getElem_or, UInt16.toBitVec_toUInt32]
    -- F_MORE is bit 1, below the buffer's id and above F_BUFFER
    by_cases h1 : i = 1
    · subst h1
      simp [ioringCqeFBuffer]
    · have hbits : ∀ j < 32, j ≠ 1 → ioringCqeFMore.toBitVec.getLsbD j = false := by decide
      have hbit := hbits i hi h1
      rw [BitVec.getLsbD_eq_getElem hi] at hbit
      rw [hbit, Bool.and_false]
      simp
  · rfl

theorem turn_emits (hm : o.multishot = true) (res : Int32) (flags : UInt32) :
    o.Turn (EngOp.emits o res flags) := by
  refine ⟨.refl o, fun c hc => ⟨hm, ?_⟩, nofun⟩
  cases hc
  exact or_more_and_more flags

theorem turn_runAcceptMultishot (hm : o.multishot = true) (a : OsAnswer) :
    o.Turn (o.runAcceptMultishot a) := by
  unfold runAcceptMultishot
  split
  · exact turn_parks o _
  · split
    · exact turn_ran o _
    · exact turn_emits hm _ _
  · exact turn_ran o _

theorem turn_runRecvMultishot (hm : o.multishot = true) (a : OsAnswer) :
    o.Turn (o.runRecvMultishot a) := by
  unfold runRecvMultishot
  split
  · exact turn_parks o _
  · split
    · exact turn_emits hm _ _
    · exact turn_ran o _
  · exact turn_ran o _

theorem turn_runRecvmsgMultishot (hm : o.multishot = true) (a : OsAnswer) :
    o.Turn (o.runRecvmsgMultishot a) := by
  unfold runRecvmsgMultishot
  split
  · exact turn_ran o _
  split
  · exact turn_ran o _
  split
  · exact turn_parks o _
  · split
    · exact turn_emits hm _ _
    split
    · exact turn_ran_flagged o _ _
    · exact turn_ran o _
  · exact turn_ran o _

theorem turn_runRecv (o : EngOp) (a : OsAnswer) : o.Turn (o.runRecv a) := by
  unfold runRecv
  split
  · split
    · exact turn_ran_flagged o _ _
    · exact turn_ran o _
  · exact turn_ran o _
  · exact turn_onceUnlessDontwait o _ _

theorem turn_runPollMultishot (hm : o.multishot = true) (a : OsAnswer) :
    o.Turn (o.runPollMultishot a) := by
  unfold runPollMultishot
  dsimp only
  split
  · refine ⟨(turn_parks o _).tried, fun c hc => ⟨hm, ?_⟩, nofun⟩
    cases hc
    exact or_more_and_more 0
  · exact turn_parks o _

theorem turn_runPoll (o : EngOp) (a : OsAnswer) : o.Turn (o.runPoll a) := by
  unfold runPoll
  split
  · exact turn_ran o _
  · exact turn_parks o _

theorem turn_tryConnect (hm : o.multishot = false) (a : OsAnswer) : o.Turn (o.tryConnect a) := by
  unfold tryConnect
  split
  · split
    · exact turn_ran o _
    · exact turn_once o _ a
  split
  · exact .silent ⟨rfl, rfl, rfl, rfl, rfl, .inl rfl⟩ rfl nofun
  · exact turn_file hm
  · exact turn_ran o _

theorem slipPosixTry_turn (o : EngOp) (a : OsAnswer) : o.Turn (o.slipPosixTry a) := by
  unfold slipPosixTry
  cases hcode : o.sqe.opcode with
  | recv =>
    dsimp only
    split
    · exact turn_ran o _
    next hbundle =>
    split
    · next hmulti =>
      apply turn_runRecvMultishot
      simp [multishot, hcode, not_not.mp hbundle, hmulti]
    · exact turn_runRecv o a
  | accept =>
    dsimp only
    split
    · next hmulti =>
      apply turn_runAcceptMultishot
      simp [multishot, hcode, hmulti]
    · exact turn_once o _ a
  | recvmsg =>
    dsimp only
    split
    · next hmulti =>
      apply turn_runRecvmsgMultishot
      simp [multishot, hcode, hmulti]
    · exact turn_onceUnlessDontwait o _ a
  | pollAdd =>
    dsimp only
    split
    · next hmulti =>
      apply turn_runPollMultishot
      simp [multishot, hcode, hmulti]
    · exact turn_runPoll o a
  | read | write => exact turn_readOrWrite (by simp [multishot, hcode]) _ a
  | connect => exact turn_tryConnect (by simp [multishot, hcode]) a
  | openat | openat2 => exact turn_file (by simp [multishot, hcode])
  | send | sendmsg => exact turn_onceUnlessDontwait o _ a
  | socket =>
    dsimp only
    split <;> exact turn_ran o _
  | nop | close | bind | listen | shutdown | statx | unlinkat | uringCmd | pollRemove | asyncCancel
  | msgRing | other code => exact turn_ran o _

end Turns

end EngOp

end SlipstreamIO.Engine
