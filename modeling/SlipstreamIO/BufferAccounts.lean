import SlipstreamIO.CompletionStream
import SlipstreamIO.CoreFrames
import SlipstreamIO.ProvidedBuffers

/-! What becomes of the provided buffers that RECV and RECVMSG take: each one that stays taken is named by
a CQE, unless its CQE is suppressed or dropped. -/
namespace SlipstreamIO.Engine

open ThreadedList Runs

def enobufs : Int32 := 105

/-- What recv or recvmsg answers: so many bytes, none at the end; EAGAIN; an error. -/
inductive RecvAnswer where
  | got (n : Int32)
  | again
  | failed (errno : Int32)
  deriving DecidableEq

def RecvAnswer.os (bid : UInt16) (header : Int32) : RecvAnswer → OsAnswer
  | .got n => .got n bid header
  | .again => .again
  | .failed errno => .failed errno

/-- One turn's call: the rings behind it, what the try goes on with, and the buffer that stays taken. -/
structure RecvCall where
  bufs : Provided
  answer : OsAnswer
  kept : Option UInt16 := none

namespace EngOp
variable (o : EngOp)

/-- The turn takes a provided buffer. -/
def selects : Bool :=
  match o.sqe.opcode with
  | .recv => o.sqe.ioprio &&& ioringRecvsendBundle = 0 && o.sqe.flags.bufferSelect
  | .recvmsg => o.sqe.ioprio &&& ioringRecvMultishot ≠ 0 && o.sqe.addr ≠ 0 && o.sqe.flags.bufferSelect
  | _ => false

/-- A buffer taken is kept for bytes, and by a multishot recvmsg also at the end. -/
def keeps (a : RecvAnswer) : Bool :=
  match a with
  | .got n => 0 < n || n = 0 && o.sqe.opcode = .recvmsg
  | _ => false

/-- bufring_take, the call, and bufring_unget where nothing came. `header` is the room a multishot recvmsg
needs in front of the payload; a buffer too small for it goes back. -/
def recvCall (p : Provided) (bgid : UInt16) (header : UInt64) (a : RecvAnswer) : RecvCall :=
  if o.selects then
    match p.bufringTake bgid with
    | (p, none) => { bufs := p, answer := .noBuffer (-enobufs) }
    | (p, some buf) =>
      if o.sqe.opcode = .recvmsg && buf.len.toUInt64 < header then
        { bufs := p.bufringUnget bgid, answer := .failed efault }
      else if o.keeps a then
        { bufs := p, answer := a.os buf.bid header.toUInt32.toInt32, kept := some buf.bid }
      else { bufs := p.bufringUnget bgid, answer := a.os buf.bid header.toUInt32.toInt32 }
  else { bufs := p, answer := a.os 0 header.toUInt32.toInt32 }

end EngOp

/-- The engine's pool, CQ and backlog, and the buffer rings. `inUse` are the ops that are not finished,
wherever they are, `done` those finished and not posted yet; `taken` is ghost: the ids of the buffers that
were taken and not given back, in the order of the takes. -/
structure BufEngine where
  vault : Vault
  bufs : Provided := {}
  inUse : List Slot := []
  done : List (Slot × Int32) := []
  taken : List UInt16 := []

/-- A new op, a turn of a RECV or RECVMSG on the buffer group `bgid`, any other end of an op, with a CQE or
without, a post, an emission of something else, and what the caller does. -/
inductive BufEngineLabel where
  | submit (sqe : Sqe)
  | turn (op : Slot) (bgid : UInt16) (header : UInt64) (a : RecvAnswer) (reads : List ℕ)
  | finishes (op : Slot) (res : Int32)
  | drops (op : Slot)
  | post (op : Slot) (res : Int32) (reads : List ℕ)
  | emits (userData : UInt64) (res : Int32) (flags : UInt32) (reads : List ℕ)
  | read (k : ℕ)
  | register (arg : Option BufReg)
  | unregister (arg : Option BufReg)
  | add (addr : UInt64) (entries : UInt32) (buf : Buf)
  deriving DecidableEq

namespace BufEngine
variable (s : BufEngine)

/-- The vault behind a turn: what it emits, and what it leaves in the op. -/
def afterTurn (op : Slot) (t : TryTurn) (reads : List ℕ) : Vault :=
  match t.emits with
  | some (res, flags) =>
    (s.vault.slipEngineEmit (s.vault.opPool op).sqe.userData res flags reads).setOp op t.op
  | none => s.vault.setOp op t.op

def call (op : Slot) (bgid : UInt16) (header : UInt64) (a : RecvAnswer) : RecvCall :=
  (s.vault.opPool op).recvCall s.bufs bgid header a

def tryTurn (op : Slot) (bgid : UInt16) (header : UInt64) (a : RecvAnswer) : TryTurn :=
  (s.vault.opPool op).slipPosixTry (s.call op bgid header a).answer

def turn (op : Slot) (bgid : UInt16) (header : UInt64) (a : RecvAnswer) (reads : List ℕ) : BufEngine :=
  let c := s.call op bgid header a
  let t := s.tryTurn op bgid header a
  let s := { s with
    vault := s.afterTurn op t reads
    bufs := c.bufs
    taken := s.taken ++ c.kept.toList }
  match t.verdict with
  | some (.ran res) => { s with inUse := s.inUse.erase op, done := (op, res) :: s.done }
  | _ => s

def step : BufEngineLabel → Option BufEngine
  | .submit sqe =>
    s.vault.opAllocLocked.map fun (op, v) =>
      { s with vault := v.setOp op { v.opPool op with sqe }, inUse := op :: s.inUse }
  | .turn op bgid header a reads =>
    let opcode := (s.vault.opPool op).sqe.opcode
    if op ∈ s.inUse ∧ (opcode = .recv ∨ opcode = .recvmsg) then some (s.turn op bgid header a reads) else none
  | .finishes op res =>
    if op ∈ s.inUse then some { s with inUse := s.inUse.erase op, done := (op, res) :: s.done } else none
  | .drops op =>
    if op ∈ s.inUse then some { s with vault := s.vault.opRelease op, inUse := s.inUse.erase op } else none
  | .post op res reads =>
    if (op, res) ∈ s.done then
      some { s with vault := s.vault.slipEnginePost op res reads, done := s.done.erase (op, res) }
    else none
  | .emits u res flags reads =>
    if flags &&& ioringCqeFBuffer = 0 then some { s with vault := s.vault.slipEngineEmit u res flags reads }
    else none
  | .read k => some { s with vault := s.vault.callerReads k }
  | .register arg => some { s with bufs := (s.bufs.registerPbufRing arg).1 }
  | .unregister arg => some { s with bufs := (s.bufs.unregisterPbufRing arg).1 }
  | .add addr entries buf => some { s with bufs := s.bufs.callerAdds addr entries buf }

end BufEngine

def bufEngineMachine : Machine BufEngine BufEngineLabel Empty where
  step s l := s.step l
  events _ _ := []

/-- The buffer a CQE names. -/
def Cqe.buffer (c : Cqe) : Option UInt16 :=
  if c.flags &&& ioringCqeFBuffer ≠ 0 then some (c.flags >>> 16).toUInt16 else none

/-- A CQE with a buffer gets out: an emission finds room in the CQ or a free op when it looks, and an op that
ends with a buffer and a count has no IOSQE_CQE_SKIP_SUCCESS. -/
def BuffersTold (s : BufEngine) : BufEngineLabel → Prop
  | .turn op bgid header a reads => ((s.call op bgid header a).kept).isSome →
      match (s.tryTurn op bgid header a).verdict with
      | some (.ran res) => 0 ≤ res → (s.vault.opPool op).sqe.flags.cqeSkipSuccess = false
      | _ => (atOwnLook s.vault reads).cqRoom = true ∨ (atOwnLook s.vault reads).opFree ≠ none
  | _ => True

/-- The CQE a finished op is going to give. -/
def Vault.pending (v : Vault) (p : Slot × Int32) : Cqe :=
  let o := v.opPool p.1
  ⟨o.sqe.userData, p.2, o.cqeFlags⟩

/-- The buffers named in the CQ, whether read or not, in the backlog and in the finished ops. -/
def BufEngine.named (s : BufEngine) (backlog : List Slot) : List UInt16 :=
  ((s.vault.cq.log ++ backlog.map s.vault.entry).map Prod.snd ++ s.done.map s.vault.pending).filterMap Cqe.buffer

/-- The buffers that stay taken are those that CQEs name, each as often as it was taken. A turn moves a head
only for a buffer that stays taken, with bytes or at the end of a multishot recvmsg, which then names it. -/
structure BufEngine.Accounts (s : BufEngine) (backlog : List Slot) : Prop where
  backlogList : IsQueue s.vault.next s.vault.backlogHead s.vault.backlogTail backlog
  told : s.taken.Perm (s.named backlog)
  heads : ∀ op bgid header a reads s', s.step (.turn op bgid header a reads) = some s' →
    s'.taken = s.taken ∧ s'.bufs.bufrings = s.bufs.bufrings ∨
    ∃ buf n, a = .got n ∧ s.bufs.bufringTake bgid = (s'.bufs, some buf) ∧
      s'.taken = s.taken ++ [buf.bid] ∧ (0 < n ∨ n = 0 ∧
        (s.vault.opPool op).sqe.opcode = .recvmsg ∧ ∃ res, (op, res) ∈ s'.done ∧
          (s'.vault.pending (op, res)).buffer = some buf.bid)

section Flags
variable {u : UInt64} {res : Int32} {flags : UInt32} {bid : UInt16}

theorem tagged_toNat (bid : UInt16) (flags : UInt32) :
    ((ioringCqeFBuffer ||| (bid.toUInt32 <<< 16)) ||| flags).toNat =
      (1 ||| bid.toNat <<< 16) ||| flags.toNat := by
  have hlt := bid.toNat_lt
  have hshift : bid.toNat <<< 16 < 2 ^ 32 := by
    rw [Nat.shiftLeft_eq]
    omega
  have h16 : (16 : UInt32).toNat % 32 = 16 := rfl
  rw [UInt32.toNat_or, UInt32.toNat_or, UInt32.toNat_shiftLeft, UInt16.toNat_toUInt32, h16,
    Nat.mod_eq_of_lt hshift]
  rfl

/-- F_BUFFER with an id above bit 16 names that id, whatever flags stand below. -/
theorem buffer_tagged (hlow : flags.toNat < 2 ^ 16) :
    Cqe.buffer ⟨u, res, (ioringCqeFBuffer ||| (bid.toUInt32 <<< 16)) ||| flags⟩ = some bid := by
  have hset : ((ioringCqeFBuffer ||| (bid.toUInt32 <<< 16)) ||| flags) &&& ioringCqeFBuffer ≠ 0 := by
    intro h
    have hbit := congrArg (fun x : UInt32 => x.toNat.testBit 0) h
    simp only [UInt32.toNat_and, tagged_toNat, Nat.testBit_and, Nat.testBit_or] at hbit
    simp [ioringCqeFBuffer] at hbit
  rw [Cqe.buffer, if_pos hset]
  congr 1
  have hlt := bid.toNat_lt
  have h16 : (16 : UInt32).toNat % 32 = 16 := rfl
  have hone : 1 / 2 ^ 16 = 0 := rfl
  apply UInt16.toNat_inj.mp
  rw [UInt32.toNat_toUInt16, UInt32.toNat_shiftRight, h16, tagged_toNat, Nat.shiftRight_or_distrib,
    Nat.shiftRight_or_distrib, Nat.shiftLeft_shiftRight, Nat.shiftRight_eq_div_pow,
    Nat.shiftRight_eq_div_pow, Nat.div_eq_of_lt hlow, Nat.or_zero, hone, Nat.zero_or]
  exact Nat.mod_eq_of_lt hlt

theorem buffer_none (h : flags &&& ioringCqeFBuffer = 0) : Cqe.buffer ⟨u, res, flags⟩ = none :=
  if_neg (not_not.mpr h)

end Flags

section Rings
variable {p p' : Provided} {bgid : UInt16} {buf : Buf} {i : ℕ} {b b' : SlipBufring}

/-- The group's ring is found at its place, whatever its head. -/
theorem slipBufringOf_setRing (h : p.slipBufringOf bgid = some (i, b)) (hb : b'.bgid = bgid) :
    (p.setRing i (some b')).slipBufringOf bgid = some (i, b') := by
  obtain ⟨-, hring, hbgid⟩ := slipBufringOf_some h
  obtain ⟨front, j, rest, hrange, hj, hfront⟩ := List.findSome?_eq_some_iff.mp h
  have hji : j = i := by
    cases hslot : p.bufrings j with
    | none =>
      rw [hslot] at hj
      cases hj
    | some c =>
      simp only [hslot] at hj
      split at hj
      · cases hj
        rfl
      · cases hj
  subst hji
  refine List.findSome?_eq_some_iff.mpr ⟨front, j, rest, hrange, ?_, fun x hx => ?_⟩
  · simp only [Provided.setRing, if_true, hb]
  · have hnone := hfront x hx
    -- the slots in front are others, for they have nothing of the group
    have hne : x ≠ j := by
      rintro rfl
      rw [hring] at hnone
      simp only [if_pos hbgid] at hnone
      cases hnone
    simpa only [Provided.setRing, if_neg hne] using hnone

/-- A buffer given back leaves the rings as they were before it was taken. -/
theorem unget_take (h : p.bufringTake bgid = (p', some buf)) :
    (p'.bufringUnget bgid).bufrings = p.bufrings := by
  unfold Provided.bufringTake at h
  cases hfind : p.slipBufringOf bgid with
  | none =>
    rw [hfind] at h
    cases h
  | some found =>
    obtain ⟨i, b⟩ := found
    obtain ⟨-, hring, hbgid⟩ := slipBufringOf_some hfind
    rw [hfind] at h
    dsimp only at h
    split at h
    · cases h
    cases h
    have hfind' : ((p.setRing i (some { b with head := b.head + 1 })).setLent bgid true).slipBufringOf bgid =
        some (i, { b with head := b.head + 1 }) := slipBufringOf_setRing hfind hbgid
    rw [Provided.bufringUnget, hfind']
    funext j
    simp only [Provided.setLent, Provided.setRing]
    split
    · next hj =>
      rw [hj, hring]
      simp
    · rfl

/-- A take without a buffer leaves the rings alone. -/
theorem take_none (h : p.bufringTake bgid = (p', none)) : p'.bufrings = p.bufrings := by
  unfold Provided.bufringTake at h
  split at h
  · cases h
    rfl
  · split at h
    · cases h
      rfl
    · cases h

end Rings

/-! ### What a turn names -/

/-- The turn names no buffer, neither in what it emits nor in the op. -/
def EngOp.Unnamed (o : EngOp) (t : TryTurn) : Prop :=
  (∀ e ∈ t.emits, e.2 &&& ioringCqeFBuffer = 0) ∧
    (o.cqeFlags &&& ioringCqeFBuffer = 0 → t.op.cqeFlags &&& ioringCqeFBuffer = 0)

/-- The turn gives out a buffer: in an emission, or in the CQE that ends the op. -/
def EngOp.Names (o : EngOp) (n : Int32) (bid : UInt16) (t : TryTurn) : Prop :=
  o.sqe.flags.bufferSelect = true ∧
    (0 < n ∧ (∃ res, t = o.emits res (o.bufferFlags bid)) ∨
      (0 < n ∨ n = 0 ∧ o.sqe.opcode = .recvmsg) ∧
        ∃ res, t = EngOp.ran { o with cqeFlags := o.bufferFlags bid } res)

section Turns
variable {o : EngOp} {p : Provided} {bgid bid : UInt16} {header : UInt64} {a : RecvAnswer} {n : Int32}

theorem unnamed_ran (o : EngOp) (res : Int32) : o.Unnamed (o.ran res) :=
  ⟨fun _ h => absurd h (Option.not_mem_none _), id⟩

theorem unnamed_once (o : EngOp) (events : UInt16) (a : OsAnswer) : o.Unnamed (o.once events a) := by
  unfold EngOp.once
  split
  · exact ⟨fun _ h => absurd h (Option.not_mem_none _), id⟩
  · exact unnamed_ran o _

theorem unnamed_onceUnlessDontwait (o : EngOp) (events : UInt16) (a : OsAnswer) :
    o.Unnamed (o.onceUnlessDontwait events a) := by
  unfold EngOp.onceUnlessDontwait
  split
  · exact unnamed_ran o _
  · exact unnamed_once o events a

theorem bufferFlags_none (h : o.sqe.flags.bufferSelect = false) : o.bufferFlags bid = 0 := by
  rw [EngOp.bufferFlags, h]
  rfl

theorem bufferFlags_select (h : o.sqe.flags.bufferSelect = true) :
    o.bufferFlags bid = (ioringCqeFBuffer ||| (bid.toUInt32 <<< 16)) ||| 0 := by
  rw [EngOp.bufferFlags, h, if_pos rfl, UInt32.or_zero]

/-- Without bytes, or without a buffer of its own, a receive names none. -/
theorem unnamed_recv (hop : o.sqe.opcode = .recv) {answer : OsAnswer}
    (h : o.sqe.flags.bufferSelect = false ∨ o.sqe.ioprio &&& ioringRecvsendBundle ≠ 0 ∨
      ∀ n bid header, answer = .got n bid header → ¬ 0 < n) : o.Unnamed (o.slipPosixTry answer) := by
  unfold EngOp.slipPosixTry
  simp only [hop]
  by_cases hbundle : o.sqe.ioprio &&& ioringRecvsendBundle ≠ 0
  · rw [if_pos hbundle]
    exact unnamed_ran o _
  rw [if_neg hbundle]
  have hflags {n : Int32} {bid : UInt16} {header : Int32} (ha : answer = .got n bid header) (hn : 0 < n) :
      o.bufferFlags bid = 0 := by
    rcases h with h | h | h
    · exact bufferFlags_none h
    · exact absurd h hbundle
    · exact absurd hn (h n bid header ha)
  by_cases hmulti : o.sqe.ioprio &&& ioringRecvMultishot ≠ 0
  · rw [if_pos hmulti]
    unfold EngOp.runRecvMultishot
    cases answer with
    | got n bid header =>
      dsimp only
      split
      · next hn =>
        rw [hflags rfl hn]
        refine ⟨fun e he => ?_, id⟩
        cases he
        exact show (0 ||| ioringCqeFMore) &&& ioringCqeFBuffer = 0 by decide
      · exact unnamed_ran o _
    | again => exact ⟨fun _ h => absurd h (Option.not_mem_none _), id⟩
    | failed | noBuffer | disk => exact unnamed_ran o _
  · rw [if_neg hmulti]
    unfold EngOp.runRecv
    cases answer with
    | got n bid header =>
      dsimp only
      split
      · next hn =>
        rw [hflags rfl hn]
        exact ⟨fun _ h => absurd h (Option.not_mem_none _), fun _ => UInt32.zero_and⟩
      · exact unnamed_ran o _
    | noBuffer => exact unnamed_ran o _
    | again | failed | disk => exact unnamed_onceUnlessDontwait o _ _

theorem unnamed_recvmsg (hop : o.sqe.opcode = .recvmsg) {answer : OsAnswer}
    (h : o.selects = false ∨ ∀ n bid header, answer = .got n bid header → n < 0) :
    o.Unnamed (o.slipPosixTry answer) := by
  unfold EngOp.slipPosixTry
  simp only [hop]
  by_cases hmulti : o.sqe.ioprio &&& ioringRecvMultishot ≠ 0
  swap
  · rw [if_neg hmulti]
    exact unnamed_onceUnlessDontwait o _ _
  rw [if_pos hmulti]
  unfold EngOp.runRecvmsgMultishot
  by_cases haddr : o.sqe.addr = 0
  · rw [if_pos haddr]
    exact unnamed_ran o _
  rw [if_neg haddr]
  by_cases hselect : (!o.sqe.flags.bufferSelect) = true
  · rw [if_pos hselect]
    exact unnamed_ran o _
  rw [if_neg hselect]
  have hneg : ∀ n bid header, answer = .got n bid header → n < 0 := by
    rcases h with h | h
    · rw [Bool.not_eq_true, Bool.not_eq_false'] at hselect
      simp only [EngOp.selects, hop, hselect, decide_eq_true hmulti, decide_eq_true haddr] at h
      cases h
    · exact h
  cases answer with
  | got n bid header =>
    have hn := hneg n bid header rfl
    have hpos : ¬ 0 < n := Int32.not_lt.mpr (Int32.le_of_lt hn)
    have hzero : n ≠ 0 := Int32.ne_of_lt hn
    dsimp only
    rw [if_neg hpos, if_neg hzero]
    exact unnamed_ran o _
  | again => exact ⟨fun _ h => absurd h (Option.not_mem_none _), id⟩
  | failed | noBuffer | disk => exact unnamed_ran o _

/-- A buffer that stays taken is given out. -/
theorem names_of_keeps (hop : o.sqe.opcode = .recv ∨ o.sqe.opcode = .recvmsg) (hselects : o.selects = true)
    (hkeeps : o.keeps (.got n) = true) (bid : UInt16) (header : Int32) :
    o.Names n bid (o.slipPosixTry (.got n bid header)) := by
  simp only [EngOp.keeps, Bool.or_eq_true, Bool.and_eq_true, decide_eq_true_eq] at hkeeps
  unfold EngOp.slipPosixTry
  rcases hop with hop | hop
  · simp only [EngOp.selects, hop, Bool.and_eq_true, decide_eq_true_eq] at hselects
    have hn : 0 < n := by
      rcases hkeeps with h | ⟨-, h⟩
      · exact h
      · rw [hop] at h
        cases h
    simp only [hop, hselects.1, ne_eq, not_true_eq_false, if_false]
    refine ⟨hselects.2, ?_⟩
    by_cases hmulti : o.sqe.ioprio &&& ioringRecvMultishot = 0
    · rw [if_neg (not_not.mpr hmulti), EngOp.runRecv, if_pos hn]
      exact .inr ⟨.inl hn, n, rfl⟩
    · rw [if_pos hmulti, EngOp.runRecvMultishot, if_pos hn]
      exact .inl ⟨hn, n, rfl⟩
  · simp only [EngOp.selects, hop, Bool.and_eq_true, decide_eq_true_eq] at hselects
    obtain ⟨⟨hmulti, haddr⟩, hselect⟩ := hselects
    simp only [hop, if_pos hmulti]
    refine ⟨hselect, ?_⟩
    rw [EngOp.runRecvmsgMultishot, if_neg haddr, hselect]
    simp only [Bool.not_true, Bool.false_eq_true, if_false]
    by_cases hn : 0 < n
    · rw [if_pos hn]
      exact .inl ⟨hn, _, rfl⟩
    · have hzero : n = 0 := by
        rcases hkeeps with h | ⟨h, -⟩
        · exact absurd h hn
        · exact h
      rw [if_neg hn, if_pos hzero]
      exact .inr ⟨.inr ⟨hzero, hop⟩, _, rfl⟩

/-- A turn leaves the heads and names nothing, or names the buffer that stays taken. -/
theorem recvCall_cases (hop : o.sqe.opcode = .recv ∨ o.sqe.opcode = .recvmsg) (p : Provided)
    (bgid : UInt16) (header : UInt64) (a : RecvAnswer) :
    (o.recvCall p bgid header a).kept = none ∧ (o.recvCall p bgid header a).bufs.bufrings = p.bufrings ∧
        o.Unnamed (o.slipPosixTry (o.recvCall p bgid header a).answer) ∨
      ∃ n buf, a = .got n ∧ p.bufringTake bgid = ((o.recvCall p bgid header a).bufs, some buf) ∧
        (o.recvCall p bgid header a).kept = some buf.bid ∧
        o.Names n buf.bid (o.slipPosixTry (o.recvCall p bgid header a).answer) := by
  have hquiet {answer : OsAnswer} (h : ∀ n bid h, answer ≠ .got n bid h) :
      o.Unnamed (o.slipPosixTry answer) := by
    rcases hop with hop | hop
    · exact unnamed_recv hop (.inr (.inr fun n bid header ha => absurd ha (h n bid header)))
    · exact unnamed_recvmsg hop (.inr fun n bid header ha => absurd ha (h n bid header))
  unfold EngOp.recvCall
  by_cases hselects : o.selects = true
  swap
  · rw [if_neg hselects]
    refine .inl ⟨rfl, rfl, ?_⟩
    rw [Bool.not_eq_true] at hselects
    rcases hop with hop | hop
    · simp only [EngOp.selects, hop, Bool.and_eq_false_iff, decide_eq_false_iff_not] at hselects
      exact unnamed_recv hop (hselects.elim (fun h => .inr (.inl h)) .inl)
    · exact unnamed_recvmsg hop (.inl hselects)
  rw [if_pos hselects]
  cases htake : p.bufringTake bgid with
  | mk p' taken =>
  cases taken with
  | none => exact .inl ⟨rfl, take_none htake, hquiet fun _ _ _ => OsAnswer.noConfusion⟩
  | some buf =>
    dsimp only
    split
    · exact .inl ⟨rfl, unget_take htake, hquiet fun _ _ _ => OsAnswer.noConfusion⟩
    by_cases hkeeps : o.keeps a = true
    · rw [if_pos hkeeps]
      cases a with
      | got n => exact .inr ⟨n, buf, rfl, rfl, rfl, names_of_keeps hop hselects hkeeps _ _⟩
      | again => cases hkeeps
      | failed => cases hkeeps
    · rw [if_neg hkeeps]
      refine .inl ⟨rfl, unget_take htake, ?_⟩
      cases a with
      | got n =>
        simp only [EngOp.keeps, Bool.or_eq_true, Bool.and_eq_true, decide_eq_true_eq, not_or, not_and] at hkeeps
        rcases hop with hop | hop
        · refine unnamed_recv hop (.inr (.inr fun m bid h hm => ?_))
          cases hm
          exact hkeeps.1
        · refine unnamed_recvmsg hop (.inr fun m bid h hm => ?_)
          cases hm
          exact Int32.lt_of_le_of_ne (Int32.not_lt.mp hkeeps.1) (fun hz => hkeeps.2 hz hop)
      | again => exact hquiet fun _ _ _ => OsAnswer.noConfusion
      | failed => exact hquiet fun _ _ _ => OsAnswer.noConfusion

end Turns

/-! ### Whole runs -/

theorem Vault.setOp_self (v : Vault) (x : Slot) : v.setOp x (v.opPool x) = v := by
  have hsame : (fun y => if y = x then v.opPool x else v.opPool y) = v.opPool := by
    funext y
    split
    · next hy => rw [hy]
    · rfl
  show { v with opPool := _ } = v
  rw [hsame]

/-- The pool's ops are free, in the backlog, in use or done, each once; what is in use names no buffer, and
what is done and names one is going to say so. -/
structure BufEngine.Inv (s : BufEngine) (free backlog : List Slot) : Prop where
  vault : s.vault.Rep free backlog
  places : ∀ x, free.count x + backlog.count x + s.inUse.count x + (s.done.map Prod.fst).count x =
    (List.range s.vault.opPoolN).count x
  plain : ∀ x ∈ s.inUse, (s.vault.opPool x).cqeFlags &&& ioringCqeFBuffer = 0
  gives : ∀ p ∈ s.done, (s.vault.pending p).buffer ≠ none → 0 ≤ p.2 →
    (s.vault.opPool p.1).sqe.flags.cqeSkipSuccess = false
  told : s.taken.Perm (s.named backlog)

namespace BufEngine.Inv
variable {s r : BufEngine} {v' : Vault} {free backlog free' backlog' ops : List Slot} {op x : Slot}
  {given : List (Option ℕ × Cqe)} {res : Int32}

theorem once (h : s.Inv free backlog) (x : Slot) :
    free.count x + backlog.count x + s.inUse.count x + (s.done.map Prod.fst).count x ≤ 1 := by
  rw [h.places x]
  exact List.nodup_iff_count_le_one.mp List.nodup_range x

theorem nodup (h : s.Inv free backlog) : (free ++ backlog).Nodup := by
  apply List.nodup_iff_count_le_one.mpr
  intro x
  have honce := h.once x
  rw [List.count_append]
  omega

theorem length_le (h : s.Inv free backlog) : backlog.length ≤ s.vault.opPoolN := by
  have hperm : (free ++ backlog ++ s.inUse ++ s.done.map Prod.fst).Perm (List.range s.vault.opPoolN) := by
    apply List.perm_iff_count.mpr
    intro x
    simp only [List.count_append]
    exact h.places x
  have hlen := hperm.length_eq
  simp only [List.length_append, List.length_range] at hlen
  omega

/-- An op that is in use or done is neither free nor in the backlog. -/
theorem outside (h : s.Inv free backlog) (hx : x ∈ s.inUse ∨ x ∈ s.done.map Prod.fst) :
    x ∉ free ∧ x ∉ backlog := by
  have honce := h.once x
  simp only [← List.count_pos_iff] at hx ⊢
  omega

theorem pending_eq {v v' : Vault} {p : Slot × Int32} (h : v'.opPool p.1 = v.opPool p.1) :
    v'.pending p = v.pending p := by
  rw [Vault.pending, Vault.pending, h]

/-- With completions the named buffers are those of before, of what was given and of what is done now. -/
theorem named_perm (hc : s.vault.Completes r.vault free backlog ops given free' backlog') :
    (r.named backlog').Perm (((s.vault.cq.log ++ backlog.map s.vault.entry ++ given).map Prod.snd ++
      r.done.map r.vault.pending).filterMap Cqe.buffer) := by
  unfold BufEngine.named
  exact ((hc.stream.map Prod.snd).append_right _).filterMap _

/-- Completions of other things, with the ops in use that they end, and the buffers they name. -/
theorem completes (h : s.Inv free backlog)
    (hc : s.vault.Completes r.vault free backlog ops given free' backlog')
    (huse : ∀ x, ops.count x + r.inUse.count x = s.inUse.count x) (hdone : r.done = s.done)
    (htaken : r.taken = s.taken ++ (given.map Prod.snd).filterMap Cqe.buffer) :
    r.Inv free' backlog' ∧ ∀ x ∈ r.inUse, r.vault.opPool x = s.vault.opPool x := by
  have hsame : ∀ x, x ∈ r.inUse ∨ x ∈ s.done.map Prod.fst → r.vault.opPool x = s.vault.opPool x := by
    intro x hx
    have honce := h.once x
    have hsplit := huse x
    have hin : x ∈ s.inUse ∨ x ∈ s.done.map Prod.fst := by
      simp only [← List.count_pos_iff] at hx ⊢
      omega
    refine hc.others x (h.outside hin).1 (h.outside hin).2 ?_
    simp only [← List.count_pos_iff] at hx ⊢
    omega
  have hpool : ∀ p ∈ s.done, r.vault.opPool p.1 = s.vault.opPool p.1 :=
    fun p hp => hsame p.1 (.inr (List.mem_map_of_mem hp))
  refine ⟨⟨hc.rep, fun x => ?_, fun x hx => ?_, fun p hp => ?_, ?_⟩, fun x hx => hsame x (.inl hx)⟩
  · have hplaces := h.places x
    have hcount := hc.places x
    have hsplit := huse x
    rw [hc.opPoolN, hdone]
    omega
  · rw [hsame x (.inl hx)]
    have hin : x ∈ s.inUse := by
      have hsplit := huse x
      rw [← List.count_pos_iff] at hx ⊢
      omega
    exact h.plain x hin
  · rw [hdone] at hp
    rw [pending_eq (hpool p hp), hpool p hp]
    exact h.gives p hp
  · have hpending : r.done.map r.vault.pending = s.done.map s.vault.pending := by
      rw [hdone]
      exact List.map_congr_left fun p hp => pending_eq (hpool p hp)
    rw [htaken]
    refine (h.told.append_right _).trans (.trans ?_ (named_perm hc).symm)
    rw [hpending]
    simp only [BufEngine.named, List.map_append, List.filterMap_append, List.append_assoc]
    exact (List.perm_append_comm.append_left _).append_left _

theorem others (h : s.Inv free backlog) (bufs : Provided) : Inv { s with bufs } free backlog :=
  ⟨h.vault, h.places, h.plain, h.gives, h.told⟩

/-- An emission without a buffer. -/
theorem emits (h : s.Inv free backlog) {flags : UInt32} (hflags : flags &&& ioringCqeFBuffer = 0)
    (u : UInt64) (res : Int32) (reads : List ℕ) : ∃ free' backlog',
      Inv { s with vault := s.vault.slipEngineEmit u res flags reads } free' backlog' ∧
      ∀ x ∈ s.inUse, (s.vault.slipEngineEmit u res flags reads).opPool x = s.vault.opPool x := by
  obtain ⟨given, free', backlog', hc, hgiven⟩ :=
    Vault.slipEngineEmit_completes h.vault h.nodup h.length_le u res flags reads
  refine ⟨free', backlog', h.completes hc (fun _ => Nat.zero_add _) rfl ?_⟩
  rcases hgiven with rfl | rfl
  · simp only [List.map_cons, List.map_nil, List.filterMap_cons, buffer_none hflags, List.filterMap_nil,
      List.append_nil]
  · simp only [List.map_nil, List.filterMap_nil, List.append_nil]

/-- A write to an op in use touches nothing that is done or in the backlog. -/
theorem writes (h : s.Inv free backlog) (hop : op ∈ s.inUse) (o : EngOp) :
    (∀ p ∈ s.done, (s.vault.setOp op o).opPool p.1 = s.vault.opPool p.1) ∧
      s.done.map (s.vault.setOp op o).pending = s.done.map s.vault.pending ∧
      backlog.map (s.vault.setOp op o).entry = backlog.map s.vault.entry := by
  have hne : ∀ x, x ∈ backlog ∨ x ∈ s.done.map Prod.fst →
      (s.vault.setOp op o).opPool x = s.vault.opPool x := by
    intro x hx
    rw [Vault.setOp_opPool, if_neg]
    rintro rfl
    have honce := h.once x
    simp only [← List.count_pos_iff] at hx hop
    omega
  refine ⟨fun p hp => hne p.1 (.inr (List.mem_map_of_mem hp)), ?_, ?_⟩
  · apply List.map_congr_left
    intro p hp
    rw [Vault.pending, Vault.pending, hne p.1 (.inr (List.mem_map_of_mem hp))]
  · apply List.map_congr_left
    intro x hx
    rw [Vault.entry, Vault.entry, hne x (.inl hx)]

/-- An op in use is written, and names no buffer. -/
theorem write (h : s.Inv free backlog) (hop : op ∈ s.inUse) (o : EngOp)
    (hv : r.vault = s.vault.setOp op o) (huse : r.inUse = s.inUse) (hdone : r.done = s.done)
    (htaken : r.taken = s.taken) (ho : o.cqeFlags &&& ioringCqeFBuffer = 0) : r.Inv free backlog := by
  obtain ⟨hf, hb⟩ := h.outside (.inl hop)
  obtain ⟨hpool, hpending, hentry⟩ := h.writes hop o
  refine ⟨hv ▸ h.vault.setOp hf hb o, fun x => ?_, fun x hx => ?_, fun p hp => ?_, ?_⟩
  · rw [huse, hdone, hv]
    exact h.places x
  · rw [hv, Vault.setOp_opPool]
    split
    · exact ho
    · exact h.plain x (huse ▸ hx)
  · rw [hdone] at hp
    rw [hv, pending_eq (hpool p hp), hpool p hp]
    exact h.gives p hp
  · rw [htaken]
    refine h.told.trans (.of_eq ?_)
    unfold BufEngine.named
    rw [hdone, hv, hpending, hentry]
    rfl

/-- An op in use ends with a CQE that is going to name the buffer it keeps. -/
theorem ends (h : s.Inv free backlog) (hop : op ∈ s.inUse) {o : EngOp} (kept : Option UInt16)
    (hv : r.vault = s.vault.setOp op o) (huse : r.inUse = s.inUse.erase op)
    (hdone : r.done = (op, res) :: s.done) (htaken : r.taken = s.taken ++ kept.toList)
    (hbuffer : (r.vault.pending (op, res)).buffer = kept)
    (hgives : kept ≠ none → 0 ≤ res → o.sqe.flags.cqeSkipSuccess = false) : r.Inv free backlog := by
  obtain ⟨hf, hb⟩ := h.outside (.inl hop)
  obtain ⟨hpool, hpending, hentry⟩ := h.writes hop o
  have honce := h.once op
  have hpos := List.count_pos_iff.mpr hop
  refine ⟨hv ▸ h.vault.setOp hf hb o, fun x => ?_, fun x hx => ?_, fun p hp => ?_, ?_⟩
  · have hplaces := h.places x
    rw [huse, hdone, hv]
    show _ = (List.range s.vault.opPoolN).count x
    by_cases hx : x = op
    · subst hx
      rw [List.count_erase_self, List.map_cons, List.count_cons_self]
      omega
    · rw [List.count_erase_of_ne hx, List.map_cons, List.count_cons_of_ne (Ne.symm hx)]
      omega
  · rw [huse] at hx
    have hne : x ≠ op := by
      rintro rfl
      have hcount := List.count_pos_iff.mpr hx
      rw [List.count_erase_self] at hcount
      omega
    rw [hv, Vault.setOp_opPool, if_neg hne]
    exact h.plain x (List.mem_of_mem_erase hx)
  · rw [hdone] at hp
    rcases List.mem_cons.mp hp with rfl | hp
    · rw [hbuffer, hv, Vault.setOp_opPool, if_pos rfl]
      exact hgives
    · rw [hv, pending_eq (hpool p hp), hpool p hp]
      exact h.gives p hp
  · have hcons : (r.named backlog).Perm (kept.toList ++ s.named backlog) := by
      have hkept : [r.vault.pending (op, res)].filterMap Cqe.buffer = kept.toList := by
        rw [List.filterMap_cons, hbuffer]
        cases kept <;> rfl
      unfold BufEngine.named
      rw [← hkept, ← List.filterMap_append, List.singleton_append, hdone, List.map_cons, hv, hpending, hentry]
      exact List.perm_middle.filterMap _
    rw [htaken]
    exact (List.perm_append_comm.trans (h.told.append_left _)).trans hcons.symm

theorem submit (h : s.Inv free backlog) (sqe : Sqe) (hs : s.step (.submit sqe) = some r) :
    ∃ free', r.Inv free' backlog := by
  obtain ⟨⟨op, v⟩, halloc, rfl⟩ := Option.map_eq_some_iff.mp hs
  cases free with
  | nil =>
    rw [(Vault.opAllocLocked_none h.vault).mpr rfl] at halloc
    cases halloc
  | cons x free =>
  obtain ⟨w, hw, hrep, hfresh, hothers, hN, -, hcq⟩ := Vault.opAllocLocked_cons h.vault h.nodup
  cases halloc.symm.trans hw
  obtain ⟨hf, hb⟩ : op ∉ free ∧ op ∉ backlog := by
    simpa using (List.nodup_cons.mp h.nodup).1
  have honce := h.once op
  rw [List.count_cons_self] at honce
  have hpool : ∀ x, x ≠ op → (v.setOp op { v.opPool op with sqe }).opPool x = s.vault.opPool x := by
    intro x hx
    rw [Vault.setOp_opPool, if_neg hx, hothers x hx]
  have hdone : ∀ p ∈ s.done, p.1 ≠ op := by
    rintro p hp rfl
    have hpos := List.count_pos_iff.mpr (List.mem_map_of_mem (f := Prod.fst) hp)
    omega
  refine ⟨free, hrep.setOp hf hb _, fun x => ?_, fun x hx => ?_, fun p hp => ?_, h.told.trans (.of_eq ?_)⟩
  · have hplaces := h.places x
    show free.count x + backlog.count x + (op :: s.inUse).count x + (s.done.map Prod.fst).count x =
      (List.range v.opPoolN).count x
    rw [hN, ← hplaces, List.count_cons, List.count_cons]
    omega
  · by_cases hxop : x = op
    · subst hxop
      rw [Vault.setOp_opPool, if_pos rfl, hfresh]
      exact UInt32.zero_and
    · rw [hpool x hxop]
      exact h.plain x ((List.mem_cons.mp hx).resolve_left hxop)
  · rw [pending_eq (hpool p.1 (hdone p hp)), hpool p.1 (hdone p hp)]
    exact h.gives p hp
  · unfold BufEngine.named
    have hentry : backlog.map (v.setOp op { v.opPool op with sqe }).entry = backlog.map s.vault.entry := by
      apply List.map_congr_left
      intro x hx
      rw [Vault.entry, Vault.entry, hpool x]
      rintro rfl
      exact hb hx
    have hpending : s.done.map (v.setOp op { v.opPool op with sqe }).pending =
        s.done.map s.vault.pending :=
      List.map_congr_left fun p hp => pending_eq (hpool p.1 (hdone p hp))
    dsimp only
    rw [hentry, hpending, Vault.setOp_cq, hcq]

/-- A finished op is posted, and its CQE names what it was going to name. -/
theorem post (h : s.Inv free backlog) {reads : List ℕ} (hmem : (op, res) ∈ s.done) : ∃ free' backlog',
    Inv { s with vault := s.vault.slipEnginePost op res reads, done := s.done.erase (op, res) }
      free' backlog' := by
  have hin : op ∈ s.done.map Prod.fst := List.mem_map_of_mem (f := Prod.fst) hmem
  have honce := h.once op
  have hpos := List.count_pos_iff.mpr hin
  obtain ⟨hf, hb⟩ := h.outside (.inr hin)
  have hnd : (free ++ backlog ++ [op]).Nodup := by
    refine List.nodup_append.mpr ⟨h.nodup, List.nodup_singleton op, ?_⟩
    intro x hx y hy hxy
    rw [List.mem_singleton.mp hy] at hxy
    subst hxy
    exact (List.mem_append.mp hx).elim hf hb
  obtain ⟨free', backlog', hc⟩ := Vault.slipEnginePost_completes h.vault hnd h.length_le res reads
  have hperm := List.perm_cons_erase hmem
  -- no other CQE is done for the op
  have hne : ∀ p ∈ s.done.erase (op, res), p.1 ≠ op := by
    intro p hp heq
    have hcount := (hperm.map Prod.fst).count_eq op
    rw [List.map_cons, List.count_cons_self] at hcount
    have hpos' := List.count_pos_iff.mpr (List.mem_map_of_mem (f := Prod.fst) hp)
    rw [heq] at hpos'
    omega
  have hpool : ∀ x, x ∈ s.inUse ∨ x ∈ (s.done.erase (op, res)).map Prod.fst →
      (s.vault.slipEnginePost op res reads).opPool x = s.vault.opPool x := by
    intro x hx
    have hx' : x ∈ s.inUse ∨ x ∈ s.done.map Prod.fst := by
      refine hx.imp_right fun hx => ?_
      obtain ⟨p, hp, rfl⟩ := List.mem_map.mp hx
      exact List.mem_map_of_mem (List.mem_of_mem_erase hp)
    refine hc.others x (h.outside hx').1 (h.outside hx').2 ?_
    rw [List.mem_singleton]
    rintro rfl
    rcases hx with hx | hx
    · have hcount := List.count_pos_iff.mpr hx
      omega
    · obtain ⟨p, hp, hpx⟩ := List.mem_map.mp hx
      exact hne p hp hpx
  have hdone (p : Slot × Int32) (hp : p ∈ s.done.erase (op, res)) :=
    hpool p.1 (.inr (List.mem_map_of_mem (f := Prod.fst) hp))
  refine ⟨free', backlog', hc.rep, fun x => ?_, fun x hx => ?_, fun p hp => ?_, ?_⟩
  · have hplaces := h.places x
    have hcount := hc.places x
    have hsplit := (hperm.map Prod.fst).count_eq x
    rw [List.map_cons, List.count_cons] at hsplit
    rw [List.count_cons, List.count_nil, Nat.zero_add] at hcount
    show free'.count x + backlog'.count x + s.inUse.count x + ((s.done.erase (op, res)).map Prod.fst).count x =
      (List.range (s.vault.slipEnginePost op res reads).opPoolN).count x
    rw [hc.opPoolN]
    dsimp only at hsplit
    omega
  · rw [hpool x (.inl hx)]
    exact h.plain x hx
  · rw [pending_eq (hdone p hp), hdone p hp]
    exact h.gives p (List.mem_of_mem_erase hp)
  · have hgiven : ((s.vault.completionOf op res).map Prod.snd).filterMap Cqe.buffer =
        [s.vault.pending (op, res)].filterMap Cqe.buffer := by
      unfold Vault.completionOf
      by_cases hskip : (decide (0 ≤ res) && (s.vault.opPool op).sqe.flags.cqeSkipSuccess) = true
      · -- a CQE that is suppressed names nothing
        have hnone : (s.vault.pending (op, res)).buffer = none := by
          rw [Bool.and_eq_true, decide_eq_true_eq] at hskip
          by_contra hsome
          have hgives := h.gives (op, res) hmem hsome hskip.1
          rw [hskip.2] at hgives
          cases hgives
        dsimp only
        rw [if_pos hskip, List.filterMap_cons, hnone]
        rfl
      · dsimp only
        rw [if_neg hskip]
        rfl
    refine h.told.trans (.trans ?_ (named_perm hc).symm)
    dsimp only
    rw [List.map_congr_left fun p hp => pending_eq (hdone p hp)]
    unfold BufEngine.named
    have hsplit := ((hperm.map s.vault.pending).filterMap Cqe.buffer)
    rw [List.map_cons, ← List.singleton_append, List.filterMap_append, ← hgiven] at hsplit
    simp only [List.map_append, List.filterMap_append, List.append_assoc]
    rw [← List.append_assoc, ← List.append_assoc]
    simp only [List.append_assoc]
    exact (hsplit.append_left _).append_left _

/-- A turn that keeps no buffer: what it emits names none, nor does the op. -/
theorem quietTurn (h : s.Inv free backlog) (hop : op ∈ s.inUse) {t : TryTurn}
    (reads : List ℕ) (bufs : Provided) (ht : (s.vault.opPool op).Unnamed t) : ∃ free' backlog',
      Inv { s with vault := s.afterTurn op t reads, bufs } free' backlog' ∧
      ∀ res, Inv { s with
        vault := s.afterTurn op t reads
        bufs
        inUse := s.inUse.erase op
        done := (op, res) :: s.done } free' backlog' := by
  have hplain := ht.2 (h.plain op hop)
  -- what is emitted first, then the write to the op
  obtain ⟨v, free', backlog', hv, hinv⟩ : ∃ v free' backlog', s.afterTurn op t reads = v.setOp op t.op ∧
      Inv { s with vault := v } free' backlog' := by
    unfold BufEngine.afterTurn
    cases hemits : t.emits with
    | none => exact ⟨s.vault, free, backlog, rfl, h⟩
    | some e =>
      obtain ⟨free', backlog', hinv, -⟩ :=
        h.emits (ht.1 e hemits) (s.vault.opPool op).sqe.userData e.1 reads
      exact ⟨_, free', backlog', rfl, hinv⟩
  refine ⟨free', backlog', ?_, fun res => ?_⟩
  · exact hinv.write (r := { s with vault := s.afterTurn op t reads, bufs }) hop t.op hv rfl rfl rfl hplain
  · refine hinv.ends (r := { s with
        vault := s.afterTurn op t reads
        bufs
        inUse := s.inUse.erase op
        done := (op, res) :: s.done }) hop none hv rfl rfl (List.append_nil _).symm ?_
      (fun hne => absurd rfl hne)
    rw [Vault.pending]
    apply buffer_none
    show ((s.afterTurn op t reads).opPool op).cqeFlags &&& ioringCqeFBuffer = 0
    rw [hv, Vault.setOp_opPool, if_pos rfl]
    exact hplain

/-- A turn that emits the buffer it keeps, and finds a place for the emission. -/
theorem emittingTurn (h : s.Inv free backlog) (hop : op ∈ s.inUse) (bid : UInt16) (n : Int32)
    (bufs : Provided) {reads : List ℕ} (hselect : (s.vault.opPool op).sqe.flags.bufferSelect = true)
    (hplace : (atOwnLook s.vault reads).cqRoom = true ∨ (atOwnLook s.vault reads).opFree ≠ none) :
    ∃ free' backlog', Inv { s with
      vault := s.afterTurn op ((s.vault.opPool op).emits n ((s.vault.opPool op).bufferFlags bid)) reads
      bufs
      taken := s.taken ++ [bid] } free' backlog' := by
  obtain ⟨given, free', backlog', hc, hgiven⟩ := Vault.slipEngineEmit_places h.vault h.nodup h.length_le
    (s.vault.opPool op).sqe.userData n ((s.vault.opPool op).bufferFlags bid ||| ioringCqeFMore) reads
  obtain rfl := hgiven.resolve_right fun hnone => by
    rcases hplace with hroom | hfree
    · exact absurd (hnone.2.1.symm.trans hroom) (by decide)
    · exact hfree hnone.2.2
  have hbuffer : Cqe.buffer ⟨(s.vault.opPool op).sqe.userData, n,
      (s.vault.opPool op).bufferFlags bid ||| ioringCqeFMore⟩ = some bid := by
    rw [EngOp.bufferFlags, hselect, if_pos rfl]
    exact buffer_tagged (by decide)
  obtain ⟨hinv, hsame⟩ := h.completes (r := { s with
      vault := s.vault.slipEngineEmit (s.vault.opPool op).sqe.userData n
        ((s.vault.opPool op).bufferFlags bid ||| ioringCqeFMore) reads
      taken := s.taken ++ [bid] }) hc (fun _ => Nat.zero_add _) rfl (by
    simp only [List.map_cons, List.map_nil, List.filterMap_cons, hbuffer, List.filterMap_nil])
  have hplain := hinv.plain op hop
  rw [hsame op hop] at hplain
  exact ⟨free', backlog', hinv.write hop _ rfl rfl rfl rfl hplain⟩

theorem turn (h : s.Inv free backlog) {bgid : UInt16} {header : UInt64} {a : RecvAnswer} {reads : List ℕ}
    (hl : BuffersTold s (.turn op bgid header a reads)) (hop : op ∈ s.inUse)
    (hopcode : (s.vault.opPool op).sqe.opcode = .recv ∨ (s.vault.opPool op).sqe.opcode = .recvmsg) :
    ∃ free' backlog', (s.turn op bgid header a reads).Inv free' backlog' := by
  rcases recvCall_cases hopcode s.bufs bgid header a with
    ⟨hkept, -, hquiet⟩ | ⟨n, buf, rfl, -, hkept, hselect, hnames⟩
  · obtain ⟨free', backlog', hstays, hends⟩ := h.quietTurn hop reads
      (s.call op bgid header a).bufs hquiet
    refine ⟨free', backlog', ?_⟩
    unfold BufEngine.turn
    have hkept : (s.call op bgid header a).kept = none := hkept
    simp only [hkept, Option.toList_none, List.append_nil]
    split
    · exact hends _
    · exact hstays
  · have hkept : (s.call op bgid header (.got n)).kept = some buf.bid := hkept
    have htold := hl (by rw [hkept]; rfl)
    rcases hnames with ⟨-, res, hturn⟩ | ⟨-, res, hturn⟩
    · have hturn : s.tryTurn op bgid header (.got n) =
        (s.vault.opPool op).emits res ((s.vault.opPool op).bufferFlags buf.bid) := hturn
      rw [hturn] at htold
      obtain ⟨free', backlog', hinv⟩ := h.emittingTurn hop buf.bid res
        (s.call op bgid header (.got n)).bufs hselect htold
      refine ⟨free', backlog', ?_⟩
      simp only [BufEngine.turn, hturn, hkept, Option.toList_some]
      exact hinv
    · have hturn : s.tryTurn op bgid header (.got n) = EngOp.ran
          { s.vault.opPool op with cqeFlags := (s.vault.opPool op).bufferFlags buf.bid } res := hturn
      rw [hturn] at htold
      refine ⟨free, backlog, ?_⟩
      simp only [BufEngine.turn, hturn, hkept, Option.toList_some]
      refine (h.others _).ends hop (some buf.bid) rfl rfl rfl rfl ?_ (fun _ => htold)
      rw [Vault.pending]
      show Cqe.buffer ⟨_, res, (((s.vault.setOp op _).opPool op).cqeFlags)⟩ = some buf.bid
      rw [Vault.setOp_opPool, if_pos rfl]
      simp only [EngOp.ran]
      rw [bufferFlags_select hselect]
      exact buffer_tagged (by decide)

theorem step (h : s.Inv free backlog) {l : BufEngineLabel} (hl : BuffersTold s l)
    (hs : s.step l = some r) : ∃ free' backlog', r.Inv free' backlog' := by
  cases l with
  | submit sqe =>
    obtain ⟨free', hinv⟩ := h.submit sqe hs
    exact ⟨free', backlog, hinv⟩
  | turn op bgid header a reads =>
    simp only [BufEngine.step] at hs
    split at hs
    · next hin =>
      cases hs
      exact h.turn hl hin.1 hin.2
    · cases hs
  | finishes op res =>
    simp only [BufEngine.step] at hs
    split at hs
    · next hin =>
      cases hs
      refine ⟨free, backlog, h.ends (o := s.vault.opPool op) hin none ?_ rfl rfl (List.append_nil _).symm ?_
        (fun hne => absurd rfl hne)⟩
      · exact (s.vault.setOp_self op).symm
      · exact buffer_none (h.plain op hin)
    · cases hs
  | drops op =>
    simp only [BufEngine.step] at hs
    split at hs
    · next hin =>
      cases hs
      obtain ⟨hf, hb⟩ := h.outside (.inl hin)
      refine ⟨op :: free, backlog, (h.completes
        (r := { s with vault := s.vault.opRelease op, inUse := s.inUse.erase op })
        (.release h.vault hf hb) (fun x => ?_) rfl ?_).1⟩
      · have hperm := (List.perm_cons_erase hin).count_eq x
        rw [List.count_cons] at hperm ⊢
        simp only [List.count_nil]
        omega
      · simp
    · cases hs
  | post op res reads =>
    simp only [BufEngine.step] at hs
    split at hs
    · next hin =>
      cases hs
      exact h.post hin
    · cases hs
  | emits u res flags reads =>
    simp only [BufEngine.step] at hs
    split at hs
    · next hflags =>
      cases hs
      obtain ⟨free', backlog', hinv, -⟩ := h.emits hflags u res reads
      exact ⟨free', backlog', hinv⟩
    · cases hs
  | read k =>
    cases hs
    refine ⟨free, backlog, (h.completes (r := { s with vault := s.vault.callerReads k })
      (.callerReads h.vault k) (fun _ => Nat.zero_add _) rfl ?_).1⟩
    simp
  | register arg =>
    cases hs
    exact ⟨free, backlog, h.others _⟩
  | unregister arg =>
    cases hs
    exact ⟨free, backlog, h.others _⟩
  | add addr entries buf =>
    cases hs
    exact ⟨free, backlog, h.others _⟩

/-- A turn takes and keeps a buffer only for bytes, or at the end of a multishot recvmsg. -/
theorem heads {bgid : UInt16} {header : UInt64} {a : RecvAnswer} {reads : List ℕ}
    (hs : s.step (.turn op bgid header a reads) = some r) :
    r.taken = s.taken ∧ r.bufs.bufrings = s.bufs.bufrings ∨
    ∃ buf n, a = .got n ∧ s.bufs.bufringTake bgid = (r.bufs, some buf) ∧
      r.taken = s.taken ++ [buf.bid] ∧ (0 < n ∨ n = 0 ∧
        (s.vault.opPool op).sqe.opcode = .recvmsg ∧ ∃ res, (op, res) ∈ r.done ∧
          (r.vault.pending (op, res)).buffer = some buf.bid) := by
  simp only [BufEngine.step] at hs
  split at hs
  swap
  · cases hs
  next hin =>
  cases hs
  have hsame : (s.turn op bgid header a reads).taken = s.taken ++ (s.call op bgid header a).kept.toList ∧
      (s.turn op bgid header a reads).bufs = (s.call op bgid header a).bufs := by
    unfold BufEngine.turn
    dsimp only
    split <;> exact ⟨rfl, rfl⟩
  rw [hsame.1, hsame.2]
  rcases recvCall_cases hin.2 s.bufs bgid header a with
    ⟨hkept, hrings, -⟩ | ⟨n, buf, rfl, htake, hkept, hselect, hnames⟩
  · have hkept : (s.call op bgid header a).kept = none := hkept
    rw [hkept]
    exact .inl ⟨List.append_nil _, hrings⟩
  · right
    have hkept : (s.call op bgid header (.got n)).kept = some buf.bid := hkept
    rw [hkept]
    refine ⟨buf, n, rfl, htake, rfl, ?_⟩
    rcases hnames with ⟨hn, -⟩ | ⟨hn | hn, res, hturn⟩
    · exact .inl hn
    · exact .inl hn
    · right
      have hturn : s.tryTurn op bgid header (.got n) = EngOp.ran
          { s.vault.opPool op with cqeFlags := (s.vault.opPool op).bufferFlags buf.bid } res := hturn
      refine ⟨hn.1, hn.2, res, ?_⟩
      simp only [BufEngine.turn, hturn]
      refine ⟨List.mem_cons_self, ?_⟩
      rw [Vault.pending]
      show Cqe.buffer ⟨_, res, (((s.vault.setOp op _).opPool op).cqeFlags)⟩ = some buf.bid
      rw [Vault.setOp_opPool, if_pos rfl]
      simp only [EngOp.ran]
      rw [bufferFlags_select hselect]
      exact buffer_tagged (by decide)

end BufEngine.Inv

def setupBufs (n : ℕ) (cqEntries : UInt32) : BufEngine where
  vault := emptyVault n cqEntries

theorem setupBufs_inv (n : ℕ) (e : UInt32) : (setupBufs n e).Inv (List.range n) [] where
  vault := Vault.emptyVault_rep n e
  places _ := rfl
  plain _ hx := absurd hx List.not_mem_nil
  gives _ hp := absurd hp List.not_mem_nil
  told := .refl _

/-- In every run in which a CQE with a buffer always gets out, the buffers that stay taken are accounted
for. -/
theorem provided_buffers_accounted {n : ℕ} {e : UInt32} {tr : List Empty} {s : BufEngine}
    (hr : Run bufEngineMachine BuffersTold (setupBufs n e) tr s) : ∃ backlog, s.Accounts backlog := by
  have hinv : ∃ free backlog, s.Inv free backlog := by
    apply hr.invariant (fun _ s => ∃ free backlog, s.Inv free backlog) ⟨_, _, setupBufs_inv n e⟩
    rintro tr s l s' - ⟨free, backlog, h⟩ hl hs
    exact h.step hl hs
  obtain ⟨free, backlog, h⟩ := hinv
  exact ⟨backlog, h.vault.backlog, h.told, fun _ _ _ _ _ _ hs => BufEngine.Inv.heads hs⟩

instance (s : BufEngine) (l : BufEngineLabel) : Decidable (BuffersTold s l) := by
  unfold BuffersTold
  split
  · split <;> infer_instance
  · infer_instance

/-- A CQ of one: a multishot RECV emits two buffers, the second by way of the backlog, and at the end gives
back a third; a single RECV takes it. -/
theorem provided_buffers_accounted_three : ∃ tr s, Run bufEngineMachine BuffersTold (setupBufs 4 1) tr s ∧
    s.taken = [7, 8, 9] ∧ s.vault.cq.log.map (fun p => p.2.buffer) = [some 7] ∧
    s.vault.backlogHead ≠ none ∧ s.done ≠ [] ∧ ∃ backlog, s.Accounts backlog := by
  obtain ⟨tr, s, hr, htaken, hlog, hbacklog, hdone⟩ := Run.of_exec bufEngineMachine BuffersTold (setupBufs 4 1)
    (fun _ s => s.taken = [7, 8, 9] ∧ s.vault.cq.log.map (fun p => p.2.buffer) = [some 7] ∧
      s.vault.backlogHead ≠ none ∧ s.done ≠ [])
    [.register (some ⟨4096, 4, 3, 0⟩), .add 4096 4 ⟨64, 8, 7⟩, .add 4096 4 ⟨72, 8, 8⟩, .add 4096 4 ⟨80, 8, 9⟩,
      .submit { opcode := .recv, flags := { bufferSelect := true }, ioprio := ioringRecvMultishot },
      .turn 0 3 0 (.got 5) [], .turn 0 3 0 (.got 8) [], .turn 0 3 0 (.got 0) [],
      .submit { opcode := .recv, flags := { bufferSelect := true } },
      .turn 2 3 0 .again [], .turn 2 3 0 (.got 1) []] (by decide +kernel)
  exact ⟨tr, s, hr, htaken, hlog, hbacklog, hdone, provided_buffers_accounted hr⟩

/-- A RECV with IOSQE_CQE_SKIP_SUCCESS takes buffer 7 and fills it, and no CQE names it. -/
theorem skipped_recv_keeps_buffer : ∃ tr s,
    Run bufEngineMachine (fun _ _ => True) (setupBufs 1 1) tr s ∧ ¬ ∃ backlog, s.Accounts backlog := by
  obtain ⟨tr, s, hr, htaken, hlog, hhead, hdone⟩ := Run.of_exec bufEngineMachine (fun _ _ => True)
    (setupBufs 1 1)
    (fun _ s => s.taken = [7] ∧ s.vault.cq.log = [] ∧ s.vault.backlogHead = none ∧ s.done = [])
    [.register (some ⟨4096, 1, 3, 0⟩), .add 4096 1 ⟨64, 8, 7⟩,
      .submit { opcode := .recv, flags := { bufferSelect := true, cqeSkipSuccess := true } },
      .turn 0 3 0 (.got 5) [], .post 0 5 []] (by decide +kernel)
  refine ⟨tr, s, hr, ?_⟩
  rintro ⟨backlog, hacc⟩
  have hempty : backlog = [] := hacc.backlogList.head_none.mp hhead
  have htold := hacc.told.length_eq
  rw [BufEngine.named, hempty, hlog, hdone, htaken] at htold
  cases htold

end SlipstreamIO.Engine
