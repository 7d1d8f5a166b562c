import SlipstreamIO.DirectInstalls
import SlipstreamIO.PosixRefines

/-! The completion port backend: the wrappers around the OVERLAPPEDs of the calls in flight, which Windows
writes into until the calls have ended, and the packets that bring them home. -/
namespace SlipstreamIO.Engine

open Runs
open Syscall (emfile enomem)

def emsgsize : Int32 := 90
def atFdcwd : Int32 := -100

/-- POLLIN of winsock2.h: POLLRDNORM and POLLRDBAND. -/
def winPollIn : UInt32 := 0x300

/-- The socket AcceptEx is given, whose handle is no negative int; `number` is ghost and counts the sockets
made for accepts. -/
structure AcceptedSocket where
  fd : NonNeg
  number : ℕ

/-- The IOCP_KIND_ values, an accept with the fields that only it has. -/
inductive IocpKind where
  | io
  | accept (accepted : AcceptedSocket) (multishot : Bool) (fileIndex : UInt32)
  | connect
  | poll

/-- `struct iocp_op`, the wrapper of a call. -/
structure IocpOp where
  op : Slot
  kind : IocpKind

namespace IocpOp

/-- The number of the socket a wrapper carries. -/
def child (w : IocpOp) : Option ℕ :=
  match w.kind with
  | .accept accepted _ _ => some accepted.number
  | .io | .connect | .poll => none

def multishot (w : IocpOp) : Bool :=
  match w.kind with
  | .accept _ multishot _ => multishot
  | .io | .connect | .poll => false

end IocpOp

/-- What the port hands out: a poke, or the wrapper of a call that has ended, with its byte count or the
error. -/
inductive Packet where
  | poke
  | io (w : ℕ) (answer : Except UInt32 UInt32)

def Packet.wrapper : Packet → Option ℕ
  | .poke => none
  | .io w _ => some w

/-- The answers of Windows to the calls of one execute, or of one accept that is armed: `call` is that of an
op that ends at once, `descriptor` is `_open_osfhandle`'s and `handle` `_get_osfhandle`'s, `child` is the
socket for an accept, and `refused` the error of the call that is to be left in flight. `iovlen` is read
from the caller's msghdr. -/
structure WinAnswers extends CloseOs where
  call : Except UInt32 Int32 := .ok 0
  descriptor : Option Int32 := some 0
  handle : Bool := true
  associates : Bool := true
  extension : Bool := true
  binds : Bool := true
  child : Except UInt32 NonNeg := .ok ⟨0, by decide⟩
  callocs : Bool := true
  iovlen : ℕ := 1
  refused : Option UInt32 := none

/-- The answer of an op whose one call ends at once. -/
def WinAnswers.ended (a : WinAnswers) (answer : Int32 → Int32) : Int32 :=
  match a.call with
  | .ok v => answer v
  | .error e => winErrToErrno e

/-- The ops that `iocp_execute` ends at once; none for those it issues. -/
def iocpAtOnce (r : Ring) (s : Sqe) (a : WinAnswers) : Option Int32 :=
  match s.opcode with
  | .nop => some 0
  | .close => (iocpClose s r a.toCloseOs).res
  | .socket => some (a.ended fun fd => fd)
  | .bind | .listen | .shutdown => some (a.ended fun _ => 0)
  | .openat =>
    if s.addr = 0 then some (-efault)
    else if s.fd ≠ atFdcwd then some (-eopnotsupp)
    else some (a.ended fun _ => a.descriptor.getD (-emfile))
  | .statx =>
    if s.addr = 0 ∨ s.off = 0 then some (-efault)
    else if s.fd ≠ atFdcwd then some (-eopnotsupp)
    else some (if a.call.isOk then 0 else -enoent)
  | .unlinkat =>
    if s.addr = 0 then some (-efault)
    else if s.fd ≠ atFdcwd then some (-eopnotsupp)
    else some (if a.call.isOk then 0 else -enoent)
  | .read | .write | .pollAdd | .accept | .connect | .recvmsg | .sendmsg | .recv | .send => none
  | .pollRemove | .asyncCancel | .openat2 | .uringCmd | .msgRing | .other _ => some (-eopnotsupp)

/-- The checks of an op that is issued, an accept apart, in front of its wrapper. -/
def iocpRefuses (s : Sqe) (a : WinAnswers) : Option Int32 :=
  match s.opcode with
  | .read | .write =>
    if !a.handle then some (-ebadf) else if !a.associates then some (-eopnotsupp) else none
  | .pollAdd =>
    if s.len &&& ioringPollAddMulti ≠ 0 then some (-eopnotsupp)
    else if s.opFlags &&& winPollIn = 0 then some (-eopnotsupp)
    else if !a.associates then some (-enotsock) else none
  | .connect =>
    if !a.extension || !a.associates then some (-enotsock)
    else if !a.binds then some (-einval) else none
  | .recvmsg | .sendmsg =>
    if s.ioprio &&& ioringRecvMultishot ≠ 0 then some (-eopnotsupp)
    else if !a.associates then some (-enotsock) else none
  | _ => if !a.associates then some (-enotsock) else none

/-- `iocp_msg_to_wsa`: a wrapper has room for 8 buffers. -/
def iocpMsgToWsa (s : Sqe) (iovlen : ℕ) : Option Int32 :=
  if s.addr = 0 then some (-efault) else if 8 < iovlen then some (-emsgsize) else none

/-- A socket that was given away with the answer `res` to the SQE `owner`, and its slot if it went into the
fixed table. -/
structure Gift where
  number : ℕ
  fd : NonNeg
  fileIndex : UInt32
  owner : Option ℕ
  slot : Option ℕ
  res : Int32
  deriving DecidableEq

/-- The backend's state with the memory of the wrappers, which are named in the order they were allocated,
and what Windows has: the calls that have not ended, and the port. The rest is ghost: the wrappers that
were freed, those whose packets went with the port, how many sockets were made for accepts, and of these
those that were closed again, that the caller or its table has got, and that nobody has any more. -/
structure IocpState where
  wrappers : ℕ → Option IocpOp := fun _ => none
  made : ℕ := 0
  inFlight : List ℕ := []
  beSource : Slot → Option ℕ := fun _ => none
  issued : List ℕ := []
  port : List Packet := []
  freed : List ℕ := []
  dropped : List ℕ := []
  sockets : ℕ := 0
  closed : List ℕ := []
  given : List Gift := []
  lost : List ℕ := []

namespace IocpState
variable (st : IocpState)

/-- The `calloc` of a wrapper. -/
def calloc (w : IocpOp) : IocpState :=
  { st with wrappers := fun x => if x = st.made then some w else st.wrappers x, made := st.made + 1 }

def free (w : ℕ) : IocpState :=
  { st with wrappers := fun x => if x = w then none else st.wrappers x, freed := st.freed ++ [w] }

def setSource (op : Slot) (w : Option ℕ) : IocpState :=
  { st with beSource := fun x => if x = op then w else st.beSource x }

def closesocket (child : ℕ) : IocpState := { st with closed := st.closed ++ [child] }

def gives (g : Gift) : IocpState := { st with given := st.given ++ [g] }

/-- The sockets in the fixed table are closed with it. -/
def closeTable : IocpState :=
  { st with
    closed := st.closed ++ (st.given.filter fun g => g.slot.isSome).map Gift.number
    given := st.given.filter fun g => g.slot.isNone }

/-- A call with a wrapper of its own: it is in flight, or refused with an errno. -/
def issue (w : IocpOp) (refused : Option UInt32) : IocpState × Option Int32 :=
  let st' := (st.calloc w).setSource w.op (some st.made)
  match refused with
  | none => ({ st' with inFlight := st.made :: st.inFlight, issued := st.made :: st.issued }, none)
  | some e => ((st'.setSource w.op none).free st.made, some (winErrToErrno e))

/-- `iocp_arm_accept`; the answer is none when the accept is in flight. -/
def iocpArmAccept (s : Sqe) (op : Slot) (a : WinAnswers) : IocpState × Option Int32 :=
  if !a.extension || !a.associates then (st, some (-enotsock))
  else
    match a.child with
    | .error e => (st, some (winErrToErrno e))
    | .ok fd =>
      let accepted := st.sockets
      let st := { st with sockets := accepted + 1 }
      if !a.callocs then (st.closesocket accepted, some (-enomem))
      else
        match st.issue ⟨op, .accept ⟨fd, accepted⟩ (s.ioprio &&& ioringAcceptMultishot ≠ 0) s.fileIndex⟩
          a.refused with
        | (st, none) => (st, none)
        | (st, some err) => (st.closesocket accepted, some err)

/-- RECVMSG and SENDMSG with their wrapper in hand. -/
def iocpIssueMsg (s : Sqe) (w : IocpOp) (a : WinAnswers) : IocpState × Option Int32 :=
  match iocpMsgToWsa s a.iovlen with
  | some err => ((st.calloc w).free st.made, some err)
  | none =>
    if a.extension then st.issue w a.refused
    else (((st.calloc w).setSource w.op none).free st.made, some (-eopnotsupp))

/-- The wrapper and the call of an op that is issued, an accept apart. -/
def iocpIssue (s : Sqe) (op : Slot) (a : WinAnswers) : IocpState × Option Int32 :=
  if !a.callocs then (st, some (-enomem))
  else
    match s.opcode with
    | .connect => st.issue ⟨op, .connect⟩ a.refused
    | .pollAdd => st.issue ⟨op, .poll⟩ a.refused
    | .recvmsg | .sendmsg => st.iocpIssueMsg s ⟨op, .io⟩ a
    | _ => st.issue ⟨op, .io⟩ a.refused

/-- `iocp_execute`; the answer is none for EXEC_PENDING. -/
def iocpExecute (r : Ring) (op : Slot) (a : WinAnswers) : IocpState × Option Int32 :=
  let s := (r.opPool op).sqe
  match iocpAtOnce r s a with
  | some res => (st, some res)
  | none =>
    if s.opcode = .accept then st.iocpArmAccept s op a
    else
      match iocpRefuses s a with
      | some res => (st, some res)
      | none => st.iocpIssue s op a

/-- What `iocp_wait` answers for a call that has ended, with what it does to the table and the socket of an
accept. -/
def iocpAnswer (r : Ring) (w : IocpOp) (answer : Except UInt32 UInt32) : Ring × IocpState × Int32 :=
  match answer with
  | .error e =>
    match w.kind with
    | .accept accepted _ _ => (r, st.closesocket accepted.number, winErrToErrno e)
    | _ => (r, st, winErrToErrno e)
  | .ok bytes =>
    match w.kind with
    | .accept accepted _ fileIndex =>
      let give (slot : Option ℕ) (res : Int32) :=
        st.gives ⟨accepted.number, accepted.fd, fileIndex, (r.opPool w.op).seq, slot, res⟩
      if fileIndex ≠ 0 then
        let (r', slot) := r.slipFixedInstall fileIndex accepted.fd.1
        if slot < 0 then (r', st.closesocket accepted.number, slot)
        else
          let res := if fileIndex = ioringFileIndexAlloc then slot else 0
          (r', give (some slot.toInt.toNat) res, res)
      else (r, give none accepted.fd.1, accepted.fd.1)
    | .connect => (r, st, 0)
    | .poll => (r, st, winPollIn.toInt32)
    | .io => (r, st, bytes.toInt32)

end IocpState

namespace IocpState

/-- The socket that goes with the wrapper at `w`. -/
def childAt (st : IocpState) (w : ℕ) : Option ℕ := (st.wrappers w).bind IocpOp.child

/-- Who has what. A wrapper is in memory exactly while it is in flight, and then it is with Windows, at the
port, or its packet went with the port, in one place only; every wrapper that was allocated is freed or
in flight. Every socket that was made is closed, given away, lost, in `hand`, or goes with one wrapper. -/
structure Owns (st : IocpState) (hand : List ℕ) : Prop where
  live : ∀ w, (st.wrappers w).isSome = true ↔ w ∈ st.inFlight
  home : (st.issued ++ st.port.filterMap Packet.wrapper ++ st.dropped).Perm st.inFlight
  spent : (st.freed ++ st.inFlight).Perm (List.range st.made)
  children : (st.closed ++ st.given.map Gift.number ++ st.lost ++ hand ++
    st.inFlight.filterMap st.childAt).Perm (List.range st.sockets)

section Owns
variable {st st' : IocpState} {hand : List ℕ} {o : IocpOp} {w : ℕ}

theorem Owns.nodup (h : st.Owns hand) : st.inFlight.Nodup :=
  (List.nodup_append.mp (h.spent.nodup_iff.mpr List.nodup_range)).2.1

theorem Owns.lt (h : st.Owns hand) (hw : w ∈ st.inFlight) : w < st.made :=
  List.mem_range.mp (h.spent.mem_iff.mp (List.mem_append_right _ hw))

theorem Owns.fresh (h : st.Owns hand) : st.made ∉ st.inFlight := fun hw => lt_irrefl _ (h.lt hw)

/-- At the address of the next wrapper there is nothing. -/
theorem Owns.unmade (h : st.Owns hand) : st.wrappers st.made = none := by
  have hnot := mt (h.live st.made).mp h.fresh
  rwa [Bool.not_eq_true, Option.isSome_eq_false_iff, Option.isNone_iff_eq_none] at hnot

/-- Two states that differ in no more than what is at the port and the sources. -/
theorem Owns.congr (h : st.Owns hand) (hw : st'.wrappers = st.wrappers) (hf : st'.inFlight = st.inFlight)
    (hhome : (st'.issued ++ st'.port.filterMap Packet.wrapper ++ st'.dropped).Perm
      (st.issued ++ st.port.filterMap Packet.wrapper ++ st.dropped))
    (hfreed : st'.freed = st.freed) (hmade : st'.made = st.made)
    (hsockets : (st'.closed ++ st'.given.map Gift.number ++ st'.lost).Perm
      (st.closed ++ st.given.map Gift.number ++ st.lost))
    (hn : st'.sockets = st.sockets) : st'.Owns hand := by
  have hchild : st'.childAt = st.childAt := by
    ext1 x
    rw [childAt, childAt, hw]
  refine ⟨fun x => ?_, ?_, ?_, ?_⟩
  · rw [hw, hf]
    exact h.live x
  · rw [hf]
    exact hhome.trans h.home
  · rw [hfreed, hf, hmade]
    exact h.spent
  · rw [hchild, hf, hn]
    exact ((hsockets.append_right _).append_right _).trans h.children

/-- A socket is made. -/
theorem Owns.makes (h : st.Owns []) : Owns { st with sockets := st.sockets + 1 } [st.sockets] := by
  refine ⟨h.live, h.home, h.spent, ?_⟩
  have hperm := h.children
  rw [List.append_nil] at hperm
  rw [List.range_succ]
  calc
    _ = st.closed ++ st.given.map Gift.number ++ st.lost ++
        ([st.sockets] ++ st.inFlight.filterMap st.childAt) := by
      rw [← List.append_assoc]
      rfl
    List.Perm _ (st.closed ++ st.given.map Gift.number ++ st.lost ++
        (st.inFlight.filterMap st.childAt ++ [st.sockets])) :=
      List.perm_append_comm.append_left _
    _ = _ := (List.append_assoc _ _ _).symm
    List.Perm _ _ := hperm.append_right _

theorem Owns.closesocket (h : st.Owns [w]) : (st.closesocket w).Owns [] := by
  refine ⟨h.live, h.home, h.spent, List.Perm.trans ?_ h.children⟩
  apply List.perm_iff_count.mpr
  intro x
  simp only [IocpState.closesocket, List.count_append, List.count_nil]
  show _ + List.count x (st.inFlight.filterMap st.childAt) = _
  omega

theorem Owns.gives {g : Gift} (h : st.Owns [g.number]) : (st.gives g).Owns [] := by
  refine ⟨h.live, h.home, h.spent, List.Perm.trans ?_ h.children⟩
  apply List.perm_iff_count.mpr
  intro x
  simp only [IocpState.gives, List.map_append, List.map_cons, List.map_nil, List.count_append, List.count_nil]
  show _ + List.count x (st.inFlight.filterMap st.childAt) = _
  omega

theorem Owns.closeTable (h : st.Owns hand) : st.closeTable.Owns hand := by
  refine h.congr rfl rfl (.refl _) rfl rfl ?_ rfl
  have hsplit := ((List.filter_append_perm (fun g : Gift => g.slot.isSome) st.given).map Gift.number)
  rw [List.map_append] at hsplit
  have hnone : (fun g : Gift => !g.slot.isSome) = fun g => g.slot.isNone := by
    ext1 g
    cases g.slot <;> rfl
  rw [hnone] at hsplit
  simp only [IocpState.closeTable, List.append_assoc]
  apply List.Perm.append_left
  rw [← List.append_assoc]
  exact hsplit.append_right _

theorem Owns.wrappers_spoiled (h : st.Owns hand) : ((st.calloc o).free st.made).wrappers = st.wrappers := by
  ext1 x
  simp only [IocpState.free, IocpState.calloc]
  split
  · next hx => rw [hx, h.unmade]
  · rfl

/-- What is in the hand is lost. -/
theorem Owns.loses (h : st.Owns hand) : Owns { st with lost := st.lost ++ hand } [] := by
  refine ⟨h.live, h.home, h.spent, List.Perm.trans ?_ h.children⟩
  show (st.closed ++ st.given.map Gift.number ++ (st.lost ++ hand) ++ [] ++
    st.inFlight.filterMap st.childAt).Perm _
  rw [List.append_nil, ← List.append_assoc]

/-- A wrapper that goes no further than its allocation. -/
theorem Owns.spoils (h : st.Owns hand) : ((st.calloc o).free st.made).Owns hand := by
  have hchild : ((st.calloc o).free st.made).childAt = st.childAt := by
    ext1 x
    rw [childAt, childAt, h.wrappers_spoiled]
  refine ⟨fun x => ?_, h.home, ?_, ?_⟩
  · rw [h.wrappers_spoiled]
    exact h.live x
  · show (st.freed ++ [st.made] ++ st.inFlight).Perm (List.range (st.made + 1))
    rw [List.range_succ]
    have hmove : (st.freed ++ [st.made] ++ st.inFlight).Perm (st.freed ++ st.inFlight ++ [st.made]) := by
      rw [List.append_assoc, List.append_assoc]
      exact List.perm_append_comm.append_left _
    exact hmove.trans (h.spent.append_right _)
  · rw [hchild]
    exact h.children

theorem Owns.setSource (h : st.Owns hand) (op : Slot) (w : Option ℕ) : (st.setSource op w).Owns hand :=
  ⟨h.live, h.home, h.spent, h.children⟩

/-- A wrapper in flight takes the socket along. -/
theorem Owns.launches (h : st.Owns o.child.toList) : (st.issue o none).1.Owns [] := by
  have hchild {x : ℕ} (hx : x ∈ st.inFlight) : (st.issue o none).1.childAt x = st.childAt x := by
    have hne : x ≠ st.made := by
      rintro rfl
      exact h.fresh hx
    simp only [childAt, IocpState.issue, IocpState.setSource, IocpState.calloc, if_neg hne]
  refine ⟨fun x => ?_, h.home.cons _, ?_, ?_⟩
  · show (if x = st.made then some o else st.wrappers x).isSome = true ↔ x ∈ st.made :: st.inFlight
    rw [List.mem_cons]
    split
    · next hx => simp [hx]
    · next hx =>
      rw [or_iff_right hx]
      exact h.live x
  · show (st.freed ++ st.made :: st.inFlight).Perm (List.range (st.made + 1))
    rw [List.range_succ]
    exact List.perm_middle.trans ((h.spent.cons _).trans (List.perm_append_singleton _ _).symm)
  · show (st.closed ++ st.given.map Gift.number ++ st.lost ++ [] ++
      (st.made :: st.inFlight).filterMap (st.issue o none).1.childAt).Perm (List.range st.sockets)
    have hmade : (st.issue o none).1.childAt st.made = o.child := by
      simp [childAt, IocpState.issue, IocpState.setSource, IocpState.calloc]
    have hcons : (st.made :: st.inFlight).filterMap (st.issue o none).1.childAt =
        o.child.toList ++ st.inFlight.filterMap st.childAt := by
      rw [List.filterMap_cons, hmade, List.filterMap_congr fun x hx => hchild hx]
      cases o.child <;> rfl
    rw [hcons, List.append_nil, ← List.append_assoc]
    exact h.children

/-- A call that is refused leaves nothing but an address that is used up. -/
theorem Owns.refused (h : st.Owns hand) (e : UInt32) : (st.issue o (some e)).1.Owns hand :=
  (h.spoils (o := o)).congr rfl rfl (.refl _) rfl rfl (.refl _) rfl

/-- A wrapper comes home with the first packet, and is freed; its socket is in the hand. -/
theorem Owns.retires {port : List Packet} {p : Packet} (h : st.Owns []) (ho : st.wrappers w = some o)
    (hport : st.port = p :: port) (hp : p.wrapper = some w) :
    Owns ({ st with port, inFlight := st.inFlight.erase w }.free w) o.child.toList := by
  have hw : w ∈ st.inFlight := (h.live w).mp (by rw [ho]; rfl)
  have hperm : st.inFlight.Perm (w :: st.inFlight.erase w) := List.perm_cons_erase hw
  have hnot : w ∉ st.inFlight.erase w := (List.nodup_cons.mp (hperm.nodup_iff.mp h.nodup)).1
  refine ⟨fun x => ?_, ?_, ?_, ?_⟩
  · show (if x = w then none else st.wrappers x).isSome = true ↔ x ∈ st.inFlight.erase w
    split
    · next hx =>
      subst hx
      simpa using hnot
    · next hx =>
      rw [h.live x, hperm.mem_iff, List.mem_cons, or_iff_right hx]
  · show (st.issued ++ port.filterMap Packet.wrapper ++ st.dropped).Perm (st.inFlight.erase w)
    have hhome := h.home
    rw [hport, List.filterMap_cons, hp] at hhome
    apply List.Perm.cons_inv (a := w)
    refine List.Perm.trans ?_ (hhome.trans hperm)
    rw [List.append_assoc, List.append_assoc]
    exact List.perm_middle.symm
  · show (st.freed ++ [w] ++ st.inFlight.erase w).Perm (List.range st.made)
    rw [List.append_assoc]
    exact (hperm.symm.append_left _).trans h.spent
  · have hrest : (st.inFlight.erase w).filterMap
        ({ st with port, inFlight := st.inFlight.erase w }.free w).childAt =
        (st.inFlight.erase w).filterMap st.childAt := by
      apply List.filterMap_congr
      intro x hx
      have hne : x ≠ w := by
        rintro rfl
        exact hnot hx
      simp only [childAt, IocpState.free, if_neg hne]
    have hall : (st.inFlight.filterMap st.childAt).Perm
        (o.child.toList ++ (st.inFlight.erase w).filterMap st.childAt) := by
      refine (hperm.filterMap _).trans ?_
      rw [List.filterMap_cons, childAt, ho, Option.bind_some]
      cases o.child <;> exact .refl _
    show (st.closed ++ st.given.map Gift.number ++ st.lost ++ o.child.toList ++
      (st.inFlight.erase w).filterMap _).Perm _
    rw [hrest, List.append_assoc]
    have hperm' := h.children
    rw [List.append_nil] at hperm'
    exact (hall.symm.append_left _).trans hperm'

/-- An accept that is armed has a socket in its wrapper; one that is not has none left. -/
theorem Owns.arms (h : st.Owns []) (s : Sqe) (op : Slot) (a : WinAnswers) :
    (st.iocpArmAccept s op a).1.Owns [] := by
  unfold iocpArmAccept
  split
  · exact h
  split
  · exact h
  next fd =>
  have hmade := h.makes
  dsimp only
  split
  · exact hmade.closesocket
  cases a.refused with
  | none => exact hmade.launches
  | some e => exact (hmade.refused e).closesocket

theorem Owns.calls (h : st.Owns []) (hchild : o.child = none) (refused : Option UInt32) :
    (st.issue o refused).1.Owns [] := by
  cases refused with
  | none => exact Owns.launches (by rwa [hchild])
  | some e => exact h.refused e

theorem Owns.issues (h : st.Owns []) (s : Sqe) (op : Slot) (a : WinAnswers) :
    (st.iocpIssue s op a).1.Owns [] := by
  have hmsg : (st.iocpIssueMsg s ⟨op, .io⟩ a).1.Owns [] := by
    unfold iocpIssueMsg
    split
    · exact h.spoils
    split
    · exact h.calls rfl _
    · exact h.spoils.congr rfl rfl (.refl _) rfl rfl (.refl _) rfl
  unfold iocpIssue
  split
  · exact h
  split
  · exact h.calls rfl _
  · exact h.calls rfl _
  · exact hmsg
  · exact hmsg
  · exact h.calls rfl _

theorem Owns.executes (h : st.Owns []) (r : Ring) (op : Slot) (a : WinAnswers) :
    (st.iocpExecute r op a).1.Owns [] := by
  unfold iocpExecute
  dsimp only
  split
  · exact h
  split
  · exact h.arms _ _ _
  split
  · exact h
  · exact h.issues _ _ _

/-- The socket of an accept that has ended is closed or given away. -/
theorem Owns.answers (h : st.Owns o.child.toList) (r : Ring) (answer : Except UInt32 UInt32) :
    (st.iocpAnswer r o answer).2.1.Owns [] := by
  obtain ⟨op, kind⟩ := o
  cases kind with
  | accept accepted multishot fileIndex =>
    cases answer with
    | error e => exact h.closesocket
    | ok bytes =>
      simp only [iocpAnswer]
      split
      · split
        · exact h.closesocket
        · exact h.gives
      · exact h.gives
  | io | connect | poll => cases answer <;> exact h

/-- What is answered does not depend on the wrapper's memory. -/
theorem iocpAnswer_free (r : Ring) (o : IocpOp) (answer : Except UInt32 UInt32) :
    (st.iocpAnswer r o answer).2.1.free w = ((st.free w).iocpAnswer r o answer).2.1 ∧
      (st.iocpAnswer r o answer).1 = ((st.free w).iocpAnswer r o answer).1 := by
  unfold iocpAnswer
  cases answer with
  | error e => cases o.kind <;> exact ⟨rfl, rfl⟩
  | ok bytes =>
    cases o.kind with
    | accept accepted multishot fileIndex =>
      dsimp only
      split
      · split <;> exact ⟨rfl, rfl⟩
      · exact ⟨rfl, rfl⟩
    | io | connect | poll => exact ⟨rfl, rfl⟩

end Owns

end IocpState

/-- A ring that is open, that `iocp_close_ring` drains, and that is closed. -/
inductive RingPhase where
  | running
  | closing
  | closed
  deriving DecidableEq

/-- `draining` once `iocp_wait` has taken a packet, when its timeout is 0. `senders` are the other rings
that have emitted and not yet poked. -/
structure Iocp where
  core : Core
  be : IocpState := {}
  draining : Bool := false
  phase : RingPhase := .running
  senders : ℕ := 0

/-- What the caller registers; the installs are the backend's. -/
def TableLabel.registers : TableLabel → Bool
  | .files2 _ _ | .allocRange _ | .unregister => true
  | .install _ _ | .clear _ => false

/-- `a` are the answers of Windows; `reads` are the caller's, as in the core. -/
inductive IocpLabel where
  | engine (l : CoreLabel)
  | execute (a : WinAnswers)
  | ends (w : ℕ) (answer : Except UInt32 UInt32)
  | take (a : WinAnswers) (reads : List ℕ)
  | back
  | senderEmit (userData : UInt64) (res : Int32) (reads : List ℕ)
  | senderPoke (posted : Bool)
  | registers (l : TableLabel)
  | close
  | drain
  | closed

namespace Iocp

/-- What a step comes to: what it reports, and the state after it. -/
abbrev Out := Option (List PosixEvent × Iocp)

def quiet (s : Iocp) : Out := some ([], s)

def inCore (s : Iocp) (l : CoreLabel) : Out :=
  (s.core.step l).map fun c => ((s.core.events l).map .core, { s with core := c })

def andThen (x : Out) (f : Iocp → Out) : Out :=
  x.bind fun p => (f p.2).map fun q => (p.1 ++ q.1, q.2)

def setRing (s : Iocp) (r : Ring) : Iocp := { s with core := { s.core with ring := r } }

def execute (s : Iocp) (a : WinAnswers) : Out :=
  match s.core.pc with
  | .exec _ op _ false =>
    match s.be.iocpExecute s.core.ring op a with
    | (be, some res) => { s with be }.inCore (.execDone res)
    | (be, none) => andThen ({ s with be }.inCore .execTake) (·.inCore .execPending)
  | _ => none

/-- The CQE with F_MORE of an accept. -/
def emits (s : Iocp) (op : Slot) (res : Int32) : List PosixEvent :=
  match (s.core.ring.opPool op).seq with
  | some i => [.emits i ⟨(s.core.ring.opPool op).sqe.userData, res, ioringCqeFMore⟩]
  | none => []

/-- The next accept of the same op, or its end. -/
def armNext (s : Iocp) (op : Slot) (a : WinAnswers) : Out :=
  match s.be.iocpArmAccept (s.core.ring.opPool op).sqe op a with
  | (be, none) => { s with be }.quiet
  | (be, some _) => { s with be }.inCore (.handBack op (-ecanceled))

/-- A multishot accept that has accepted goes on. -/
def rearm (s : Iocp) (op : Slot) (res : Int32) (a : WinAnswers) (reads : List ℕ) : Out :=
  let userData := (s.core.ring.opPool op).sqe.userData
  andThen
    (some (s.emits op res, s.setRing (s.core.ring.inVault (·.slipEngineEmit userData res ioringCqeFMore reads))))
    (·.armNext op a)

/-- One turn of the loop of `iocp_wait` with a packet at the port; a wrapper that was freed is not read. -/
def take (s : Iocp) (a : WinAnswers) (reads : List ℕ) : Out :=
  match s.core.pc, s.be.port with
  | .wait _ _ done, packet :: port =>
    if s.core.ring.opPoolN ≤ done.length then none
    else
      match packet with
      | .poke => quiet { s with be := { s.be with port }, draining := true }
      | .io w answer =>
        (s.be.wrappers w).bind fun o =>
          let be := { s.be with port, inFlight := s.be.inFlight.erase w }
          let (r, be, res) := be.iocpAnswer s.core.ring o answer
          let s := { s with be := (be.setSource o.op none).free w, draining := true }.setRing r
          if o.multishot && answer.isOk && 0 ≤ res then s.rearm o.op res a reads
          else s.inCore (.handBack o.op res)
  | _, _ => none

/-- The wait comes back with `max` ops, or the port is empty: for as long as the wait may take, or once a
packet was taken. -/
def waitReturns (s : Iocp) : Out :=
  match s.core.pc with
  | .wait _ forever done =>
    if s.core.ring.opPoolN ≤ done.length ∨ s.be.port = [] ∧ (s.draining ∨ forever = false) then
      { s with draining := false }.inCore .waitReturn
    else none
  | _ => none

/-- The loop of `iocp_close_ring` over the port. -/
def drain (s : Iocp) : Out :=
  match s.be.port with
  | packet :: port =>
    if s.be.inFlight = [] then none
    else
      match packet with
      | .poke => quiet { s with be := { s.be with port } }
      | .io w _ =>
        (s.be.wrappers w).bind fun o =>
          let be := { s.be with
            port
            inFlight := s.be.inFlight.erase w
            lost := s.be.lost ++ o.child.toList }
          quiet { s with be := be.free w }
  | [] => none

/-- A registration between two enters. -/
def registers (s : Iocp) (l : TableLabel) : Iocp :=
  let be := if l = TableLabel.unregister then s.be.closeTable else s.be
  { s with be }.setRing (s.core.ring.tableStep l).1

/-- It ends with all wrappers home, or when for a second no packet has come; then the engine closes what is
in the fixed table. -/
def closePort (s : Iocp) : Out :=
  if s.be.inFlight = [] ∨ s.be.port = [] then
    let be := { s.be with dropped := s.be.port.filterMap Packet.wrapper, port := [] }
    quiet (registers { s with be, phase := .closed } .unregister)
  else none

/-- A call ends; Windows writes into its OVERLAPPED, and the port, if there is one, gets its packet. -/
def ends (s : Iocp) (w : ℕ) (answer : Except UInt32 UInt32) : Out :=
  if w ∈ s.be.issued then
    let be := { s.be with issued := s.be.issued.erase w }
    if s.phase = .closed then quiet { s with be := { be with dropped := be.dropped ++ [w] } }
    else quiet { s with be := { be with port := be.port ++ [.io w answer] } }
  else none

def running (s : Iocp) : IocpLabel → Out
  | .engine l => if l.isEngine then s.inCore l else none
  | .execute a => s.execute a
  | .take a reads => s.take a reads
  | .back => s.waitReturns
  | .senderEmit u res reads =>
    quiet { s.setRing (s.core.ring.inVault (·.slipEngineEmit u res 0 reads)) with
      senders := s.senders + 1 }
  | .senderPoke posted =>
    if 0 < s.senders then
      quiet { s with
        be := { s.be with port := if posted then s.be.port ++ [.poke] else s.be.port }
        senders := s.senders - 1 }
    else none
  | .registers l =>
    match s.core.pc with
    | .out _ => if l.registers then quiet (s.registers l) else none
    | _ => none
  | .close =>
    match s.core.pc with
    | .out _ => quiet { s with phase := .closing }
    | _ => none
  | .ends _ _ | .drain | .closed => none

def out (s : Iocp) (l : IocpLabel) : Out :=
  match l, s.phase with
  | .ends w answer, _ => s.ends w answer
  | .drain, .closing => s.drain
  | .closed, .closing => s.closePort
  | l, .running => s.running l
  | _, _ => none

end Iocp

def iocpMachine : Machine Iocp IocpLabel PosixEvent where
  step s l := (s.out l).map Prod.snd
  events s l := ((s.out l).map Prod.fst).getD []

/-- A ring as setup leaves it. -/
def setupIocp (n : ℕ) (cqEntries : UInt32) : Iocp := { core := setupCore n cqEntries }

end SlipstreamIO.Engine
