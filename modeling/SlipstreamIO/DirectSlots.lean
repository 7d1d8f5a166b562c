import Mathlib.Data.List.GetD
import SlipstreamIO.FileSlots
import SlipstreamIO.PosixTry
import SlipstreamIO.SyscallSwitch

/-! SOCKET, ACCEPT and CLOSE on slots of the fixed table, as the readiness family does them and as the
completion backend does, on the same answers of the system. -/
namespace SlipstreamIO.Engine
open Syscall (enomem)

def enotsock : Int32 := 88

/-- `win_err_to_errno`, with the values of the Windows errors it knows. -/
def winErrToErrno (e : UInt32) : Int32 :=
  if e = 38 then 0  -- ERROR_HANDLE_EOF
  else if e = 10054 ∨ e = 64 then -104  -- WSAECONNRESET, ERROR_NETNAME_DELETED: ECONNRESET
  else if e = 10053 then -103  -- WSAECONNABORTED: ECONNABORTED
  else if e = 10038 then -enotsock  -- WSAENOTSOCK
  else if e = 10058 then -32  -- WSAESHUTDOWN: EPIPE
  else if e = 995 then -ecanceled  -- ERROR_OPERATION_ABORTED
  else -5  -- EIO

/-- What closesocket answers for a descriptor. -/
inductive CloseAnswer where
  | closed
  | notSock
  | failed
  deriving DecidableEq

/-- The answers to the closes: closesocket's, and `_close`'s to what is no socket; and the errno of a
close that fails. -/
structure CloseOs where
  closesocket : Int32 → CloseAnswer
  crtClose : Int32 → Bool
  closeErrno : Int32 → Int32

/-- close(2) of a descriptor, a socket or not. -/
def CloseOs.close (os : CloseOs) (fd : Int32) : Bool :=
  match os.closesocket fd with
  | .closed => true
  | .notSock => os.crtClose fd
  | .failed => false

/-- A socket the system made; it closes one that is new. -/
structure MadeSocket (os : CloseOs) where
  fd : Int32
  nonneg : 0 ≤ fd
  closes : os.closesocket fd = .closed

/-- Why an accept could not be issued: no AcceptEx or no port for the listener, no socket for it, no
memory, or AcceptEx refuses. -/
inductive ArmFailure where
  | notSock
  | noSocket (e : UInt32)
  | noMem
  | refused (e : UInt32)

def ArmFailure.res : ArmFailure → Int32
  | .notSock => -enotsock
  | .noSocket e | .refused e => winErrToErrno e
  | .noMem => -enomem

/-- What comes of one accept: it cannot be issued, it completes with a socket, or with an error. -/
inductive AcceptTurn (os : CloseOs) where
  | armFails (f : ArmFailure)
  | accepted (m : MadeSocket os)
  | failed (e : UInt32)

/-- The answers of the system to an op; the accepts one after the other, as far as they have come. -/
structure DirectOs extends CloseOs where
  socket : Except UInt32 (MadeSocket toCloseOs)
  accepts : List (AcceptTurn toCloseOs)

/-- What comes of an op: the ring with its table, the CQEs with F_MORE, the completion, if there is one
yet, the descriptors that were closed, and those the op made that are open. A socket that the op made
and closed again is in neither list. -/
structure DirectOutcome where
  ring : Ring
  emits : List Int32 := []
  res : Option Int32 := none
  closed : List Int32 := []
  kept : List Int32 := []

/-- A CQE with F_MORE for a socket that stays, in front of what comes after. -/
def DirectOutcome.more (answer fd : Int32) (o : DirectOutcome) : DirectOutcome :=
  { o with emits := answer :: o.emits, kept := fd :: o.kept }

section Posix
variable (sqe : Sqe) (r : Ring)

/-- `install_direct`; on a full table the new descriptor is closed. -/
def installDirect (newfd : Int32) : DirectOutcome :=
  let (r', slot) := r.slipFixedInstall sqe.fileIndex newfd
  if slot < 0 then { ring := r', res := some slot }
  else { ring := r', res := some (if sqe.fileIndex = ioringFileIndexAlloc then slot else 0), kept := [newfd] }

/-- IORING_OP_CLOSE with a slot in `file_index`. -/
def posixClose (os : CloseOs) : DirectOutcome :=
  let slot := sqe.fileIndex - 1
  let real := r.slipFixedLookup slot.toInt32
  if real < 0 then { ring := r, res := some real }
  else
    let r' := (r.slipFixedClear slot.toNat).1
    if os.close real then { ring := r', res := some 0, closed := [real] }
    else { ring := r', res := some (-os.closeErrno real) }

/-- IORING_OP_SOCKET. -/
def posixSocket {os : CloseOs} (made : Except UInt32 (MadeSocket os)) : DirectOutcome :=
  if sqe.opFlags ≠ 0 then { ring := r, res := some (-einval) }
  else
    match made with
    | .error e => { ring := r, res := some (winErrToErrno e) }
    | .ok m => installDirect sqe r m.fd

/-- IORING_OP_ACCEPT, over the accepts that do not answer EAGAIN. -/
def posixAccept {os : CloseOs} : Ring → List (AcceptTurn os) → DirectOutcome
  | r, [] => { ring := r }
  | r, .armFails f :: _ => { ring := r, res := some f.res }
  | r, .failed e :: _ => { ring := r, res := some (winErrToErrno e) }
  | r, .accepted m :: rest =>
    let out := installDirect sqe r m.fd
    if sqe.ioprio &&& ioringAcceptMultishot ≠ 0 then
      match out.res with
      | some answer => if answer < 0 then out else (posixAccept out.ring rest).more answer m.fd
      | none => out
    else out

end Posix

section Iocp
variable (sqe : Sqe) (r : Ring)

/-- IORING_OP_CLOSE. -/
def iocpClose (os : CloseOs) : DirectOutcome :=
  match os.closesocket sqe.fd with
  | .closed => { ring := r, res := some 0, closed := [sqe.fd] }
  | .notSock =>
    if os.crtClose sqe.fd then { ring := r, res := some 0, closed := [sqe.fd] }
    else { ring := r, res := some (-ebadf) }
  | .failed => { ring := r, res := some (-ebadf) }

/-- IORING_OP_SOCKET. -/
def iocpSocket {os : CloseOs} (made : Except UInt32 (MadeSocket os)) : DirectOutcome :=
  match made with
  | .error e => { ring := r, res := some (winErrToErrno e) }
  | .ok m => { ring := r, res := some m.fd, kept := [m.fd] }

/-- IORING_OP_ACCEPT: `first` is the one that iocp_execute arms, the others are armed where iocp_wait
takes the completion of the one before. -/
def iocpAccept {os : CloseOs} : Bool → Ring → List (AcceptTurn os) → DirectOutcome
  | _, r, [] => { ring := r }
  | first, r, .armFails f :: _ => { ring := r, res := some (if first then f.res else -ecanceled) }
  | _, r, .failed e :: _ => { ring := r, res := some (winErrToErrno e) }
  | _, r, .accepted m :: rest =>
    let (r', slot) := r.slipFixedInstall sqe.fileIndex m.fd
    if slot < 0 then { ring := r', res := some slot }
    else
      let answer := if sqe.fileIndex = ioringFileIndexAlloc then slot else 0
      if sqe.ioprio &&& ioringAcceptMultishot ≠ 0 then
        (iocpAccept false r' rest).more answer m.fd
      else { ring := r', res := some answer, kept := [m.fd] }

end Iocp

inductive DirectKind where
  | close
  | socket
  | accept

def DirectKind.opcode : DirectKind → Opcode
  | .close => .close
  | .socket => .socket
  | .accept => .accept

/-- An op of the three that names a slot. -/
structure DirectOp where
  kind : DirectKind
  sqe : Sqe
  opcode : sqe.opcode = kind.opcode
  direct : sqe.fileIndex ≠ 0

namespace DirectOp
variable (op : DirectOp) (r : Ring) (os : DirectOs)

/-- `slip_posix_try`, with the retries of an accept. -/
def posix : DirectOutcome :=
  match op.kind with
  | .close => posixClose op.sqe r os.toCloseOs
  | .socket => posixSocket op.sqe r os.socket
  | .accept => posixAccept op.sqe r os.accepts

/-- `iocp_execute` and `iocp_wait`. -/
def iocp : DirectOutcome :=
  match op.kind with
  | .close => iocpClose op.sqe r os.toCloseOs
  | .socket => iocpSocket r os.socket
  | .accept => iocpAccept op.sqe true r os.accepts

/-- The two do the same, or the completion backend refuses the op. -/
def Agrees : Prop :=
  op.iocp r os = op.posix r os ∨ op.iocp r os = { ring := r, res := some (-eopnotsupp) }

/-- All these sockets find a slot, one after the other. -/
def AllInstalled (fileIndex : UInt32) {os : CloseOs} : Ring → List (MadeSocket os) → Prop
  | _, [] => True
  | r, m :: rest => 0 ≤ (r.slipFixedInstall fileIndex m.fd).2 ∧
      AllInstalled fileIndex (r.slipFixedInstall fileIndex m.fd).1 rest

/-- CLOSE: the slot is empty, and the descriptor in `fd` does not close. SOCKET: there are no flags, and
no socket is made. ACCEPT: a multishot that has accepted sockets is not one whose next accept cannot be
issued, other than for a cancel. -/
def Spared : Prop :=
  match op.kind with
  | .close => r.slipFixedLookup (op.sqe.fileIndex - 1).toInt32 < 0 ∧ os.close op.sqe.fd = false
  | .socket => op.sqe.opFlags = 0 ∧ ∃ e, os.socket = .error e
  | .accept => op.sqe.ioprio &&& ioringAcceptMultishot ≠ 0 → ∀ pre f post,
      os.accepts = pre.map AcceptTurn.accepted ++ .armFails f :: post → pre ≠ [] →
        AllInstalled op.sqe.fileIndex r pre → f.res = -ecanceled

end DirectOp

theorem winErrToErrno_ne (e : UInt32) :
    winErrToErrno e ≠ -eopnotsupp ∧ winErrToErrno e ≠ -einval ∧ ¬ 0 < winErrToErrno e := by
  unfold winErrToErrno
  split_ifs <;> decide

theorem toNat_toInt32 {x : UInt32} (h : ¬ x.toInt32 < 0) : x.toInt32.toInt.toNat = x.toNat := by
  have hle := Int32.le_iff_toInt_le.mp (Int32.not_lt.mp h)
  have hz : Int32.toInt 0 = 0 := rfl
  have hlt := x.toNat_lt
  rw [hz, ← Int32.toInt_toBitVec, UInt32.toBitVec_toInt32, BitVec.toInt_eq_toNat_cond,
    UInt32.toNat_toBitVec] at hle
  rw [← Int32.toInt_toBitVec, UInt32.toBitVec_toInt32, BitVec.toInt_eq_toNat_cond,
    UInt32.toNat_toBitVec]
  split at hle
  · next hsmall =>
    rw [if_pos hsmall]
    rfl
  · omega

section Tables
variable {r : Ring} {table : List Int32} {slot : ℕ} {fd : Int32}

theorem set_ne_of_sign (hlt : slot < table.length) (hsign : table.getD slot 0 < 0 ↔ 0 ≤ fd) :
    table.set slot fd ≠ table := by
  intro he
  have hhere : (table.set slot fd).getD slot 0 = fd := by rw [getD_set, if_pos ⟨rfl, hlt⟩]
  rw [he] at hhere
  rw [hhere] at hsign
  by_cases hneg : fd < 0
  · exact absurd (hsign.mp hneg) (Int32.not_le.mpr hneg)
  · exact hneg (hsign.mpr (Int32.not_lt.mp hneg))

theorem lt_length_of_getD (h : table.getD slot 0 < 0) : slot < table.length := by
  by_contra hge
  have hdefault : table.getD slot 0 = 0 := List.getD_eq_default _ _ (Nat.not_lt.mp hge)
  rw [hdefault] at h
  exact absurd h (by decide)

theorem allocScan_free {off stop tries probe : ℕ}
    (h : Ring.allocScan table off stop tries probe = some slot) : table.getD slot 0 < 0 := by
  induction tries generalizing probe with
  | zero => cases h
  | succ tries ih =>
    rw [Ring.allocScan] at h
    split at h
    · next hfree => rwa [← Option.some.inj h]
    · exact ih h

/-- An install that gives a slot changes the table. -/
theorem Ring.slipFixedInstall_changes {fileIndex : UInt32} (hfd : 0 ≤ fd)
    (h : ¬ (r.slipFixedInstall fileIndex fd).2 < 0) : (r.slipFixedInstall fileIndex fd).1 ≠ r := by
  have hchanged {table : List Int32} {slot : ℕ} {r' : Ring} (htable : r.fixed = some table)
      (hfree : table.getD slot 0 < 0) (hr' : r'.fixed = some (table.set slot fd)) : r' ≠ r := by
    intro he
    rw [he, htable] at hr'
    refine set_ne_of_sign (lt_length_of_getD hfree) ⟨fun _ => hfd, fun _ => hfree⟩ ?_
    exact (Option.some.inj hr').symm
  unfold Ring.slipFixedInstall at h ⊢
  cases htable : r.fixed with
  | none =>
    simp only [htable] at h
    exact absurd (by decide) h
  | some table =>
    simp only [htable] at h ⊢
    by_cases halloc : fileIndex = ioringFileIndexAlloc
    · simp only [if_pos halloc] at h ⊢
      cases hscan : Ring.allocScan table r.allocOff (r.allocOff + r.allocLen) r.allocLen
          (if r.allocHint < r.allocOff ∨ r.allocOff + r.allocLen ≤ r.allocHint then r.allocOff
            else r.allocHint) with
      | none =>
        simp only [hscan] at h
        exact absurd (by decide) h
      | some slot => exact hchanged htable (allocScan_free hscan) rfl
    · simp only [if_neg halloc] at h ⊢
      cases hheld : table[(fileIndex - 1).toNat]? with
      | none =>
        simp only [hheld] at h
        exact absurd (by decide) h
      | some held =>
        simp only [hheld] at h ⊢
        by_cases hbusy : 0 ≤ held
        · rw [if_pos hbusy] at h
          exact absurd (show -ebusy < 0 by decide) h
        · rw [if_neg hbusy]
          have hfree : table.getD (fileIndex - 1).toNat 0 < 0 := by
            rw [List.getD_eq_getElem?_getD, hheld, Option.getD_some]
            exact Int32.not_le.mp hbusy
          exact hchanged htable hfree rfl

/-- A close that finds a descriptor in the slot changes the table. -/
theorem Ring.slipFixedClear_changes {x : UInt32} (h : ¬ r.slipFixedLookup x.toInt32 < 0) :
    (r.slipFixedClear x.toNat).1 ≠ r := by
  unfold Ring.slipFixedLookup at h
  cases htable : r.fixed with
  | none =>
    simp only [htable] at h
    exact absurd (by decide) h
  | some table =>
    simp only [htable] at h
    by_cases hneg : x.toInt32 < 0
    · rw [if_pos hneg] at h
      exact absurd (by decide) h
    rw [if_neg hneg, toNat_toInt32 hneg] at h
    cases hheld : table[x.toNat]? with
    | none =>
      simp only [hheld] at h
      exact absurd (by decide) h
    | some held =>
      simp only [hheld] at h
      by_cases hempty : held < 0
      · rw [if_pos hempty] at h
        exact absurd (by decide) h
      unfold Ring.slipFixedClear
      simp only [htable, hheld, if_neg hempty]
      have hhere : table.getD x.toNat 0 = held := by
        rw [List.getD_eq_getElem?_getD, hheld, Option.getD_some]
      intro he
      have hset := (congrArg Ring.fixed he).trans htable
      refine set_ne_of_sign (List.getElem?_eq_some_iff.mp hheld).1 ?_ (Option.some.inj hset)
      rw [hhere]
      exact ⟨fun hneg => absurd hneg hempty, fun hge => absurd hge (by decide)⟩

end Tables

section Accepts
variable {sqe : Sqe} {r : Ring} {os : CloseOs}

theorem installDirect_full {fd : Int32} (h : (r.slipFixedInstall sqe.fileIndex fd).2 < 0) :
    installDirect sqe r fd =
      { ring := (r.slipFixedInstall sqe.fileIndex fd).1
        res := some (r.slipFixedInstall sqe.fileIndex fd).2 } := if_pos h

theorem installDirect_slot {fd : Int32} (h : ¬ (r.slipFixedInstall sqe.fileIndex fd).2 < 0) :
    installDirect sqe r fd =
      { ring := (r.slipFixedInstall sqe.fileIndex fd).1
        res := some (if sqe.fileIndex = ioringFileIndexAlloc then
          (r.slipFixedInstall sqe.fileIndex fd).2 else 0)
        kept := [fd] } := if_neg h

/-- An accept with no slot for its socket ends alike. -/
theorem accepts_full {m : MadeSocket os} (h : (r.slipFixedInstall sqe.fileIndex m.fd).2 < 0) (first : Bool)
    (rest : List (AcceptTurn os)) :
    iocpAccept sqe first r (.accepted m :: rest) = posixAccept sqe r (.accepted m :: rest) := by
  rw [iocpAccept, posixAccept]
  simp only [installDirect_full h, if_pos h]
  split <;> rfl

/-- A multishot accept with a slot for its socket goes on alike. -/
theorem accepts_slot {m : MadeSocket os} (h : ¬ (r.slipFixedInstall sqe.fileIndex m.fd).2 < 0)
    (hmulti : sqe.ioprio &&& ioringAcceptMultishot ≠ 0) (first : Bool) (rest : List (AcceptTurn os)) :
    ∃ answer, iocpAccept sqe first r (.accepted m :: rest) =
        (iocpAccept sqe false (r.slipFixedInstall sqe.fileIndex m.fd).1 rest).more answer m.fd ∧
      posixAccept sqe r (.accepted m :: rest) =
        (posixAccept sqe (r.slipFixedInstall sqe.fileIndex m.fd).1 rest).more answer m.fd := by
  refine ⟨if sqe.fileIndex = ioringFileIndexAlloc then
    (r.slipFixedInstall sqe.fileIndex m.fd).2 else 0, ?_, ?_⟩
  · rw [iocpAccept]
    simp only [if_neg h, if_pos hmulti]
  · have hanswer : ¬ (if sqe.fileIndex = ioringFileIndexAlloc then
        (r.slipFixedInstall sqe.fileIndex m.fd).2 else 0) < 0 := by
      split
      · exact h
      · decide
    rw [posixAccept]
    simp only [installDirect_slot h, if_pos hmulti, if_neg hanswer]

theorem DirectOutcome.more_inj {answer fd : Int32} {o o' : DirectOutcome}
    (h : o.more answer fd = o'.more answer fd) : o = o' := by
  simp only [DirectOutcome.more, DirectOutcome.mk.injEq, List.cons.injEq, true_and] at h
  obtain ⟨hring, hemits, hres, hclosed, hkept⟩ := h
  cases o
  cases o'
  simp only [DirectOutcome.mk.injEq]
  exact ⟨hring, hemits, hres, hclosed, hkept⟩

/-- An accept that is not a multishot is the same on both sides. -/
theorem accept_once (honce : ¬ sqe.ioprio &&& ioringAcceptMultishot ≠ 0) (turns : List (AcceptTurn os)) :
    iocpAccept sqe true r turns = posixAccept sqe r turns := by
  cases turns with
  | nil => rfl
  | cons turn rest =>
    cases turn with
    | armFails f => rfl
    | failed e => rfl
    | accepted m =>
      by_cases hfull : (r.slipFixedInstall sqe.fileIndex m.fd).2 < 0
      · exact accepts_full hfull true rest
      · rw [iocpAccept, posixAccept]
        simp only [installDirect_slot hfull, if_neg hfull, if_neg honce]

/-- Where the two part, the completion backend says -ECANCELED. -/
theorem accept_eq_or_canceled (first : Bool) (hfirst : first = true ∨ sqe.ioprio &&& ioringAcceptMultishot ≠ 0)
    (turns : List (AcceptTurn os)) : iocpAccept sqe first r turns = posixAccept sqe r turns ∨
      (iocpAccept sqe first r turns).res = some (-ecanceled) := by
  by_cases hmulti : sqe.ioprio &&& ioringAcceptMultishot ≠ 0
  · clear hfirst
    induction turns generalizing r first with
    | nil => exact Or.inl rfl
    | cons turn rest ih =>
      cases turn with
      | armFails f =>
        cases first with
        | true => exact Or.inl rfl
        | false => exact Or.inr rfl
      | failed e => exact Or.inl rfl
      | accepted m =>
        by_cases hfull : (r.slipFixedInstall sqe.fileIndex m.fd).2 < 0
        · exact Or.inl (accepts_full hfull first rest)
        · obtain ⟨answer, hiocp, hposix⟩ := accepts_slot hfull hmulti first rest
          rw [hiocp, hposix]
          rcases ih (r := (r.slipFixedInstall sqe.fileIndex m.fd).1) false with he | hres
          · exact Or.inl (congrArg _ he)
          · exact Or.inr hres
  · obtain rfl := hfirst.resolve_right hmulti
    exact Or.inl (accept_once hmulti turns)

/-- The multishot accepts of the two are one, as long as no accept behind the first cannot be issued. -/
theorem accept_agree_iff (hmulti : sqe.ioprio &&& ioringAcceptMultishot ≠ 0) (first : Bool)
    (turns : List (AcceptTurn os)) :
    iocpAccept sqe first r turns = posixAccept sqe r turns ↔
      ∀ pre f post, turns = pre.map AcceptTurn.accepted ++ .armFails f :: post →
        (first = true → pre ≠ []) → DirectOp.AllInstalled sqe.fileIndex r pre → f.res = -ecanceled := by
  induction turns generalizing r first with
  | nil =>
    refine ⟨fun _ pre f post hsplit => ?_, fun _ => rfl⟩
    exact absurd hsplit.symm (List.append_ne_nil_of_right_ne_nil _ (List.cons_ne_nil _ _))
  | cons turn rest ih =>
    cases turn with
    | failed e =>
      refine ⟨fun _ pre f post hsplit => ?_, fun _ => rfl⟩
      cases pre with
      | nil => cases hsplit
      | cons m pre => cases hsplit
    | armFails f =>
      constructor
      · intro he pre f' post hsplit hpre _
        cases pre with
        | cons m pre => cases hsplit
        | nil =>
          obtain rfl : f = f' := AcceptTurn.armFails.inj (List.cons.inj hsplit).1
          cases first with
          | true => exact absurd rfl (hpre rfl)
          | false => exact (Option.some.inj (congrArg DirectOutcome.res he)).symm
      · intro hcanceled
        cases first with
        | true => rfl
        | false =>
          have hres := hcanceled [] f rest rfl (fun h => by cases h) trivial
          rw [iocpAccept, posixAccept, hres]
          rfl
    | accepted m =>
      by_cases hfull : (r.slipFixedInstall sqe.fileIndex m.fd).2 < 0
      · refine ⟨fun _ pre f post hsplit _ hall => ?_, fun _ => accepts_full hfull first rest⟩
        cases pre with
        | nil => cases hsplit
        | cons m' pre =>
          obtain rfl : m = m' := AcceptTurn.accepted.inj (List.cons.inj hsplit).1
          exact absurd hfull (Int32.not_lt.mpr hall.1)
      · obtain ⟨answer, hiocp, hposix⟩ := accepts_slot hfull hmulti first rest
        have hmore : iocpAccept sqe first r (.accepted m :: rest) =
              posixAccept sqe r (.accepted m :: rest) ↔
            iocpAccept sqe false (r.slipFixedInstall sqe.fileIndex m.fd).1 rest =
              posixAccept sqe (r.slipFixedInstall sqe.fileIndex m.fd).1 rest := by
          rw [hiocp, hposix]
          exact ⟨DirectOutcome.more_inj, congrArg _⟩
        rw [hmore, ih]
        constructor
        · intro hrest pre f post hsplit _ hall
          cases pre with
          | nil => cases hsplit
          | cons m' pre =>
            obtain ⟨hm, htail⟩ := List.cons.inj hsplit
            obtain rfl : m = m' := AcceptTurn.accepted.inj hm
            exact hrest pre f post htail (fun h => by cases h) hall.2
        · intro hall pre f post hsplit _ hinstalled
          apply hall (m :: pre) f post (by rw [hsplit]; rfl) (fun _ => List.cons_ne_nil _ _)
          exact ⟨Int32.not_lt.mp hfull, hinstalled⟩

end Accepts

section Closes
variable {sqe : Sqe} {r : Ring} {os : CloseOs}

theorem Ring.slipFixedLookup_empty {slot : Int32} (h : r.slipFixedLookup slot < 0) :
    r.slipFixedLookup slot = -ebadf := by
  unfold Ring.slipFixedLookup at h ⊢
  cases htable : r.fixed with
  | none => rfl
  | some table =>
    simp only [htable] at h ⊢
    by_cases hneg : slot < 0
    · rw [if_pos hneg]
    · rw [if_neg hneg] at h ⊢
      cases hheld : table[slot.toInt.toNat]? with
      | none => rfl
      | some held =>
        simp only [hheld] at h ⊢
        by_cases hempty : held < 0
        · rw [if_pos hempty]
        · rw [if_neg hempty] at h
          exact absurd h hempty

theorem posixClose_empty (h : r.slipFixedLookup (sqe.fileIndex - 1).toInt32 < 0) :
    posixClose sqe r os = { ring := r, res := some (-ebadf) } := by
  unfold posixClose
  simp only [if_pos h]
  rw [Ring.slipFixedLookup_empty h]

theorem posixClose_ring (h : ¬ r.slipFixedLookup (sqe.fileIndex - 1).toInt32 < 0) :
    (posixClose sqe r os).ring = (r.slipFixedClear (sqe.fileIndex - 1).toNat).1 := by
  unfold posixClose
  simp only [if_neg h]
  cases os.close (r.slipFixedLookup (sqe.fileIndex - 1).toInt32) <;> rfl

/-- A CLOSE of the completion backend is a close of `fd`, whatever slot is named. -/
theorem iocpClose_eq : iocpClose sqe r os =
    if os.close sqe.fd then { ring := r, res := some 0, closed := [sqe.fd] }
    else { ring := r, res := some (-ebadf) } := by
  unfold iocpClose CloseOs.close
  cases os.closesocket sqe.fd with
  | closed => rfl
  | notSock => rfl
  | failed => rfl

end Closes

section Machine
variable {o : EngOp} {r : Ring} {os : CloseOs}

/-- The table of a direct close is the one that the machine of a readiness backend goes on with. -/
theorem posixClose_machine {κ ω A E : Type} (b : ReadyBackend κ ω A E) (s : Parking κ ω) (sqe : Sqe)
    (hdirect : sqe.fileIndex ≠ 0) (grown : Bool) (os : CloseOs) :
    ∃ s₁ : Parking κ ω, s₁.ring = (posixClose sqe s.ring os).ring ∧
      (b.close s sqe grown = s₁ ∨ ∃ real, b.close s sqe grown = b.closeFd s₁ real grown) := by
  unfold ReadyBackend.close
  simp only [if_pos hdirect]
  by_cases hempty : s.ring.slipFixedLookup (sqe.fileIndex - 1).toInt32 < 0
  · refine ⟨s, ?_, Or.inl (if_pos hempty)⟩
    rw [posixClose_empty hempty]
  · exact ⟨{ s with ring := (s.ring.slipFixedClear (sqe.fileIndex - 1).toNat).1 },
      (posixClose_ring hempty).symm, Or.inr ⟨_, if_neg hempty⟩⟩

/-- The answer of a direct socket is an answer of the op's try. -/
theorem posixSocket_turn (hopcode : o.sqe.opcode = .socket)
    (made : Except UInt32 (MadeSocket os)) {res : Int32}
    (hres : (posixSocket o.sqe r made).res = some res) : ∃ a, o.slipPosixTry a = o.ran res := by
  unfold posixSocket at hres
  unfold EngOp.slipPosixTry
  simp only [hopcode]
  by_cases hflags : o.sqe.opFlags ≠ 0
  · simp only [if_pos hflags] at hres ⊢
    exact ⟨.again, by rw [Option.some.inj hres]⟩
  · simp only [if_neg hflags]
    exact ⟨.got res 0 0, rfl⟩

/-- So is that of a direct accept, with a CQE for each socket of a multishot. -/
theorem posixAccept_turn (hopcode : o.sqe.opcode = .accept) {fd answer : Int32}
    (hres : (installDirect o.sqe r fd).res = some answer) : ∃ a,
      (installDirect o.sqe r fd).res = some a.res ∧ o.slipPosixTry a =
        if o.sqe.ioprio &&& ioringAcceptMultishot ≠ 0 ∧ ¬ answer < 0 then o.emits answer 0
        else o.ran answer := by
  refine ⟨.got answer 0 0, hres, ?_⟩
  unfold EngOp.slipPosixTry
  simp only [hopcode]
  by_cases hmulti : o.sqe.ioprio &&& ioringAcceptMultishot ≠ 0
  · rw [if_pos hmulti, EngOp.runAcceptMultishot]
    by_cases hneg : answer < 0
    · rw [if_pos hneg, if_neg (fun h => h.2 hneg)]
    · rw [if_neg hneg, if_pos ⟨hmulti, hneg⟩]
  · rw [if_neg hmulti, if_neg (fun h => hmulti h.1)]
    rfl

end Machine

namespace DirectOp
variable {op : DirectOp} {r : Ring} {os : DirectOs}

theorem close_agrees_iff (hkind : op.kind = .close) : op.Agrees r os ↔ op.Spared r os := by
  unfold Agrees Spared posix iocp
  simp only [hkind]
  rw [iocpClose_eq]
  by_cases hempty : r.slipFixedLookup (op.sqe.fileIndex - 1).toInt32 < 0
  · rw [posixClose_empty hempty]
    cases os.close op.sqe.fd with
    | false => exact ⟨fun _ => ⟨hempty, rfl⟩, fun _ => Or.inl rfl⟩
    | true =>
      refine ⟨fun h => ?_, fun h => by cases h.2⟩
      rcases h with he | he
      · cases congrArg DirectOutcome.closed he
      · cases congrArg DirectOutcome.closed he
  · -- the table keeps the slot that the readiness family empties
    refine ⟨fun h => ?_, fun h => absurd h.1 hempty⟩
    rcases h with he | he
    · have hring := congrArg DirectOutcome.ring he
      rw [posixClose_ring hempty] at hring
      refine absurd (hring.symm.trans ?_) (Ring.slipFixedClear_changes hempty)
      cases os.close op.sqe.fd <;> rfl
    · have hres := congrArg DirectOutcome.res he
      cases hclose : os.close op.sqe.fd with
      | true =>
        rw [hclose] at hres
        exact absurd (Option.some.inj hres) (by decide)
      | false =>
        rw [hclose] at hres
        exact absurd (Option.some.inj hres) (by decide)

theorem socket_agrees_iff (hkind : op.kind = .socket) : op.Agrees r os ↔ op.Spared r os := by
  unfold Agrees Spared posix iocp
  simp only [hkind]
  cases hmade : os.socket with
  | error e =>
    obtain ⟨hnot, hinval, -⟩ := winErrToErrno_ne e
    unfold iocpSocket posixSocket
    by_cases hflags : op.sqe.opFlags ≠ 0
    · simp only [if_pos hflags]
      refine ⟨fun h => ?_, fun h => absurd h.1 hflags⟩
      rcases h with he | he
      · exact absurd (Option.some.inj (congrArg DirectOutcome.res he)) hinval
      · exact absurd (Option.some.inj (congrArg DirectOutcome.res he)) hnot
    · simp only [if_neg hflags]
      exact ⟨fun _ => ⟨not_not.mp hflags, e, rfl⟩, fun _ => Or.inl trivial⟩
  | ok m =>
    have hpos : ∀ res < 0, some m.fd ≠ some res := by
      intro res hneg he
      rw [← Option.some.inj he] at hneg
      exact absurd m.nonneg (Int32.not_le.mpr hneg)
    refine ⟨fun h => ?_, fun h => ?_⟩
    · rcases h with he | he
      · unfold iocpSocket posixSocket at he
        by_cases hflags : op.sqe.opFlags ≠ 0
        · simp only [if_pos hflags] at he
          exact absurd (congrArg DirectOutcome.res he) (hpos _ (by decide))
        · simp only [if_neg hflags] at he
          by_cases hfull : (r.slipFixedInstall op.sqe.fileIndex m.fd).2 < 0
          · rw [installDirect_full hfull] at he
            exact absurd (congrArg DirectOutcome.res he) (hpos _ hfull)
          · rw [installDirect_slot hfull] at he
            exact absurd (congrArg DirectOutcome.ring he).symm
              (Ring.slipFixedInstall_changes m.nonneg hfull)
      · exact absurd (congrArg DirectOutcome.res he) (hpos _ (by decide))
    · obtain ⟨-, e, he⟩ := h
      cases he

theorem accept_agrees_iff (hkind : op.kind = .accept) : op.Agrees r os ↔ op.Spared r os := by
  unfold Agrees Spared posix iocp
  simp only [hkind]
  have hrefused : (iocpAccept op.sqe true r os.accepts = posixAccept op.sqe r os.accepts ∨
      iocpAccept op.sqe true r os.accepts = { ring := r, res := some (-eopnotsupp) }) ↔
      iocpAccept op.sqe true r os.accepts = posixAccept op.sqe r os.accepts := by
    refine ⟨fun h => ?_, Or.inl⟩
    have haccept : iocpAccept op.sqe true r os.accepts = posixAccept op.sqe r os.accepts ∨ _ :=
      accept_eq_or_canceled true (Or.inl rfl) os.accepts
    rcases haccept with he | hres
    · exact he
    · rcases h with he | he
      · exact he
      · rw [he] at hres
        exact absurd (Option.some.inj hres) (by decide)
  rw [hrefused]
  by_cases hmulti : op.sqe.ioprio &&& ioringAcceptMultishot ≠ 0
  · rw [accept_agree_iff hmulti]
    exact ⟨fun h _ pre f post hsplit hpre hall => h pre f post hsplit (fun _ => hpre) hall,
      fun h pre f post hsplit hpre hall => h hmulti pre f post hsplit (hpre rfl) hall⟩
  · exact ⟨fun _ h => absurd h hmulti, fun _ => accept_once hmulti os.accepts⟩

end DirectOp

/-- The completion backend treats slots as the readiness family does exactly where it is spared. -/
theorem iocp_direct_iff (op : DirectOp) (r : Ring) (os : DirectOs) : op.Agrees r os ↔ op.Spared r os := by
  cases hkind : op.kind with
  | close => exact DirectOp.close_agrees_iff hkind
  | socket => exact DirectOp.socket_agrees_iff hkind
  | accept => exact DirectOp.accept_agrees_iff hkind

/-- A close of slot 0, which holds descriptor 7: the completion backend closes descriptor 0. -/
theorem iocp_close_direct_differs : ¬ ∀ (op : DirectOp) (r : Ring) (os : DirectOs), op.Agrees r os := by
  intro h
  let os : DirectOs :=
    { closesocket := fun _ => .closed
      crtClose := fun _ => false
      closeErrno := fun _ => ebadf
      socket := .error 0
      accepts := [] }
  let op : DirectOp := ⟨.close, { opcode := .close, fileIndex := 1 }, rfl, by decide⟩
  have hagrees := h op { (setupCore 1 1).ring with fixed := some [7] } os
  rw [DirectOp.close_agrees_iff rfl] at hagrees
  exact absurd hagrees.1 (by decide)

end SlipstreamIO.Engine
