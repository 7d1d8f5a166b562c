import SlipstreamIO.BlockSlices
import SlipstreamIO.InotifyFraming
import SlipstreamIO.PosixTry

/-! The layout of a multishot recvmsg: a header, the room the caller reserved for a name and for control
data, and the payload, one after the other in a provided buffer. -/
namespace SlipstreamIO.Engine
open BlockSlices
open Inotify (le32 readLe32 readLe32_le32)

/-- sizeof(struct io_uring_recvmsg_out). -/
def recvmsgOutSize : ℕ := 16

/-- The two sizes of the msghdr at the op's `addr`. -/
structure Msghdr where
  msgNamelen : UInt32
  msgControllen : UInt64
  deriving DecidableEq, Repr

/-- The msghdr that is handed to recvmsg, its pointers as offsets in the buffer. -/
structure Handed where
  msgName : Option UInt64
  msgNamelen : UInt32
  msgControl : Option UInt64
  msgControllen : UInt64
  iovBase : UInt64
  iovLen : UInt64
  deriving DecidableEq, Repr

namespace Msghdr

/-- `header`, a size_t. -/
def header (asked : Msghdr) : UInt64 := 16 + asked.msgNamelen.toUInt64 + asked.msgControllen

/-- The header and the room the caller reserved. -/
def size (asked : Msghdr) : ℕ := recvmsgOutSize + asked.msgNamelen.toNat + asked.msgControllen.toNat

def handed (asked : Msghdr) (rlen : UInt32) : Handed where
  msgName := if asked.msgNamelen ≠ 0 then some 16 else none
  msgNamelen := asked.msgNamelen
  msgControl := if asked.msgControllen ≠ 0 then some (16 + asked.msgNamelen.toUInt64) else none
  msgControllen := asked.msgControllen
  iovBase := asked.header
  iovLen := rlen.toUInt64 - asked.header

end Msghdr

/-- A message the system answers with: its bytes, the name and the control data it wrote, and the
lengths and flags it reports. -/
structure Message (asked : Msghdr) where
  data : List UInt8
  name : List UInt8
  control : List UInt8
  namelen : UInt32
  controllen : UInt64
  flags : UInt32
  data_some : data ≠ []
  name_fits : name.length ≤ asked.msgNamelen.toNat
  control_fits : control.length ≤ asked.msgControllen.toNat
  controllen_le : controllen ≤ asked.msgControllen

inductive RecvmsgAnswer (asked : Msghdr)
  | message (m : Message asked)
  | eof
  | again
  | failed (errno : Int32)

/-- A provided buffer: its memory has the bytes its entry names. -/
structure TakenBuf where
  len : UInt32
  bid : UInt16
  block : Block UInt8
  sized : block.cells.length = len.toNat

namespace Handed

/-- What is handed over: the header in front, the name and the control data where there is room for
them, and the payload. -/
def areas (h : Handed) : List Area :=
  ⟨0, recvmsgOutSize⟩ ::
    (h.msgName.toList.map fun at_ => ⟨at_.toNat, at_.toNat + h.msgNamelen.toNat⟩) ++
    (h.msgControl.toList.map fun at_ => ⟨at_.toNat, at_.toNat + h.msgControllen.toNat⟩) ++
    [⟨h.iovBase.toNat, h.iovBase.toNat + h.iovLen.toNat⟩]

/-- What recvmsg writes at a pointer that may be NULL. -/
def write (b : Block UInt8) (pointer : Option UInt64) (bytes : List UInt8) : Block UInt8 :=
  match pointer with
  | some at_ => b.store at_.toNat bytes
  | none => b

/-- recvmsg writes a message: as much of its data as the payload area takes. -/
def fill {asked : Msghdr} (h : Handed) (b : Block UInt8) (m : Message asked) : Block UInt8 :=
  (write (write b h.msgName m.name) h.msgControl m.control).store h.iovBase.toNat
    (m.data.take h.iovLen.toNat)

theorem length_write (b : Block UInt8) (pointer : Option UInt64) (bytes : List UInt8) :
    (write b pointer bytes).cells.length = b.cells.length := by
  cases pointer with
  | none => rfl
  | some at_ => exact b.length_store at_.toNat bytes

end Handed

/-- `struct io_uring_recvmsg_out` as it is written: the lengths cut to 32 bits. -/
def Message.out {asked : Msghdr} (m : Message asked) : List UInt8 :=
  le32 m.namelen ++ le32 m.controllen.toUInt32 ++ le32 (UInt32.ofNat m.data.length) ++ le32 m.flags

/-- One turn of the loop: the call of recvmsg it makes, the buffer, and what the turn does. -/
structure RecvmsgTurn where
  call : Option Handed := none
  block : Block UInt8 := {}
  turn : TryTurn

/-- One turn of `run_recvmsg_multishot`; `taken` is what bufring_take gives. -/
def EngOp.recvmsgTurn (o : EngOp) (asked : Msghdr) (taken : Except Int32 TakenBuf)
    (a : RecvmsgAnswer asked) : RecvmsgTurn :=
  if o.sqe.addr = 0 then { turn := o.ran (-efault) }
  else if !o.sqe.flags.bufferSelect then { turn := o.ran (-eopnotsupp) }
  else
    match taken with
    | .error rc => { turn := o.ran rc }
    | .ok buf =>
      if buf.len.toUInt64 < asked.header then { block := buf.block, turn := o.ran (-efault) }
      else
        let h := asked.handed buf.len
        let zeroed := buf.block.store 0 (List.replicate recvmsgOutSize 0)
        match a with
        | .message m =>
          { call := some h
            block := (h.fill zeroed m).store 0 m.out
            turn := o.emits (asked.header + UInt64.ofNat m.data.length).toUInt32.toInt32
              (o.bufferFlags buf.bid) }
        | .again => { call := some h, block := zeroed, turn := o.parks pollIn }
        -- EOF, and the buffer STAYS taken
        | .eof =>
          { call := some h
            block := zeroed
            turn := { o with cqeFlags := o.bufferFlags buf.bid }.ran asked.header.toUInt32.toInt32 }
        | .failed errno => { call := some h, block := zeroed, turn := o.ran (-errno) }

/-- What the calls of a turn answer: how much of the payload came, the buffer, and the header in front of it. -/
def RecvmsgAnswer.answer {asked : Msghdr} (a : RecvmsgAnswer asked)
    (taken : Except Int32 TakenBuf) : OsAnswer :=
  match taken with
  | .error rc => .noBuffer rc
  | .ok buf =>
    if buf.len.toUInt64 < asked.header then .noBuffer (-efault)
    else
      match a with
      | .message m => .got (Int32.ofNat m.data.length) buf.bid asked.header.toUInt32.toInt32
      | .eof => .got 0 buf.bid asked.header.toUInt32.toInt32
      | .again => .again
      | .failed errno => .failed errno

/-- The count that is emitted is an int. -/
theorem header_add (header : UInt64) (n : ℕ) :
    (header + UInt64.ofNat n).toUInt32.toInt32 = header.toUInt32.toInt32 + Int32.ofNat n := by
  rw [UInt64.toUInt32_add, UInt32.toInt32_add, UInt64.toUInt32_ofNat', UInt32.toInt32_ofNat']

/-- A turn with its memory is the turn of `slip_posix_try` with what its calls answer. -/
theorem EngOp.slipPosixTry_recvmsg {o : EngOp} {asked : Msghdr} (hop : o.sqe.opcode = .recvmsg)
    (hmulti : o.sqe.ioprio &&& ioringRecvMultishot ≠ 0) (taken : Except Int32 TakenBuf)
    (a : RecvmsgAnswer asked) (hcount : ∀ m, a = .message m → m.data.length < 2 ^ 31) :
    o.slipPosixTry (a.answer taken) = (o.recvmsgTurn asked taken a).turn := by
  simp only [slipPosixTry, hop, if_pos hmulti]
  unfold runRecvmsgMultishot recvmsgTurn RecvmsgAnswer.answer
  split
  · rfl
  split
  · rfl
  cases taken with
  | error rc => rfl
  | ok buf =>
    dsimp only
    by_cases hshort : buf.len.toUInt64 < asked.header
    · rw [if_pos hshort, if_pos hshort]
      rfl
    rw [if_neg hshort, if_neg hshort]
    cases a with
    | message m =>
      have hpos : 0 < m.data.length := List.length_pos_iff.mpr m.data_some
      have hsome : (0 : Int32) < Int32.ofNat m.data.length := by
        rw [Int32.lt_iff_toInt_lt, Int32.toInt_ofNat_of_lt (hcount m rfl)]
        exact Int.natCast_pos.mpr hpos
      simp only [if_pos hsome, header_add]
    | eof => rfl
    | again => rfl
    | failed errno => rfl

/-- What a reader finds in a buffer. -/
structure Layout where
  namelen : UInt32
  controllen : UInt32
  payloadlen : UInt32
  flags : UInt32
  payload : List UInt8

/-- A reader that skips by the sizes the caller reserved, and takes the rest of `res` bytes for the
payload. -/
def Msghdr.readLayout (asked : Msghdr) (cells : List UInt8) (res : Int32) : Option Layout :=
  if res.toInt < asked.size then none
  else do
    let (namelen, cells₁) ← readLe32 cells
    let (controllen, cells₂) ← readLe32 cells₁
    let (payloadlen, cells₃) ← readLe32 cells₂
    let (flags, _) ← readLe32 cells₃
    some ⟨namelen, controllen, payloadlen, flags, (cells.take res.toInt.toNat).drop asked.size⟩

/-- The areas of a call are consecutive, apart, and inside a buffer of `len` bytes. -/
structure Handed.InBuffer (h : Handed) (len : UInt32) : Prop where
  consecutive : h.areas.IsChain fun a b => a.stop = b.start
  apart : h.areas.Pairwise Area.Apart
  inside : ∀ a ∈ h.areas, a.Inside ⟨0, len.toNat⟩

/-- `res` counts the layout, and a reader finds the message in it. -/
structure Message.Decodes {asked : Msghdr} (m : Message asked) (cells : List UInt8) (res : Int32) :
    Prop where
  counts : res.toInt = asked.size + m.data.length
  found : ∃ lay, asked.readLayout cells res = some lay ∧ lay.payload = m.data ∧
    lay.namelen = m.namelen ∧ lay.controllen.toNat = m.controllen.toNat

/-- A turn that calls recvmsg hands areas of the buffer over, and emits what decodes. -/
def EngOp.RecvmsgSound (o : EngOp) (asked : Msghdr) (taken : Except Int32 TakenBuf)
    (a : RecvmsgAnswer asked) : Prop :=
  ∀ h, (o.recvmsgTurn asked taken a).call = some h → ∃ buf, taken = .ok buf ∧ h.InBuffer buf.len ∧
    ∀ m, a = .message m → ∃ res flags, (o.recvmsgTurn asked taken a).turn.emits = some (res, flags) ∧
      m.Decodes (o.recvmsgTurn asked taken a).block.cells res

/-- Where a buffer passes the check: the reserved sizes do not wrap, and a message fits behind them, in
the buffer and in an int. -/
def EngOp.RecvmsgFits (o : EngOp) (asked : Msghdr) (taken : Except Int32 TakenBuf)
    (a : RecvmsgAnswer asked) : Prop :=
  o.sqe.addr ≠ 0 → o.sqe.flags.bufferSelect = true → ∀ buf, taken = .ok buf →
    asked.header ≤ buf.len.toUInt64 → asked.size < 2 ^ 64 ∧
      ∀ m, a = .message m → asked.size + m.data.length ≤ buf.len.toNat ∧
        asked.size + m.data.length < 2 ^ 31

namespace Msghdr
variable {asked : Msghdr} {len : UInt32}

theorem header_toNat : asked.header.toNat = asked.size % 2 ^ 64 := by
  have h16 : UInt64.toNat 16 = 16 := rfl
  rw [header, size, recvmsgOutSize, UInt64.toNat_add, UInt64.toNat_add, UInt32.toNat_toUInt64, h16]
  omega

theorem header_eq (h : asked.size < 2 ^ 64) : asked.header.toNat = asked.size := by
  rw [header_toNat, Nat.mod_eq_of_lt h]

theorem header_le_iff : asked.header ≤ len.toUInt64 ↔ asked.size % 2 ^ 64 ≤ len.toNat := by
  rw [UInt64.le_iff_toNat_le, header_toNat, UInt32.toNat_toUInt64]

theorem control_at : (16 + asked.msgNamelen.toUInt64).toNat = recvmsgOutSize + asked.msgNamelen.toNat := by
  have hlt := asked.msgNamelen.toNat_lt
  have h16 : UInt64.toNat 16 = 16 := rfl
  rw [UInt64.toNat_add, UInt32.toNat_toUInt64, h16, recvmsgOutSize]
  omega

/-- The parts of a buffer that the sizes do not wrap in. -/
def cuts (asked : Msghdr) (len : UInt32) : List (ℕ × ℕ) :=
  [recvmsgOutSize, asked.msgNamelen.toNat, asked.msgControllen.toNat, len.toNat - asked.size].map
    fun n => (n, n)

theorem parts_cuts (h : asked.size ≤ len.toNat) : parts (asked.cuts len) = len.toNat := by
  rw [size] at h
  simp only [cuts, List.map_cons, List.map_nil, parts_cons, parts_nil, size]
  omega

theorem cuts_whole : ∀ c ∈ asked.cuts len, c.1 ≤ c.2 := by
  intro c hc
  obtain ⟨n, -, rfl⟩ := List.mem_map.mp hc
  exact le_rfl

/-- Areas that are not handed over are empty. -/
theorem handed_areas (h : asked.size ≤ len.toNat) : (asked.handed len).areas =
    ⟨0, recvmsgOutSize⟩ ::
      (if asked.msgNamelen ≠ 0 then
        [⟨recvmsgOutSize, recvmsgOutSize + asked.msgNamelen.toNat⟩] else []) ++
      (if asked.msgControllen ≠ 0 then
        [⟨recvmsgOutSize + asked.msgNamelen.toNat, asked.size⟩] else []) ++
      [⟨asked.size, len.toNat⟩] := by
  have hlt := len.toNat_lt
  have hheader := asked.header_eq (by omega)
  have hle : asked.header ≤ len.toUInt64 := by
    rw [header_le_iff, Nat.mod_eq_of_lt (by omega)]
    exact h
  have hlen : (len.toUInt64 - asked.header).toNat = len.toNat - asked.size := by
    rw [UInt64.toNat_sub_of_le _ _ hle, hheader, UInt32.toNat_toUInt64]
  have h16 : UInt64.toNat 16 = recvmsgOutSize := rfl
  simp only [Handed.areas, handed, hheader, hlen]
  congr 1
  · congr 1
    · congr 1
      split
      · rw [Option.toList_some, List.map_singleton, h16]
      · rfl
    · split
      · rw [Option.toList_some, List.map_singleton, control_at, size]
      · rfl
  · rw [Nat.add_sub_cancel' h]

theorem handed_sublist (h : asked.size ≤ len.toNat) :
    (asked.handed len).areas.Sublist (carve 0 (asked.cuts len)) := by
  have hcarve : carve 0 (asked.cuts len) = [⟨0, recvmsgOutSize⟩,
      ⟨recvmsgOutSize, recvmsgOutSize + asked.msgNamelen.toNat⟩,
      ⟨recvmsgOutSize + asked.msgNamelen.toNat, asked.size⟩, ⟨asked.size, len.toNat⟩] := by
    simp only [cuts, List.map_cons, List.map_nil, carve, Nat.zero_add]
    congr
    exact Nat.add_sub_cancel' h
  rw [handed_areas h, hcarve, List.cons_append, List.cons_append]
  apply List.Sublist.cons_cons
  rw [List.append_assoc]
  split <;> split <;> simp

/-- Sizes that do not wrap: what is handed over lies in the buffer. -/
theorem handed_inBuffer (h : asked.size ≤ len.toNat) : (asked.handed len).InBuffer len := by
  have hsub := handed_sublist h
  refine ⟨?_, (carve_apart cuts_whole 0).sublist hsub, ?_⟩
  · have hnone : ¬ asked.msgNamelen ≠ 0 → asked.msgNamelen.toNat = 0 := fun hz => by
      rw [not_not.mp hz]
      rfl
    have hnone' : ¬ asked.msgControllen ≠ 0 → asked.msgControllen.toNat = 0 := fun hz => by
      rw [not_not.mp hz]
      rfl
    rw [handed_areas h]
    by_cases hname : asked.msgNamelen ≠ 0
    · by_cases hcontrol : asked.msgControllen ≠ 0
      · simp [hname, hcontrol]
      · simp [hname, hcontrol, size, hnone' hcontrol]
    · by_cases hcontrol : asked.msgControllen ≠ 0
      · simp [hname, hcontrol, hnone hname]
      · simp [hname, hcontrol, size, hnone hname, hnone' hcontrol]
  · intro a ha
    have hin := carve_inside cuts_whole 0 a (hsub.subset ha)
    rwa [Nat.zero_add, parts_cuts h] at hin

/-- An area that is handed over inside the buffer shows that the sizes did not wrap. -/
theorem size_of_inBuffer (h : (asked.handed len).InBuffer len) : asked.size < 2 ^ 64 := by
  have hname := asked.msgNamelen.toNat_lt
  have hlen := len.toNat_lt
  by_cases hcontrol : asked.msgControllen ≠ 0
  · have hmem : (⟨recvmsgOutSize + asked.msgNamelen.toNat, asked.size⟩ : Area) ∈
        (asked.handed len).areas := by
      simp only [Handed.areas, handed, if_pos hcontrol, Option.toList_some, List.map_singleton,
        control_at, size, List.mem_append, List.mem_singleton]
      exact Or.inl (Or.inr trivial)
    have hin := (h.inside _ hmem).2
    dsimp only at hin
    omega
  · rw [not_not] at hcontrol
    rw [size, hcontrol, recvmsgOutSize]
    have hz : UInt64.toNat 0 = 0 := rfl
    omega

end Msghdr

section Turn
variable {o : EngOp} {asked : Msghdr} {taken : Except Int32 TakenBuf} {a : RecvmsgAnswer asked}
  {buf : TakenBuf}

/-- What a turn does when its buffer passes the check. -/
theorem EngOp.recvmsgTurn_call (haddr : o.sqe.addr ≠ 0) (hselect : o.sqe.flags.bufferSelect = true)
    (hroom : asked.header ≤ buf.len.toUInt64) :
    (o.recvmsgTurn asked (.ok buf) a).call = some (asked.handed buf.len) ∧
      ∀ m, a = .message m →
        (o.recvmsgTurn asked (.ok buf) a).block = ((asked.handed buf.len).fill
          (buf.block.store 0 (List.replicate recvmsgOutSize 0)) m).store 0 m.out ∧
        (o.recvmsgTurn asked (.ok buf) a).turn.emits = some
          ((asked.header + UInt64.ofNat m.data.length).toUInt32.toInt32,
            o.bufferFlags buf.bid ||| ioringCqeFMore) := by
  have hselect' : ¬ (!o.sqe.flags.bufferSelect) = true := by simp [hselect]
  unfold EngOp.recvmsgTurn
  simp only [if_neg haddr, if_neg hselect', if_neg (UInt64.not_lt.mpr hroom)]
  cases a with
  | message m =>
    refine ⟨rfl, fun m' hm => ?_⟩
    cases hm
    exact ⟨rfl, rfl⟩
  | eof => exact ⟨rfl, fun m hm => by cases hm⟩
  | again => exact ⟨rfl, fun m hm => by cases hm⟩
  | failed errno => exact ⟨rfl, fun m hm => by cases hm⟩

/-- A turn calls recvmsg only with a buffer that passes the check. -/
theorem EngOp.recvmsgTurn_calls {h : Handed} (hcall : (o.recvmsgTurn asked taken a).call = some h) :
    o.sqe.addr ≠ 0 ∧ o.sqe.flags.bufferSelect = true ∧
      ∃ buf, taken = .ok buf ∧ asked.header ≤ buf.len.toUInt64 := by
  unfold EngOp.recvmsgTurn at hcall
  by_cases haddr : o.sqe.addr = 0
  · rw [if_pos haddr] at hcall
    cases hcall
  rw [if_neg haddr] at hcall
  by_cases hselect : o.sqe.flags.bufferSelect = true
  · rw [if_neg (by simp [hselect])] at hcall
    cases taken with
    | error rc => cases hcall
    | ok buf =>
      refine ⟨haddr, hselect, buf, rfl, ?_⟩
      by_contra hshort
      simp only [if_pos (UInt64.not_le.mp hshort)] at hcall
      cases hcall
  · rw [if_pos (by simpa using hselect)] at hcall
    cases hcall

namespace Message
variable (m : Message asked)

theorem length_out : m.out.length = recvmsgOutSize := rfl

theorem length_fill (h : Handed) (b : Block UInt8) : (h.fill b m).cells.length = b.cells.length := by
  rw [Handed.fill, Block.length_store, Handed.length_write, Handed.length_write]

/-- The buffer after the call, read by its layout. -/
theorem reads (b : Block UInt8) {len : UInt32} (hlen : b.cells.length = len.toNat)
    (hfits : asked.size + m.data.length ≤ len.toNat) {res : Int32}
    (hres : res.toInt = asked.size + m.data.length) :
    asked.readLayout (((asked.handed len).fill b m).store 0 m.out).cells res =
      some ⟨m.namelen, m.controllen.toUInt32, UInt32.ofNat m.data.length, m.flags, m.data⟩ := by
  have hlt := len.toNat_lt
  have hheader := asked.header_eq (by omega)
  have hle : asked.header ≤ len.toUInt64 := by
    rw [Msghdr.header_le_iff, Nat.mod_eq_of_lt (by omega)]
    omega
  have hiov : (asked.handed len).iovLen.toNat = len.toNat - asked.size := by
    rw [Msghdr.handed, UInt64.toNat_sub_of_le _ _ hle, hheader, UInt32.toNat_toUInt64]
  have hsize : recvmsgOutSize ≤ asked.size := by
    rw [Msghdr.size]
    omega
  -- the payload is the last that recvmsg writes
  have hfill : ∃ b' : Block UInt8, b'.cells.length = len.toNat ∧
      (asked.handed len).fill b m = b'.store asked.size m.data := by
    have htake : m.data.take (asked.handed len).iovLen.toNat = m.data := by
      apply List.take_of_length_le
      omega
    refine ⟨Handed.write (Handed.write b (asked.handed len).msgName m.name)
      (asked.handed len).msgControl m.control, ?_, ?_⟩
    · rw [Handed.length_write, Handed.length_write, hlen]
    · rw [Handed.fill, htake, ← hheader]
      rfl
  obtain ⟨b', hlen', hfill⟩ := hfill
  have hcopy : asked.size + m.data.length ≤ b'.cells.length := by omega
  have hout : 0 + m.out.length ≤ (b'.store asked.size m.data).cells.length := by
    rw [Block.length_store, length_out]
    omega
  have hpayload : ((((b'.store asked.size m.data).store 0 m.out).cells.take res.toInt.toNat).drop
      asked.size) = m.data := by
    have hres' : res.toInt.toNat - asked.size = m.data.length := by omega
    rw [List.drop_take, hres', Block.store_behind hout (by rw [length_out]; omega),
      Block.store_read hcopy]
  rw [hfill, Msghdr.readLayout, if_neg (by omega), hpayload]
  -- the header is written over the front
  have hfront : ∃ rest, ((b'.store asked.size m.data).store 0 m.out).cells = m.out ++ rest := by
    refine ⟨(b'.store asked.size m.data).cells.drop (0 + m.out.length), ?_⟩
    rw [Block.store, if_pos hout, List.take_zero, List.nil_append]
  obtain ⟨rest, hfront⟩ := hfront
  rw [hfront, Message.out]
  simp only [List.append_assoc, readLe32_le32, Option.bind_eq_bind, Option.bind_some]

/-- A message that fits the buffer and an int decodes. -/
theorem decodes (b : Block UInt8) {len : UInt32} (hlen : b.cells.length = len.toNat)
    (hfits : asked.size + m.data.length ≤ len.toNat) (hint : asked.size + m.data.length < 2 ^ 31) :
    m.Decodes (((asked.handed len).fill b m).store 0 m.out).cells
      (asked.header + UInt64.ofNat m.data.length).toUInt32.toInt32 := by
  have hlt := len.toNat_lt
  have hsum : (asked.header + UInt64.ofNat m.data.length).toNat = asked.size + m.data.length := by
    rw [UInt64.toNat_add, UInt64.toNat_ofNat', asked.header_eq (by omega)]
    omega
  have hres : (asked.header + UInt64.ofNat m.data.length).toUInt32.toInt32.toInt =
      asked.size + m.data.length := by
    rw [← Int32.toInt_toBitVec, UInt32.toBitVec_toInt32, BitVec.toInt_eq_toNat_of_lt]
    · rw [UInt32.toNat_toBitVec, UInt64.toNat_toUInt32, hsum, Nat.mod_eq_of_lt (by omega)]
      rfl
    · rw [UInt32.toNat_toBitVec, UInt64.toNat_toUInt32, hsum]
      omega
  refine ⟨hres, _, m.reads b hlen hfits hres, rfl, rfl, ?_⟩
  have hle := UInt64.le_iff_toNat_le.mp m.controllen_le
  have hcontrol : m.controllen.toNat < 2 ^ 32 := by
    rw [Msghdr.size] at hfits
    omega
  rw [UInt64.toNat_toUInt32, Nat.mod_eq_of_lt hcontrol]

/-- What decodes fits. -/
theorem fits_of_decodes {cells : List UInt8} {res : Int32} (h : m.Decodes cells res) :
    asked.size + m.data.length ≤ cells.length ∧ asked.size + m.data.length < 2 ^ 31 := by
  obtain ⟨hres, lay, hlay, hdata, -, -⟩ := h
  have hmax := res.toInt_lt
  refine ⟨?_, by omega⟩
  have hpayload : lay.payload = (cells.take res.toInt.toNat).drop asked.size := by
    rw [Msghdr.readLayout, if_neg (by omega)] at hlay
    simp only [Option.bind_eq_bind, Option.bind_eq_some_iff] at hlay
    obtain ⟨_, -, _, -, _, -, _, -, hlay⟩ := hlay
    rw [← Option.some.inj hlay]
  have hlen := congrArg List.length (hdata.symm.trans hpayload)
  have hsome := List.length_pos_of_ne_nil m.data_some
  rw [List.length_drop, List.length_take] at hlen
  omega

end Message

/-- A multishot recvmsg stays inside its buffer, and what it emits decodes, exactly when the reserved
sizes and the message fit. -/
theorem recvmsg_sound_iff (o : EngOp) (asked : Msghdr) (taken : Except Int32 TakenBuf)
    (a : RecvmsgAnswer asked) : o.RecvmsgSound asked taken a ↔ o.RecvmsgFits asked taken a := by
  constructor
  · intro hsound haddr hselect buf htaken hroom
    obtain rfl := htaken
    obtain ⟨hcall, hmessage⟩ := EngOp.recvmsgTurn_call (a := a) haddr hselect hroom
    obtain ⟨buf', hbuf, hin, hdecodes⟩ := hsound _ hcall
    obtain rfl : buf = buf' := Except.ok.inj hbuf
    refine ⟨Msghdr.size_of_inBuffer hin, fun m hm => ?_⟩
    obtain ⟨res, flags, -, hdec⟩ := hdecodes m hm
    rw [(hmessage m hm).1] at hdec
    have hfits := m.fits_of_decodes hdec
    rwa [Block.length_store, Message.length_fill, Block.length_store, buf.sized] at hfits
  · intro hfits h hcall
    obtain ⟨haddr, hselect, buf, rfl, hroom⟩ := EngOp.recvmsgTurn_calls hcall
    obtain ⟨hwrap, hanswer⟩ := hfits haddr hselect buf rfl hroom
    obtain ⟨hcall', hmessage⟩ := EngOp.recvmsgTurn_call (a := a) haddr hselect hroom
    obtain rfl := Option.some.inj (hcall.symm.trans hcall')
    have hsize : asked.size ≤ buf.len.toNat := by
      rwa [Msghdr.header_le_iff, Nat.mod_eq_of_lt hwrap] at hroom
    refine ⟨buf, rfl, Msghdr.handed_inBuffer hsize, fun m hm => ?_⟩
    obtain ⟨hblock, hemits⟩ := hmessage m hm
    obtain ⟨hfits, hint⟩ := hanswer m hm
    refine ⟨_, _, hemits, ?_⟩
    rw [hblock]
    exact m.decodes _ (by rw [Block.length_store, buf.sized]) hfits hint

/-- A control length 16 short of SIZE_MAX + 1: the header wraps to 0, and recvmsg may write everywhere. -/
theorem recvmsg_header_wraps : ¬ ∀ (o : EngOp) (asked : Msghdr) (taken : Except Int32 TakenBuf)
    (a : RecvmsgAnswer asked), o.RecvmsgSound asked taken a := by
  intro h
  let asked : Msghdr := ⟨0, 0xfffffffffffffff0⟩
  let sqe : Sqe := { opcode := .recvmsg, ioprio := ioringRecvMultishot, addr := 1
                     flags := { bufferSelect := true } }
  let buf : TakenBuf := ⟨256, 0, ⟨List.replicate 256 0, false⟩, List.length_replicate⟩
  have hroom : asked.header ≤ buf.len.toUInt64 := by decide
  obtain ⟨hcall, -⟩ := EngOp.recvmsgTurn_call (o := { sqe := sqe }) (a := .again) (by decide) rfl hroom
  obtain ⟨buf', hbuf, hin, -⟩ := h _ _ (.ok buf) _ _ hcall
  obtain rfl : buf = buf' := Except.ok.inj hbuf
  exact absurd (Msghdr.size_of_inBuffer hin) (by decide)

end Turn

end SlipstreamIO.Engine
