import SlipstreamIO.CompletionStream
import SlipstreamIO.Enter
import SlipstreamIO.SyscallSwitch

/-! MSG_RING: a CQE that one ring of the process puts into the stream of another one, or into its own,
and the answer its sender gets. -/
namespace SlipstreamIO.Engine

open ThreadedList Runs

/-- `g_rings`, as far as a message goes: the vaults of the rings in use. -/
structure Rings where
  vault : ℕ → Option Vault := fun _ => none

namespace Rings

def set (rs : Rings) (i : ℕ) (v : Option Vault) : Rings :=
  ⟨fun j => if j = i then v else rs.vault j⟩

/-- The ring a descriptor names, and its place in `g_rings`. -/
def ringOf (rs : Rings) (fd : Int32) : Option (ℕ × Vault) :=
  if fd &&& Syscall.slipRingToken = 0 then none
  else
    let i := fd &&& ~~~Syscall.slipRingToken
    if i < 0 ∨ Syscall.slipRingsMax ≤ i.toInt.toNat then none
    else (rs.vault i.toInt.toNat).map fun v => (i.toInt.toNat, v)

/-- `msg_ring`: the rings, the answer, and the ring whose thread is poked. -/
def msgRing (rs : Rings) (sender : ℕ) (s : Sqe) (reads : List ℕ) : Rings × Int32 × Option ℕ :=
  if s.addr ≠ ioringMsgData then (rs, -eopnotsupp, none)
  else
    match rs.ringOf s.fd with
    | none => (rs, -ebadf, none)
    | some (dest, v) =>
      (rs.set dest (some (v.slipEngineEmit s.off s.len.toInt32 0 reads)), 0,
        if dest ≠ sender then some dest else none)

/-- `slip_engine_post` on one of the rings. -/
def post (rs : Rings) (i : ℕ) (op : Slot) (res : Int32) (reads : List ℕ) : Rings :=
  rs.set i ((rs.vault i).map fun v => v.slipEnginePost op res reads)

/-- What `ring_of` says of a descriptor, seen from the ring `sender`. -/
def target (rs : Rings) (sender : ℕ) (fd : Int32) : MsgTarget :=
  match rs.ringOf fd with
  | none => .noRing
  | some (dest, _) => if dest = sender then .own else .other

end Rings

inductive RingsLabel where
  | setup (i n k : ℕ)
  | close (i : ℕ)
  | on (i : ℕ) (l : StreamLabel)

def ringsStep (rs : Rings) : RingsLabel → Option Rings
  | .setup i n k =>
    if (rs.vault i).isSome then none
    else some (rs.set i (some (emptyVault n (UInt32.ofNat (2 ^ k)))))
  | .close i => some (rs.set i none)
  | .on i l =>
    match rs.vault i with
    | none => none
    | some v => (streamStep v l).map fun v => rs.set i (some v)

def ringsEvents (rs : Rings) : RingsLabel → List (ℕ × StreamEvent)
  | .on i l =>
    match rs.vault i with
    | none => []
    | some v => (streamEvents v l).map fun e => (i, e)
  | _ => []

/-- Rings are set up and closed, and each goes through the calls under its own `mtx`. -/
def ringsMachine : Machine Rings RingsLabel (ℕ × StreamEvent) := ⟨ringsStep, ringsEvents⟩

/-- On each ring only an op in the caller's hands is posted, released or written. -/
def RingsOwn (rs : Rings) : RingsLabel → Prop
  | .setup _ _ k => k ≤ 31
  | .close _ => True
  | .on i l => ∀ v ∈ rs.vault i, Owns v l

instance (rs : Rings) (l : RingsLabel) : Decidable (RingsOwn rs l) :=
  match l with
  | .setup _ _ k => inferInstanceAs (Decidable (k ≤ 31))
  | .close _ => isTrue trivial
  | .on i l => inferInstanceAs (Decidable (∀ v ∈ rs.vault i, Owns v l))

/-- A ring whose lists and CQ are in order, whatever it has given. -/
def Vault.Streams (v : Vault) : Prop :=
  ∃ k ≤ 31, ∃ free backlog given overflow, StreamInv k v free backlog given overflow

theorem streamStep_streams {v v' : Vault} {l : StreamLabel} (h : v.Streams) (ho : Owns v l)
    (hs : streamStep v l = some v') : v'.Streams := by
  obtain ⟨k, hk, free, backlog, given, overflow, h⟩ := h
  refine ⟨k, hk, ?_⟩
  have hother (hn : NoOvertaking v l) :
      ∃ free backlog given overflow, StreamInv k v' free backlog given overflow := by
    obtain ⟨free', backlog', h'⟩ := streamStep_inv hk h ho hn hs
    exact ⟨free', backlog', _, _, h'⟩
  cases l with
  | post op res reads =>
    obtain ⟨free', backlog', h'⟩ := h.post_at hk ho res reads
    cases hs
    exact ⟨free', backlog', _, _, h'⟩
  | emit u res fl reads =>
    obtain ⟨free', backlog', h'⟩ := h.emit_at hk u res fl reads
    cases hs
    exact ⟨free', backlog', _, _, h'⟩
  | opAlloc sqe => exact hother trivial
  | cqeFlags op flags => exact hother trivial
  | drain reads => exact hother trivial
  | release op => exact hother trivial
  | read m => exact hother trivial

/-- Every ring in use is in order, in every state. -/
theorem rings_stream {tr : List (ℕ × StreamEvent)} {rs : Rings}
    (hr : Run ringsMachine RingsOwn {} tr rs) : ∀ i, ∀ v ∈ rs.vault i, v.Streams := by
  apply hr.invariant fun _ rs => ∀ i, ∀ v ∈ rs.vault i, v.Streams
  · intro i v hv
    cases hv
  intro tr rs l rs' _ h hc hs
  have hset (i : ℕ) (w : Option Vault) (hw : ∀ v ∈ w, v.Streams) :
      ∀ j, ∀ v ∈ (rs.set i w).vault j, v.Streams := by
    intro j v hv
    by_cases hj : j = i
    · rw [Rings.set, hj] at hv
      exact hw v (by simpa using hv)
    · rw [Rings.set] at hv
      exact h j v (by simpa [hj] using hv)
  cases l with
  | setup i n k =>
    simp only [ringsMachine, ringsStep] at hs
    split at hs
    · cases hs
    · cases hs
      apply hset
      intro v hv
      cases hv
      exact ⟨k, hc, _, _, _, _, emptyVault_inv n⟩
  | close i =>
    cases hs
    apply hset
    intro v hv
    cases hv
  | on i l =>
    simp only [ringsMachine, ringsStep] at hs
    cases hv : rs.vault i with
    | none => simp [hv] at hs
    | some v =>
      simp only [hv] at hs
      obtain ⟨v', hstep, rfl⟩ := Option.map_eq_some_iff.mp hs
      apply hset
      intro w hw
      cases hw
      exact streamStep_streams (h i v hv) (hc v hv) hstep

/-- An emission finds a place: a free op of the pool, room in the CQ, or a CQE that the caller reads
before one of the looks at the room. -/
def Vault.HasPlace (v : Vault) (reads : List ℕ) : Prop :=
  v.opFree ≠ none ∨ v.cqRoom = true ∨ 0 < reads.headD 0 ∨
    (v.backlogHead ≠ none ∧ 0 < reads.tail.headD 0)

instance (v : Vault) (reads : List ℕ) : Decidable (v.HasPlace reads) :=
  inferInstanceAs (Decidable (_ ∨ _))

section Places
variable {k : ℕ} {v : Vault} {free backlog : List Slot} {given : List Cqe} {overflow : ℕ}
  {reads : List ℕ}

theorem atOwnLook_full {op : Slot} (hhead : v.backlogHead = some op) (hpool : 0 < v.opPoolN)
    (hfull : (v.callerReads (reads.headD 0)).cqRoom = false) :
    atOwnLook v reads = (v.callerReads (reads.headD 0)).callerReads (reads.tail.headD 0) := by
  obtain ⟨n, hn⟩ := Nat.exists_eq_succ_of_ne_zero (Nat.pos_iff_ne_zero.mp hpool)
  have hloop : v.drainBacklogLocked reads = (v.callerReads (reads.headD 0), reads.tail) := by
    rw [Vault.drainBacklogLocked, hn, Vault.drainBacklogLoop_succ hhead, hfull]
    rfl
  rw [atOwnLook, hloop]

/-- A drain that finds room at its first look frees an op. -/
theorem atOwnLook_frees {op : Slot} (h : StreamInv k v free (op :: backlog) given overflow)
    (hk : k ≤ 31) (hroom : (v.callerReads (reads.headD 0)).cqRoom = true) :
    (atOwnLook v reads).opFree ≠ none := by
  have hlen := h.length_le.2
  rw [List.length_cons] at hlen
  obtain ⟨n, hn⟩ := Nat.exists_eq_succ_of_ne_zero (show v.opPoolN ≠ 0 by omega)
  have hfuel : backlog.length ≤ n := by omega
  have hone := (h.callerReads hk (reads.headD 0)).drainOne hk hroom
  obtain ⟨moved, rest, -, hrep, -⟩ :=
    Vault.drainBacklogLoop_spec hone.rep hone.nodup hfuel reads.tail
  have hloop : v.drainBacklogLocked reads =
      ((v.callerReads (reads.headD 0)).drainOne op).drainBacklogLoop n reads.tail := by
    rw [Vault.drainBacklogLocked, hn, Vault.drainBacklogLoop_succ h.rep.backlog.threads.1, hroom]
    rfl
  have hfree : (atOwnLook v reads).opFree =
      (((v.callerReads (reads.headD 0)).drainOne op).drainBacklogLoop n reads.tail).1.opFree := by
    rw [atOwnLook, hloop]
    rfl
  rw [hfree]
  intro hnone
  have hnil := (Vault.opAllocLocked_none hrep).mp (by rw [Vault.opAllocLocked, hnone])
  simp at hnil

/-- Whether the emission's own look finds room or a free op can be told from the state before. -/
theorem hasPlace_iff (h : StreamInv k v free backlog given overflow) (hk : k ≤ 31) :
    ((atOwnLook v reads).cqRoom || (atOwnLook v reads).opFree.isSome) = true ↔ v.HasPlace reads := by
  rw [Bool.or_eq_true, ← Option.ne_none_iff_isSome]
  cases backlog with
  | nil =>
    have hhead : v.backlogHead = none := h.rep.backlog.threads
    have hlook : atOwnLook v reads = v.callerReads (reads.headD 0) := by
      rw [atOwnLook, Vault.drainBacklogLocked, Vault.drainBacklogLoop_empty hhead]
    rw [hlook, h.room_read hk, Vault.HasPlace, Vault.callerReads_opFree, hhead]
    tauto
  | cons op backlog =>
    have hhead : v.backlogHead = some op := h.rep.backlog.threads.1
    have hlen := h.length_le.2
    rw [List.length_cons] at hlen
    cases hroom : (v.callerReads (reads.headD 0)).cqRoom with
    | true =>
      have hfirst := (h.room_read hk _).mp hroom
      constructor
      · intro _
        rw [Vault.HasPlace]
        tauto
      · intro _
        exact Or.inr (atOwnLook_frees h hk hroom)
    | false =>
      have hfirst := mt (h.room_read hk (reads.headD 0)).mpr (by rw [hroom]; exact Bool.false_ne_true)
      rw [atOwnLook_full hhead (by omega) hroom, (h.callerReads hk _).room_read hk, hroom,
        Vault.HasPlace, hhead]
      have hsame : ((v.callerReads (reads.headD 0)).callerReads (reads.tail.headD 0)).opFree =
          v.opFree := rfl
      rw [hsame]
      tauto

theorem StreamInv.log_le (h : StreamInv k v free backlog given overflow) :
    v.cq.log.length ≤ given.length := by
  rw [← h.order, List.length_append, List.length_map]
  exact Nat.le_add_right _ _

theorem StreamInv.seen_le (h : StreamInv k v free backlog given overflow) :
    v.cq.seen.length ≤ v.cq.log.length := by
  have hkept := congrArg List.length h.kept
  rw [List.length_append, List.length_map] at hkept
  omega

theorem nextPlace_le (h : StreamInv k v free backlog given overflow) (hk : k ≤ 31) (reads : List ℕ) :
    nextPlace v reads ≤ given.length := by
  obtain ⟨free', backlog', hs, -⟩ := h.look hk reads
  unfold nextPlace
  split
  · exact hs.log_le
  · rw [h.stream hk]

/-- What is stored already stays in front of the next CQE. -/
theorem log_le_nextPlace (h : StreamInv k v free backlog given overflow) (hk : k ≤ 31)
    (reads : List ℕ) : v.cq.log.length ≤ nextPlace v reads := by
  obtain ⟨moved, rest, -, -, -, hlog, -⟩ :=
    Vault.drainBacklogLoop_spec h.rep h.nodup h.length_le.2 reads
  unfold nextPlace
  split
  · have hsame : (atOwnLook v reads).cq.log = v.cq.log ++ moved.map v.entry := hlog
    rw [hsame, List.length_append]
    exact Nat.le_add_right _ _
  · rw [h.stream hk]
    exact h.log_le

/-- A post that is overtaken goes in front of what its drain left in the backlog. -/
theorem nextPlace_overtaken (h : StreamInv k v free backlog given overflow) (hk : k ≤ 31)
    (hd : ¬ DrainsFirst v reads) : nextPlace v reads < given.length := by
  obtain ⟨hleft, hread⟩ := not_or.mp hd
  obtain ⟨free', backlog', hlook, -, hs, hstop⟩ := h.look hk reads
  have hne : backlog' ≠ [] := mt hs.rep.backlog.head_none.mpr hleft
  have hroom : (atOwnLook v reads).cqRoom = true :=
    (hs.room_read hk _).mpr (Or.inr (Nat.pos_of_ne_zero hread))
  have hlen : 0 < backlog'.length := List.length_pos_iff.mpr hne
  rw [nextPlace, if_pos hroom, ← hlook.order, List.length_append, List.length_map, List.length_map]
  omega

/-- What is posted right after an emission that found a place goes behind it, unless the emission is
parked and the post is overtaken. -/
theorem nextPlace_after (h : StreamInv k v free backlog given overflow) (hk : k ≤ 31)
    (hplace : v.HasPlace reads) (u : UInt64) (res : Int32) (fl : UInt32) (reads' : List ℕ) :
    nextPlace v reads < nextPlace (v.slipEngineEmit u res fl reads) reads' ↔
      (atOwnLook v reads).cqRoom = true ∨ DrainsFirst (v.slipEngineEmit u res fl reads) reads' := by
  obtain ⟨free', backlog', hs⟩ := h.emit_at hk u res fl reads
  rw [if_pos ((hasPlace_iff h hk).mpr hplace)] at hs
  have hle := nextPlace_le h hk reads
  have hlen := List.length_insertIdx_of_le_length hle (⟨u, res, fl⟩ : Cqe)
  cases hroom : (atOwnLook v reads).cqRoom with
  | true =>
    have hlog := log_le_nextPlace hs hk reads'
    have hstored : (v.slipEngineEmit u res fl reads).cq.log.length = nextPlace v reads + 1 := by
      rw [slipEngineEmit_eq, hroom, nextPlace, hroom]
      simp
    simp only [true_or, iff_true]
    omega
  | false =>
    have hend : nextPlace v reads = given.length := by
      rw [nextPlace, hroom, h.stream hk]
      rfl
    simp only [Bool.false_eq_true, false_or]
    constructor
    · intro hlt
      by_contra hd
      have hover := nextPlace_overtaken hs hk hd
      omega
    · intro hd
      rw [hs.place_drained hk hd]
      omega

theorem seen_le_nextPlace (h : StreamInv k v free backlog given overflow) (hk : k ≤ 31)
    (reads : List ℕ) : (atOwnLook v reads).cq.seen.length ≤ nextPlace v reads := by
  obtain ⟨free', backlog', hs, -⟩ := h.look hk reads
  unfold nextPlace
  split
  · exact hs.seen_le
  · rw [h.stream hk]
    exact hs.seen_le.trans hs.log_le

theorem emit_seen (v : Vault) (u : UInt64) (res : Int32) (fl : UInt32) (reads : List ℕ) :
    (v.slipEngineEmit u res fl reads).cq.seen = (atOwnLook v reads).cq.seen := by
  rw [slipEngineEmit_eq]
  cases (atOwnLook v reads).cqRoom with
  | true => rfl
  | false =>
    unfold Vault.opAllocLocked
    cases (atOwnLook v reads).opFree with
    | none => rfl
    | some op =>
      simp only [Bool.false_eq_true, if_false]
      rw [Vault.backlogLocked_cq]
      rfl

end Places

/-- The CQE `c` stands in the CQ or the backlog, once more than before: in the stream at the place
`p`, which the caller has not read yet. -/
structure Vault.Gains (v v' : Vault) (c : Cqe) (p : ℕ) : Prop where
  inStream : p ≤ v.stream.length
  unread : v'.cq.seen.length ≤ p
  stream : v'.stream = v.stream.insertIdx p c

section Gains
variable {v : Vault} {op : Slot} {reads : List ℕ}

theorem emit_gains (h : v.Streams) (hplace : v.HasPlace reads) (u : UInt64) (res : Int32)
    (fl : UInt32) : v.Gains (v.slipEngineEmit u res fl reads) ⟨u, res, fl⟩ (nextPlace v reads) := by
  obtain ⟨k, hk, free, backlog, given, overflow, h⟩ := h
  obtain ⟨free', backlog', hs⟩ := h.emit_at hk u res fl reads
  rw [if_pos ((hasPlace_iff h hk).mpr hplace)] at hs
  refine ⟨?_, ?_, ?_⟩
  · rw [h.stream hk]
    exact nextPlace_le h hk reads
  · rw [emit_seen]
    exact seen_le_nextPlace h hk reads
  · rw [hs.stream hk, h.stream hk]

/-- An emission that finds no place adds nothing. -/
theorem emit_dropped (h : v.Streams) (hplace : ¬ v.HasPlace reads) (u : UInt64) (res : Int32)
    (fl : UInt32) : (v.slipEngineEmit u res fl reads).stream = v.stream := by
  obtain ⟨k, hk, free, backlog, given, overflow, h⟩ := h
  obtain ⟨free', backlog', hs⟩ := h.emit_at hk u res fl reads
  rw [if_neg (mt (hasPlace_iff h hk).mp hplace)] at hs
  rw [hs.stream hk, h.stream hk]

theorem Vault.Gains.grows {v' : Vault} {c : Cqe} {p : ℕ} (h : v.Gains v' c p) :
    v'.stream ≠ v.stream := by
  intro hsame
  have hlen := congrArg List.length hsame
  rw [h.stream, List.length_insertIdx_of_le_length h.inStream] at hlen
  omega

/-- An emission leaves an op in the caller's hands alone. -/
theorem emit_out (h : v.Streams) (hout : v.Out op) (u : UInt64) (res : Int32) (fl : UInt32)
    (reads : List ℕ) : (v.slipEngineEmit u res fl reads).Out op ∧
      (v.slipEngineEmit u res fl reads).opPool op = v.opPool op ∧
      (v.slipEngineEmit u res fl reads).Streams := by
  obtain ⟨k, hk, free, backlog, given, overflow, h⟩ := h
  obtain ⟨hop, hfree, hback⟩ := h.outside hout
  obtain ⟨free', backlog', hs⟩ := h.emit_at hk u res fl reads
  obtain ⟨gave, free'', backlog'', hc, -⟩ :=
    Vault.slipEngineEmit_completes h.rep h.nodup h.length_le.2 u res fl reads
  have hmem := mt (hc.mem op).mp (by simp [hfree, hback])
  rw [← threads_unique hs.rep.free hc.rep.free,
    ← threads_unique hs.rep.backlog.threads hc.rep.backlog.threads, not_or] at hmem
  refine ⟨⟨?_, ?_, ?_⟩, hc.others op hfree hback List.not_mem_nil, k, hk, _, _, _, _, hs⟩
  · rw [hc.opPoolN]
    exact hop
  · rw [walk_eq hs.rep.free _ hs.length_le.1]
    exact hmem.1
  · rw [walk_eq hs.rep.backlog.threads _ hs.length_le.2]
    exact hmem.2

theorem post_gains (h : v.Streams) (hout : v.Out op)
    (hskip : (v.opPool op).sqe.flags.cqeSkipSuccess = false) (res : Int32) (reads : List ℕ) :
    v.Gains (v.slipEnginePost op res reads)
      ⟨(v.opPool op).sqe.userData, res, (v.opPool op).cqeFlags⟩ (nextPlace v reads) := by
  obtain ⟨k, hk, free, backlog, given, overflow, h⟩ := h
  obtain ⟨hop, hfree, hback⟩ := h.outside hout
  obtain ⟨free', backlog', -, hc, -⟩ := h.look hk reads
  obtain ⟨free'', backlog'', hs⟩ := h.post_at hk hout res reads
  have hsame := hc.others op hfree hback (by simp)
  rw [hskip, Bool.and_false] at hs
  refine ⟨?_, ?_, ?_⟩
  · rw [h.stream hk]
    exact nextPlace_le h hk reads
  · have hseen : (v.slipEnginePost op res reads).cq.seen = (atOwnLook v reads).cq.seen := by
      rw [slipEnginePost_eq hsame]
      dsimp only
      rw [hskip, Bool.and_false]
      cases (atOwnLook v reads).cqRoom with
      | true => rfl
      | false =>
        simp only [Bool.false_eq_true, if_false]
        rw [Vault.backlogLocked_cq]
    rw [hseen]
    exact seen_le_nextPlace h hk reads
  · rw [hs.stream hk, h.stream hk]
    rfl

end Gains

namespace Rings
variable {rs : Rings} {sender dest : ℕ} {v w : Vault} {op : Slot} {reads reads' : List ℕ}

theorem ringOf_vault {fd : Int32} (h : rs.ringOf fd = some (dest, w)) : rs.vault dest = some w := by
  unfold ringOf at h
  split at h
  · cases h
  dsimp only at h
  split at h
  · cases h
  · obtain ⟨v, hv, heq⟩ := Option.map_eq_some_iff.mp h
    cases heq
    exact hv

end Rings

/-- The op's MSG_RING, and then its own completion. An answer of 0 is a message delivered: its CQE
stands on the ring the descriptor names, in front of the sender's own if that is the same ring. Any
other answer is negative, and leaves every ring as it was. -/
structure MsgDelivers (rs : Rings) (sender : ℕ) (v : Vault) (op : Slot) (reads reads' : List ℕ) :
    Prop where
  delivered : (rs.msgRing sender (v.opPool op).sqe reads).2.1 = 0 → ∃ dest w w',
    rs.ringOf (v.opPool op).sqe.fd = some (dest, w) ∧
    (rs.msgRing sender (v.opPool op).sqe reads).1 = rs.set dest (some w') ∧
    w.Gains w' ⟨(v.opPool op).sqe.off, (v.opPool op).sqe.len.toInt32, 0⟩ (nextPlace w reads) ∧
    (dest = sender → (v.opPool op).sqe.flags.cqeSkipSuccess = true ∨ ∃ w'',
      ((rs.set dest (some w')).post sender op 0 reads').vault sender = some w'' ∧
      w'.Gains w'' ⟨(v.opPool op).sqe.userData, 0, (v.opPool op).cqeFlags⟩ (nextPlace w' reads') ∧
      nextPlace w reads < nextPlace w' reads')
  refused : (rs.msgRing sender (v.opPool op).sqe reads).2.1 ≠ 0 →
    (rs.msgRing sender (v.opPool op).sqe reads).2.1 < 0 ∧
    (rs.msgRing sender (v.opPool op).sqe reads).1 = rs

/-- The ring the descriptor names has a place for the message. If it is the sender's own, the sender
gives no CQE, or the message finds room in the CQ, or the sender's CQE is not overtaken. -/
def Deliverable (rs : Rings) (sender : ℕ) (v : Vault) (op : Slot) (reads reads' : List ℕ) : Prop :=
  (v.opPool op).sqe.addr = ioringMsgData → ∀ r ∈ rs.ringOf (v.opPool op).sqe.fd,
    r.2.HasPlace reads ∧ (r.1 = sender → (v.opPool op).sqe.flags.cqeSkipSuccess = true ∨
      (atOwnLook r.2 reads).cqRoom = true ∨
      DrainsFirst (r.2.slipEngineEmit (v.opPool op).sqe.off (v.opPool op).sqe.len.toInt32 0 reads)
        reads')

instance (v : Vault) (reads : List ℕ) : Decidable (DrainsFirst v reads) :=
  inferInstanceAs (Decidable (_ ∨ _))

instance (rs : Rings) (sender : ℕ) (v : Vault) (op : Slot) (reads reads' : List ℕ) :
    Decidable (Deliverable rs sender v op reads reads') :=
  inferInstanceAs (Decidable (_ → ∀ r ∈ rs.ringOf (v.opPool op).sqe.fd, _))

section Delivery
variable {rs : Rings} {sender dest : ℕ} {v w : Vault} {op : Slot} {reads reads' : List ℕ}

/-- A message that is refused keeps the promise. -/
theorem msgDelivers_of_refused (res : Int32) (hres : res < 0)
    (hmsg : rs.msgRing sender (v.opPool op).sqe reads = (rs, res, none)) :
    MsgDelivers rs sender v op reads reads' := by
  constructor
  · rw [hmsg]
    intro hzero
    dsimp only at hzero
    rw [hzero] at hres
    exact absurd hres (by decide)
  · rw [hmsg]
    exact fun _ => ⟨hres, rfl⟩

theorem msgRing_data (sender : ℕ) (reads : List ℕ)
    (haddr : (v.opPool op).sqe.addr = ioringMsgData)
    (hring : rs.ringOf (v.opPool op).sqe.fd = some (dest, w)) :
    rs.msgRing sender (v.opPool op).sqe reads =
      (rs.set dest (some (w.slipEngineEmit (v.opPool op).sqe.off (v.opPool op).sqe.len.toInt32 0 reads)),
        0, if dest ≠ sender then some dest else none) := by
  unfold Rings.msgRing
  rw [if_neg (not_not.mpr haddr), hring]

/-- The message is dropped, and its sender is told it went through. -/
theorem not_msgDelivers (hw : w.Streams) (haddr : (v.opPool op).sqe.addr = ioringMsgData)
    (hring : rs.ringOf (v.opPool op).sqe.fd = some (dest, w)) (hplace : ¬ w.HasPlace reads) :
    ¬ MsgDelivers rs sender v op reads reads' := by
  intro h
  have hmsg := msgRing_data sender reads haddr hring
  obtain ⟨dest', w', w'', hring', hset, hgains, -⟩ := h.delivered (by rw [hmsg])
  rw [hring] at hring'
  cases hring'
  rw [hmsg] at hset
  have hsame := congrArg (fun rs => rs.vault dest) hset
  simp only [Rings.set, if_true, Option.some.injEq] at hsame
  apply hgains.grows
  rw [← hsame]
  exact emit_dropped hw hplace _ _ _

/-- A message to a ring that has a place for it. -/
theorem msgDelivers_placed (hv : rs.vault sender = some v) (hw : w.Streams) (hout : v.Out op)
    (haddr : (v.opPool op).sqe.addr = ioringMsgData)
    (hring : rs.ringOf (v.opPool op).sqe.fd = some (dest, w)) (hplace : w.HasPlace reads) :
    MsgDelivers rs sender v op reads reads' ↔
      (dest = sender → (v.opPool op).sqe.flags.cqeSkipSuccess = true ∨
        (atOwnLook w reads).cqRoom = true ∨
        DrainsFirst (w.slipEngineEmit (v.opPool op).sqe.off (v.opPool op).sqe.len.toInt32 0 reads)
          reads') := by
  have hmsg := msgRing_data sender reads haddr hring
  have hw' := hw
  obtain ⟨k, hk, free, backlog, given, overflow, h⟩ := hw'
  have hafter := nextPlace_after h hk hplace (v.opPool op).sqe.off (v.opPool op).sqe.len.toInt32 0 reads'
  constructor
  · intro hd hself
    obtain ⟨dest', w', w'', hring', hset, -, hown⟩ := hd.delivered (by rw [hmsg])
    rw [hring] at hring'
    cases hring'
    rw [hmsg] at hset
    have hsame := congrArg (fun rs => rs.vault dest) hset
    simp only [Rings.set, if_true, Option.some.injEq] at hsame
    rw [hsame] at hafter ⊢
    rcases hown hself with hskip | ⟨w₂, -, -, hlt⟩
    · exact Or.inl hskip
    · exact Or.inr (hafter.mp hlt)
  · intro horder
    refine ⟨fun _ => ⟨dest, w, _, hring, by rw [hmsg], emit_gains hw hplace _ _ _, fun hself => ?_⟩,
      fun hne => absurd (by rw [hmsg]) hne⟩
    rcases horder hself with hskip | horder
    · exact Or.inl hskip
    cases hskip : (v.opPool op).sqe.flags.cqeSkipSuccess with
    | true => exact Or.inl rfl
    | false =>
      have hvault := Rings.ringOf_vault hring
      rw [hself, hv, Option.some.injEq] at hvault
      rw [← hvault] at hw hplace horder hafter ⊢
      obtain ⟨hout', hop, hstreams⟩ := emit_out hw hout (v.opPool op).sqe.off
        (v.opPool op).sqe.len.toInt32 0 reads
      right
      refine ⟨(v.slipEngineEmit (v.opPool op).sqe.off (v.opPool op).sqe.len.toInt32 0
        reads).slipEnginePost op 0 reads', ?_, ?_, hafter.mpr horder⟩
      · simp only [Rings.post, Rings.set, hself, if_true, Option.map_some]
      · have hpost := post_gains hstreams hout' (by rw [hop]; exact hskip) 0 reads'
        rw [hop] at hpost
        exact hpost

end Delivery

/-- On the sender's own ring a message does what the engine's model of that ring has it do. -/
theorem msgRing_sender {rs : Rings} {sender : ℕ} {r : Ring} (hv : rs.vault sender = some r.toVault)
    (s : Sqe) (reads : List ℕ) :
    (rs.msgRing sender s reads).2.1 = (msgRing r s (rs.target sender s.fd) reads).2 ∧
      (rs.msgRing sender s reads).1.vault sender =
        some (msgRing r s (rs.target sender s.fd) reads).1.toVault := by
  unfold Rings.msgRing msgRing Rings.target
  by_cases haddr : s.addr ≠ ioringMsgData
  · simp only [if_pos haddr, hv]
    exact ⟨trivial, trivial⟩
  simp only [if_neg haddr]
  cases hring : rs.ringOf s.fd with
  | none => exact ⟨rfl, hv⟩
  | some p =>
    obtain ⟨dest, w⟩ := p
    have hvault := Rings.ringOf_vault hring
    by_cases hself : dest = sender
    · rw [hself, hv, Option.some.injEq] at hvault
      simp only [hself, if_true, ← hvault, Rings.set]
      exact ⟨trivial, rfl⟩
    · simp only [if_neg hself, Rings.set, if_neg (Ne.symm hself)]
      exact ⟨trivial, hv⟩

/-- On another ring it is an emission from outside. -/
theorem msgRing_dest {rs : Rings} {sender dest : ℕ} {w : Vault} {t : Core} (s : Sqe) (reads : List ℕ)
    (haddr : s.addr = ioringMsgData) (hring : rs.ringOf s.fd = some (dest, w))
    (ht : t.ring.toVault = w) :
    ∃ t', coreMachine.step t (.emit s.off s.len.toInt32 0 reads) = some t' ∧
      (rs.msgRing sender s reads).1.vault dest = some t'.ring.toVault := by
  refine ⟨_, rfl, ?_⟩
  unfold Rings.msgRing
  rw [if_neg (not_not.mpr haddr), hring]
  simp only [Rings.set, if_true, Ring.inVault_toVault, ht]

/-- In every state of the rings, for every op its sender is about to run: a MSG_RING that answers 0
is delivered, and one that is not is refused and changes nothing, exactly when the ring it names has
a place for its CQE and, on the sender's own ring, the sender's CQE is not overtaken. -/
theorem msg_delivers_iff {tr : List (ℕ × StreamEvent)} {rs : Rings} {sender : ℕ} {v : Vault} {op : Slot}
    (hr : Run ringsMachine RingsOwn {} tr rs) (hv : rs.vault sender = some v) (hout : v.Out op)
    (reads reads' : List ℕ) :
    MsgDelivers rs sender v op reads reads' ↔ Deliverable rs sender v op reads reads' := by
  have hstreams := rings_stream hr
  by_cases haddr : (v.opPool op).sqe.addr = ioringMsgData
  · cases hring : rs.ringOf (v.opPool op).sqe.fd with
    | none =>
      have hmsg : rs.msgRing sender (v.opPool op).sqe reads = (rs, -ebadf, none) := by
        unfold Rings.msgRing
        rw [if_neg (not_not.mpr haddr), hring]
      constructor
      · intro _ _ r hr'
        rw [hring] at hr'
        cases hr'
      · exact fun _ => msgDelivers_of_refused (-ebadf) (by decide) hmsg
    | some p =>
      obtain ⟨dest, w⟩ := p
      have hw := hstreams dest w (Rings.ringOf_vault hring)
      by_cases hplace : w.HasPlace reads
      · rw [msgDelivers_placed hv hw hout haddr hring hplace]
        constructor
        · intro horder _ r hr'
          rw [hring] at hr'
          cases hr'
          exact ⟨hplace, horder⟩
        · intro h
          exact (h haddr (dest, w) hring).2
      · constructor
        · exact fun h => absurd h (not_msgDelivers hw haddr hring hplace)
        · exact fun h => absurd (h haddr (dest, w) hring).1 hplace
  · have hmsg : rs.msgRing sender (v.opPool op).sqe reads = (rs, -eopnotsupp, none) := by
      unfold Rings.msgRing
      rw [if_pos haddr]
    constructor
    · exact fun _ h => absurd h haddr
    · exact fun _ => msgDelivers_of_refused (-eopnotsupp) (by decide) hmsg

/-- A ring messages itself with its CQ full: the message and the sender's CQE wait in the backlog. -/
theorem msg_delivers_own : ∃ tr rs v, Run ringsMachine RingsOwn {} tr rs ∧ rs.vault 0 = some v ∧
    (v.opPool 0).sqe.addr = ioringMsgData ∧ (rs.ringOf (v.opPool 0).sqe.fd).isSome = true ∧
    MsgDelivers rs 0 v 0 [] [] := by
  obtain ⟨tr, rs, hr, v, hv, haddr, hring, hout, hcond⟩ := Run.of_exec ringsMachine RingsOwn {}
    (fun _ rs => ∃ v ∈ rs.vault 0, (v.opPool 0).sqe.addr = ioringMsgData ∧
      (rs.ringOf (v.opPool 0).sqe.fd).isSome = true ∧ v.Out 0 ∧ Deliverable rs 0 v 0 [] [])
    [.setup 0 3 1, .on 0 (.emit 1 0 0 []), .on 0 (.emit 2 0 0 []),
      .on 0 (.opAlloc
        { opcode := .msgRing, fd := Syscall.Switch.tokenOf 0, off := 1301, len := 7, userData := 40 })]
    (by decide +kernel)
  exact ⟨tr, rs, v, hr, hv, haddr, hring, (msg_delivers_iff hr hv hout [] []).mpr hcond⟩

/-- The CQ of ring 1 is full and both its ops are parked when ring 0 sends it a message. -/
theorem msg_dropped : ∃ tr rs v, Run ringsMachine RingsOwn {} tr rs ∧ rs.vault 0 = some v ∧
    v.Out 0 ∧ (v.opPool 0).sqe.opcode = .msgRing ∧ (v.opPool 0).sqe.addr = ioringMsgData ∧
    ¬ MsgDelivers rs 0 v 0 [] [] := by
  obtain ⟨tr, rs, hr, v, hv, hout, hopcode, haddr, ⟨dest, w⟩, hring, hplace⟩ :=
    Run.of_exec ringsMachine RingsOwn {}
      (fun _ rs => ∃ v ∈ rs.vault 0, v.Out 0 ∧ (v.opPool 0).sqe.opcode = .msgRing ∧
        (v.opPool 0).sqe.addr = ioringMsgData ∧
        ∃ r ∈ rs.ringOf (v.opPool 0).sqe.fd, ¬ r.2.HasPlace [])
      [.setup 0 2 1, .setup 1 2 1, .on 1 (.emit 1 0 0 []), .on 1 (.emit 2 0 0 []),
        .on 1 (.opAlloc {}), .on 1 (.opAlloc {}),
        .on 0 (.opAlloc
          { opcode := .msgRing, fd := Syscall.Switch.tokenOf 1, off := 1301, len := 7, userData := 40 })]
      (by decide +kernel)
  have hw := rings_stream hr dest w (Rings.ringOf_vault hring)
  exact ⟨tr, rs, v, hr, hv, hout, hopcode, haddr, not_msgDelivers hw haddr hring hplace⟩

end SlipstreamIO.Engine
