import SlipstreamIO.CompletionSpecs
import SlipstreamIO.Runs
import SlipstreamIO.WrappingRing

/-! The completion stream: what the caller reads off the CQ against what was posted and emitted. -/
namespace SlipstreamIO.Engine

open ThreadedList WrappingRing Runs

namespace Vault

/-- The CQEs that stand in the CQ. -/
def unread (v : Vault) : List Cqe :=
  (List.range v.cqAvail.toNat).map
    (fun i => v.cq.cqes (v.cqIndex (v.cq.head + UInt32.ofNat i)))

/-- The CQEs that wait in the backlog. -/
def parked (v : Vault) : List Cqe :=
  (walk v.next v.opPoolN v.backlogHead).map (fun x => (v.entry x).2)

/-- What the caller has read and will read: the CQEs it has, those in the CQ, those in the backlog. -/
def stream (v : Vault) : List Cqe := v.cq.seen ++ v.unread ++ v.parked

end Vault

inductive StreamLabel where
  | opAlloc (sqe : Sqe)
  | cqeFlags (op : Slot) (flags : UInt32)
  | post (op : Slot) (res : Int32) (reads : List ℕ)
  | emit (userData : UInt64) (res : Int32) (flags : UInt32) (reads : List ℕ)
  | drain (reads : List ℕ)
  | release (op : Slot)
  | read (k : ℕ)

inductive StreamEvent where
  | given (c : Cqe)
  | parked
  | dropped
  deriving DecidableEq

/-- The calls under `mtx`, and the caller's own moves of the head between them. -/
def streamStep (v : Vault) : StreamLabel → Option Vault
  | .opAlloc sqe =>
    match v.opAllocLocked with
    | none => none
    | some (op, v) => some (v.setOp op { v.opPool op with sqe := sqe })
  | .cqeFlags op flags => some (v.setOp op { v.opPool op with cqeFlags := flags })
  | .post op res reads => some (v.slipEnginePost op res reads)
  | .emit userData res flags reads => some (v.slipEngineEmit userData res flags reads)
  | .drain reads => some (v.drainBacklogLocked reads).1
  | .release op => some (v.opRelease op)
  | .read k => some (v.callerReads k)

/-- The vault at the call's own look at the room: drained, and after the caller's last reads. -/
def atOwnLook (v : Vault) (reads : List ℕ) : Vault :=
  (v.drainBacklogLocked reads).1.callerReads ((v.drainBacklogLocked reads).2.headD 0)

/-- Where in the stream a CQE goes that is given now: behind those stored, or behind the backlog. -/
def nextPlace (v : Vault) (reads : List ℕ) : ℕ :=
  if (atOwnLook v reads).cqRoom then (atOwnLook v reads).cq.log.length else v.stream.length

def streamEvents (v : Vault) : StreamLabel → List StreamEvent
  | .post op res reads =>
    let o := v.opPool op
    if 0 ≤ res && o.sqe.flags.cqeSkipSuccess then []
    else if (atOwnLook v reads).cqRoom then [.given ⟨o.sqe.userData, res, o.cqeFlags⟩]
    else [.given ⟨o.sqe.userData, res, o.cqeFlags⟩, .parked]
  | .emit userData res flags reads =>
    if (atOwnLook v reads).cqRoom then [.given ⟨userData, res, flags⟩]
    else if (atOwnLook v reads).opFree.isSome then [.given ⟨userData, res, flags⟩, .parked]
    else [.dropped]
  | _ => []

def streamMachine : Machine Vault StreamLabel StreamEvent := ⟨streamStep, streamEvents⟩

/-- Everything posted and emitted, in call order, less the successful skip-success posts and the
dropped emissions. -/
def delivered (tr : List StreamEvent) : List Cqe :=
  tr.filterMap (fun e => match e with
    | .given c => some c
    | _ => none)

/-- How often the overflow counter was bumped. -/
def overflows (tr : List StreamEvent) : ℕ :=
  tr.countP (fun e => e = .parked ∨ e = .dropped)

/-- An op in somebody's hands: on neither list of the vault. -/
def Vault.Out (v : Vault) (op : Slot) : Prop :=
  op < v.opPoolN ∧ op ∉ walk v.next v.opPoolN v.opFree ∧
    op ∉ walk v.next v.opPoolN v.backlogHead

instance (v : Vault) (op : Slot) : Decidable (v.Out op) := by
  unfold Vault.Out
  infer_instance

/-- Only an op in the caller's hands is posted, released or written. -/
def Owns (v : Vault) : StreamLabel → Prop
  | .cqeFlags op _ | .post op _ _ | .release op => v.Out op
  | _ => True

/-- The call's own look finds room only with nothing left in the backlog. -/
def DrainsFirst (v : Vault) (reads : List ℕ) : Prop :=
  (v.drainBacklogLocked reads).1.backlogHead = none ∨ (v.drainBacklogLocked reads).2.headD 0 = 0

/-- No call that looks at the room itself is overtaken by the caller's reads between its drain's
last look and that look while a backlog is left. -/
def NoOvertaking (v : Vault) : StreamLabel → Prop
  | .post op res reads =>
    (0 ≤ res ∧ (v.opPool op).sqe.flags.cqeSkipSuccess = true) ∨ DrainsFirst v reads
  | .emit _ _ _ reads => DrainsFirst v reads
  | _ => True

instance (v : Vault) (l : StreamLabel) : Decidable (Owns v l) := by
  cases l <;> unfold Owns <;> infer_instance

instance (v : Vault) (l : StreamLabel) : Decidable (NoOvertaking v l) := by
  cases l <;> unfold NoOvertaking DrainsFirst <;> infer_instance

theorem slipEnginePost_eq {v : Vault} {op : Slot} {res : Int32} {reads : List ℕ}
    (h : (atOwnLook v reads).opPool op = v.opPool op) :
    v.slipEnginePost op res reads =
      let o := v.opPool op
      if 0 ≤ res && o.sqe.flags.cqeSkipSuccess then (v.drainBacklogLocked reads).1.opRelease op
      else if (atOwnLook v reads).cqRoom then
        ((atOwnLook v reads).postLocked o.seq o.sqe.userData res o.cqeFlags).opRelease op
      else (atOwnLook v reads).backlogLocked op res := by
  have h' : (v.drainBacklogLocked reads).1.opPool op = v.opPool op := h
  simp only [Vault.slipEnginePost, h']
  rfl

theorem slipEngineEmit_eq (v : Vault) (u : UInt64) (res : Int32) (fl : UInt32) (reads : List ℕ) :
    v.slipEngineEmit u res fl reads =
      if (atOwnLook v reads).cqRoom then (atOwnLook v reads).postLocked none u res fl
      else
        match (atOwnLook v reads).opAllocLocked with
        | some (carrier, v) =>
          (v.setOp carrier { v.opPool carrier with
            sqe := { (v.opPool carrier).sqe with userData := u }, cqeFlags := fl }).backlogLocked
              carrier res
        | none => { atOwnLook v reads with
            cq := { (atOwnLook v reads).cq with
              overflow := (atOwnLook v reads).cq.overflow + 1 } } := rfl

/-- With `free` and `backlog` as the two lists: what the caller read and what stands in the CQ is
what was ever stored, and with the backlog behind it that is what was given. -/
structure StreamInv (k : ℕ) (v : Vault) (free backlog : List Slot) (given : List Cqe)
    (overflow : ℕ) : Prop where
  rep : v.Rep free backlog
  nodup : (free ++ backlog).Nodup
  inPool : ∀ x, x ∈ free ∨ x ∈ backlog → x < v.opPoolN
  entries : v.cqEntries = UInt32.ofNat (2 ^ k)
  room : avail v.cq.head v.cq.tail ≤ 2 ^ k
  kept : v.cq.seen ++ contents k v.cq.cqes v.cq.head v.cq.tail = v.cq.log.map Prod.snd
  order : v.cq.log.map Prod.snd ++ backlog.map (fun x => (v.entry x).2) = given
  counted : v.cq.overflow = UInt32.ofNat overflow

section StreamInv
variable {k : ℕ} {v : Vault} {free backlog : List Slot} {given : List Cqe} {overflow : ℕ}

theorem StreamInv.cqIndex (h : StreamInv k v free backlog given overflow) (hk : k ≤ 31)
    (i : UInt32) : v.cqIndex i = i.toNat % 2 ^ k := by
  rw [Vault.cqIndex, h.entries, and_mask hk]

theorem StreamInv.cqRoom (h : StreamInv k v free backlog given overflow) (hk : k ≤ 31) :
    v.cqRoom = true ↔ avail v.cq.head v.cq.tail < 2 ^ k := by
  have hlt : 2 ^ k < 2 ^ 32 := Nat.pow_lt_pow_right (by decide) (by omega)
  rw [Vault.cqRoom, decide_eq_true_iff, UInt32.lt_iff_toNat_lt, h.entries,
    UInt32.toNat_ofNat_of_lt' hlt]
  rfl

theorem StreamInv.unread (h : StreamInv k v free backlog given overflow) (hk : k ≤ 31) :
    v.unread = contents k v.cq.cqes v.cq.head v.cq.tail :=
  List.map_congr_left (fun i _ => by rw [h.cqIndex hk, cell])

theorem StreamInv.length_le (h : StreamInv k v free backlog given overflow) :
    free.length ≤ v.opPoolN ∧ backlog.length ≤ v.opPoolN := by
  have hsub : free ++ backlog ⊆ List.range v.opPoolN :=
    fun x hx => List.mem_range.mpr (h.inPool x (List.mem_append.mp hx))
  have hlen := (List.subperm_of_subset h.nodup hsub).length_le
  rw [List.length_append, List.length_range] at hlen
  omega

theorem StreamInv.parked (h : StreamInv k v free backlog given overflow) :
    v.parked = backlog.map (fun x => (v.entry x).2) := by
  rw [Vault.parked, walk_eq h.rep.backlog.threads _ h.length_le.2]

theorem StreamInv.stream (h : StreamInv k v free backlog given overflow) (hk : k ≤ 31) :
    v.stream = given := by
  rw [Vault.stream, h.unread hk, h.parked, h.kept]
  exact h.order

theorem StreamInv.callerReads (h : StreamInv k v free backlog given overflow) (hk : k ≤ 31)
    (m : ℕ) : StreamInv k (v.callerReads m) free backlog given overflow where
  rep := ⟨h.rep.free, h.rep.backlog⟩
  nodup := h.nodup
  inPool := h.inPool
  entries := h.entries
  room := by
    have hm : min m v.cqAvail.toNat ≤ avail v.cq.head v.cq.tail := Nat.min_le_right _ _
    have hroom := h.room
    rw [Vault.callerReads, avail_read hm]
    omega
  kept := by
    have hm : min m v.cqAvail.toNat ≤ avail v.cq.head v.cq.tail := Nat.min_le_right _ _
    have hcells : (List.range (min m v.cqAvail.toNat)).map
        (fun i => v.cq.cqes (v.cqIndex (v.cq.head + UInt32.ofNat i))) =
        (List.range (min m v.cqAvail.toNat)).map (fun i => v.cq.cqes (cell k v.cq.head i)) :=
      List.map_congr_left (fun i _ => by rw [h.cqIndex hk, cell])
    rw [Vault.callerReads, hcells, List.append_assoc, ← contents_read v.cq.cqes hm]
    exact h.kept
  order := h.order
  counted := h.counted

theorem insertIdx_between {α : Type*} (l m : List α) (a : α) :
    (l ++ m).insertIdx l.length a = l ++ a :: m := by
  induction l with
  | nil => rfl
  | cons x l ih => rw [List.cons_append, List.length_cons, List.insertIdx_succ_cons, ih, List.cons_append]

/-- A CQE that is stored stands behind what was stored before it, in front of the backlog. -/
theorem StreamInv.stored (h : StreamInv k v free backlog given overflow) (hk : k ≤ 31)
    (hroom : v.cqRoom = true) (owner : Option ℕ) (u : UInt64) (res : Int32) (fl : UInt32) :
    StreamInv k (v.postLocked owner u res fl) free backlog
      (given.insertIdx v.cq.log.length ⟨u, res, fl⟩) overflow where
  rep := ⟨h.rep.free, h.rep.backlog⟩
  nodup := h.nodup
  inPool := h.inPool
  entries := h.entries
  room := by
    have hlt := (h.cqRoom hk).mp hroom
    rw [Vault.postLocked, avail_put hk hlt]
    omega
  kept := by
    have hput := contents_put hk v.cq.cqes (⟨u, res, fl⟩ : Cqe) ((h.cqRoom hk).mp hroom)
    rw [Vault.postLocked, h.cqIndex hk, hput, ← List.append_assoc, h.kept, List.map_append]
    rfl
  order := by
    have hlen : v.cq.log.length = (v.cq.log.map Prod.snd).length := (List.length_map Prod.snd).symm
    rw [← h.order, hlen, insertIdx_between, Vault.postLocked_log, List.map_append, List.append_assoc]
    rfl
  counted := h.counted

theorem StreamInv.opRelease (h : StreamInv k v free backlog given overflow) {op : Slot}
    (hfree : op ∉ free) (hback : op ∉ backlog) (hop : op < v.opPoolN) :
    StreamInv k (v.opRelease op) (op :: free) backlog given overflow where
  rep := Vault.opRelease_rep h.rep hfree hback
  nodup := List.nodup_cons.mpr ⟨by simp [hfree, hback], h.nodup⟩
  inPool := by
    intro x hx
    rw [List.mem_cons, or_assoc] at hx
    rcases hx with rfl | hx
    · exact hop
    · exact h.inPool x hx
  entries := h.entries
  room := h.room
  kept := h.kept
  order := by
    rw [← h.order, show (v.opRelease op).entry = v.entry from
      funext (fun x => Vault.entry_congr (v.opRelease_opPool op x))]
    rfl
  counted := h.counted

theorem StreamInv.drainOne {op : Slot} (h : StreamInv k v free (op :: backlog) given overflow)
    (hk : k ≤ 31) (hroom : v.cqRoom = true) :
    StreamInv k (v.drainOne op) (op :: free) backlog given overflow where
  rep := Vault.drainOne_rep h.rep h.nodup
  nodup := List.nodup_middle.mp h.nodup
  inPool := by
    intro x hx
    refine h.inPool x ?_
    rw [List.mem_cons] at hx ⊢
    tauto
  entries := h.entries
  room := by
    have hlt := (h.cqRoom hk).mp hroom
    have hput : avail v.cq.head (v.cq.tail + 1) ≤ 2 ^ k := by
      rw [avail_put hk hlt]
      omega
    exact hput
  kept := by
    have hput := contents_put hk v.cq.cqes (v.entry op).2 ((h.cqRoom hk).mp hroom)
    rw [← h.cqIndex hk] at hput
    rw [Vault.drainOne_log, List.map_append, ← h.kept, List.append_assoc, List.map_singleton, ← hput]
    rfl
  order := by
    rw [← h.order, Vault.drainOne_log, (Vault.drainOne_relinks v op).entry]
    simp
  counted := h.counted

theorem StreamInv.backlogLocked (h : StreamInv k v free backlog given overflow) {op : Slot}
    (hfree : op ∉ free) (hback : op ∉ backlog) (hop : op < v.opPoolN) (res : Int32) :
    StreamInv k (v.backlogLocked op res) free (backlog ++ [op])
      (given ++ [⟨(v.opPool op).sqe.userData, res, (v.opPool op).cqeFlags⟩]) (overflow + 1) where
  rep := Vault.backlogLocked_rep h.rep h.nodup hfree hback
  nodup := by
    rw [← List.append_assoc]
    refine List.nodup_append.mpr ⟨h.nodup, List.nodup_singleton op, ?_⟩
    rintro x hx y hy rfl
    rw [List.mem_singleton] at hy
    subst hy
    simp [hfree, hback] at hx
  inPool := by
    intro x hx
    rw [Vault.backlogLocked_opPoolN]
    rw [List.mem_append, List.mem_singleton, ← or_assoc] at hx
    rcases hx with hx | rfl
    · exact h.inPool x hx
    · exact hop
  entries := by rw [Vault.backlogLocked_cqEntries, h.entries]
  room := by
    rw [Vault.backlogLocked_cq]
    exact h.room
  kept := by
    rw [Vault.backlogLocked_cq]
    exact h.kept
  order := by
    have hmap : backlog.map (fun x => ((v.backlogLocked op res).entry x).2) =
        backlog.map (fun x => (v.entry x).2) := by
      refine List.map_congr_left (fun x hx => ?_)
      rw [Vault.entry_congr (Vault.backlogLocked_opPool v op res ?_)]
      rintro rfl
      exact hback hx
    rw [← h.order, List.map_append, hmap, List.map_singleton, Vault.backlogLocked_entry,
      Vault.backlogLocked_cq, List.append_assoc]
  counted := by
    rw [Vault.backlogLocked_cq, h.counted, UInt32.ofNat_add]
    rfl

/-- The drain moves CQEs from the backlog to the CQ and changes no op outside the two lists. -/
theorem StreamInv.drain (h : StreamInv k v free backlog given overflow) (hk : k ≤ 31)
    (reads : List ℕ) :
    ∃ free' backlog', StreamInv k (v.drainBacklogLocked reads).1 free' backlog' given overflow ∧
      v.Completes (v.drainBacklogLocked reads).1 free backlog [] [] free' backlog' ∧
      (backlog' = [] ∨ (v.drainBacklogLocked reads).1.cqRoom = false) := by
  obtain ⟨free', backlog', hc, hstop⟩ := Vault.Completes.drain h.rep h.nodup h.length_le.2 reads
  refine ⟨free', backlog', ?_, hc, hstop⟩
  suffices hloop : ∀ fuel, ∃ free'' backlog'',
      StreamInv k (v.drainBacklogLoop fuel reads).1 free'' backlog'' given overflow by
    obtain ⟨free'', backlog'', hs⟩ := hloop v.opPoolN
    rw [threads_unique hc.rep.free hs.rep.free,
      threads_unique hc.rep.backlog.threads hs.rep.backlog.threads]
    exact hs
  clear hc hstop
  intro fuel
  induction fuel generalizing v free backlog reads with
  | zero => exact ⟨free, backlog, h⟩
  | succ fuel ih =>
    cases backlog with
    | nil =>
      rw [Vault.drainBacklogLoop_empty h.rep.backlog.threads]
      exact ⟨free, [], h⟩
    | cons op backlog =>
      rw [Vault.drainBacklogLoop_succ h.rep.backlog.threads.1]
      have hr := h.callerReads hk (reads.headD 0)
      split
      · next hroom => exact ih (hr.drainOne hk hroom) reads.tail
      · exact ⟨free, op :: backlog, hr⟩

/-- The call's own look changes nothing in the stream. -/
theorem StreamInv.look (h : StreamInv k v free backlog given overflow) (hk : k ≤ 31)
    (reads : List ℕ) :
    ∃ free' backlog', StreamInv k (Engine.atOwnLook v reads) free' backlog' given overflow ∧
      v.Completes (Engine.atOwnLook v reads) free backlog [] [] free' backlog' ∧
      StreamInv k (v.drainBacklogLocked reads).1 free' backlog' given overflow ∧
      (backlog' = [] ∨ (v.drainBacklogLocked reads).1.cqRoom = false) := by
  obtain ⟨free', backlog', hs, hc, hstop⟩ := h.drain hk reads
  exact ⟨free', backlog', hs.callerReads hk ((v.drainBacklogLocked reads).2.headD 0),
    hc.trans (.callerReads hs.rep _), hs, hstop⟩

/-- What the caller's reads do to the room: from one read on there is some. -/
theorem StreamInv.room_read (h : StreamInv k v free backlog given overflow) (hk : k ≤ 31) (m : ℕ) :
    (v.callerReads m).cqRoom = true ↔ v.cqRoom = true ∨ 0 < m := by
  have hm : min m v.cqAvail.toNat ≤ avail v.cq.head v.cq.tail := Nat.min_le_right _ _
  have havail : v.cqAvail.toNat = avail v.cq.head v.cq.tail := rfl
  have hpos : 0 < 2 ^ k := Nat.two_pow_pos k
  have hroom := h.room
  rw [(h.callerReads hk m).cqRoom hk, h.cqRoom hk, Vault.callerReads, avail_read hm]
  omega

/-- At its own look a call that drains first finds room only behind an empty backlog. -/
theorem StreamInv.atOwnLook (h : StreamInv k v free backlog given overflow) (hk : k ≤ 31)
    {reads : List ℕ} (hd : DrainsFirst v reads) :
    ∃ free' backlog', StreamInv k (atOwnLook v reads) free' backlog' given overflow ∧
      v.Completes (atOwnLook v reads) free backlog [] [] free' backlog' ∧
      ((atOwnLook v reads).cqRoom = true → backlog' = []) := by
  obtain ⟨free', backlog', hread, hc, hs, hstop⟩ := h.look hk reads
  refine ⟨free', backlog', hread, hc, fun hroom => ?_⟩
  rcases hd with hempty | hquiet
  · exact hs.rep.backlog.head_none.mp hempty
  · -- the caller read nothing, so the look sees the room the drain's last look saw
    rcases hstop with hnil | hfull
    · exact hnil
    · rcases (hs.room_read hk _).mp hroom with hroom | hreads
      · rw [hfull] at hroom
        cases hroom
      · omega

theorem StreamInv.outside (h : StreamInv k v free backlog given overflow) {op : Slot}
    (ho : v.Out op) : op < v.opPoolN ∧ op ∉ free ∧ op ∉ backlog := by
  have hlen := h.length_le
  rwa [Vault.Out, walk_eq h.rep.free _ hlen.1, walk_eq h.rep.backlog.threads _ hlen.2] at ho

theorem StreamInv.setOp (h : StreamInv k v free backlog given overflow) {op : Slot}
    (hfree : op ∉ free) (hback : op ∉ backlog) (o : EngOp) :
    StreamInv k (v.setOp op o) free backlog given overflow where
  rep := ⟨h.rep.free.congr (fun x hx => by
      rw [Vault.next, Vault.setOp_opPool, if_neg (by rintro rfl; exact hfree hx)]; rfl),
    h.rep.backlog.congr (fun x hx => by
      rw [Vault.next, Vault.setOp_opPool, if_neg (by rintro rfl; exact hback hx)]; rfl)⟩
  nodup := h.nodup
  inPool := h.inPool
  entries := h.entries
  room := h.room
  kept := h.kept
  order := by
    rw [← h.order]
    congr 1
    refine List.map_congr_left (fun x hx => ?_)
    rw [Vault.entry, Vault.setOp_opPool, if_neg (by rintro rfl; exact hback hx)]
    rfl
  counted := h.counted

/-- Taking the head of the free list and filling it. -/
theorem StreamInv.opAlloc {op : Slot} (h : StreamInv k v (op :: free) backlog given overflow)
    {v' : Vault} (hv : v.opAllocLocked = some (op, v')) :
    StreamInv k v' free backlog given overflow ∧ op ∉ free ∧ op ∉ backlog ∧ op < v'.opPoolN ∧
      v'.opPool op = {} := by
  obtain ⟨w, hw, hrep, hfresh, hothers, hN, hE, hcq⟩ := Vault.opAllocLocked_cons h.rep h.nodup
  cases hv.symm.trans hw
  obtain ⟨hnot, hnd⟩ := List.nodup_cons.mp h.nodup
  obtain ⟨hfree, hback⟩ : op ∉ free ∧ op ∉ backlog := by simpa using hnot
  refine ⟨⟨hrep, hnd, fun x hx => ?_, by rw [hE, h.entries], by rw [hcq]; exact h.room,
    by rw [hcq]; exact h.kept, ?_, by rw [hcq]; exact h.counted⟩, hfree, hback, ?_, hfresh⟩
  · rw [hN]
    exact h.inPool x (hx.imp_left (List.mem_cons_of_mem op))
  · rw [hcq, ← h.order]
    congr 1
    refine List.map_congr_left (fun x hx => ?_)
    rw [Vault.entry, hothers x (by rintro rfl; exact hback hx)]
    rfl
  · rw [hN]
    exact h.inPool op (Or.inl List.mem_cons_self)

theorem StreamInv.place_drained (h : StreamInv k v free backlog given overflow) (hk : k ≤ 31)
    {reads : List ℕ} (hd : DrainsFirst v reads) : nextPlace v reads = given.length := by
  obtain ⟨free', backlog', hs, -, hroom⟩ := h.atOwnLook hk hd
  unfold nextPlace
  split
  · next hr =>
    rw [← hs.order, hroom hr, List.map_nil, List.append_nil, List.length_map]
  · rw [h.stream hk]

/-- A post puts its CQE in its place. -/
theorem StreamInv.post_at (h : StreamInv k v free backlog given overflow) (hk : k ≤ 31) {op : Slot}
    (hout : v.Out op) (res : Int32) (reads : List ℕ) :
    ∃ free' backlog', StreamInv k (v.slipEnginePost op res reads) free' backlog'
      (if 0 ≤ res && (v.opPool op).sqe.flags.cqeSkipSuccess then given
        else given.insertIdx (nextPlace v reads)
          ⟨(v.opPool op).sqe.userData, res, (v.opPool op).cqeFlags⟩)
      (overflow + overflows (streamEvents v (.post op res reads))) := by
  obtain ⟨hop, hfree, hback⟩ := h.outside hout
  obtain ⟨free', backlog', hs, hc, hdrained, -⟩ := h.look hk reads
  have hmem := mt (hc.mem op).mp (by simp [hfree, hback])
  rw [not_or] at hmem
  have hsame := hc.others op hfree hback (by simp)
  have hop' : op < (Engine.atOwnLook v reads).opPoolN := by rw [hc.opPoolN]; exact hop
  rw [slipEnginePost_eq hsame, streamEvents]
  dsimp only
  split
  · refine ⟨op :: free', backlog', ?_⟩
    exact hdrained.opRelease hmem.1 hmem.2 hop'
  unfold nextPlace
  rw [h.stream hk]
  generalize Engine.atOwnLook v reads = w at *
  split
  · next hroom =>
    refine ⟨op :: free', backlog', ?_⟩
    simpa [overflows] using (hs.stored hk hroom _ _ _ _).opRelease hmem.1 hmem.2 hop'
  · refine ⟨free', backlog' ++ [op], ?_⟩
    have hb := hs.backlogLocked hmem.1 hmem.2 hop' res
    rw [hsame] at hb
    simpa [overflows] using hb

/-- An emission puts its CQE in its place, or is dropped and counted. -/
theorem StreamInv.emit_at (h : StreamInv k v free backlog given overflow) (hk : k ≤ 31)
    (u : UInt64) (res : Int32) (fl : UInt32) (reads : List ℕ) :
    ∃ free' backlog', StreamInv k (v.slipEngineEmit u res fl reads) free' backlog'
      (if (Engine.atOwnLook v reads).cqRoom || (Engine.atOwnLook v reads).opFree.isSome then
        given.insertIdx (nextPlace v reads) ⟨u, res, fl⟩ else given)
      (overflow + overflows (streamEvents v (.emit u res fl reads))) := by
  obtain ⟨free', backlog', hs, -⟩ := h.look hk reads
  rw [slipEngineEmit_eq, streamEvents]
  unfold nextPlace
  rw [h.stream hk]
  generalize Engine.atOwnLook v reads = w at *
  cases hroom : w.cqRoom with
  | true =>
    refine ⟨free', backlog', ?_⟩
    simpa [overflows] using hs.stored hk hroom none u res fl
  | false =>
    cases free' with
    | nil =>
      have hnone : w.opFree = none := hs.rep.free
      rw [(Vault.opAllocLocked_none hs.rep).mpr rfl]
      refine ⟨[], backlog', ?_⟩
      have hcount : StreamInv k { w with cq := { w.cq with overflow := w.cq.overflow + 1 } } []
          backlog' given (overflow + 1) :=
        ⟨⟨hs.rep.free, hs.rep.backlog⟩, hs.nodup, hs.inPool, hs.entries, hs.room, hs.kept, hs.order, by
          rw [UInt32.ofNat_add, ← hs.counted]
          rfl⟩
      simpa [overflows, hnone] using hcount
    | cons op free' =>
      have hsome : w.opFree = some op := hs.rep.free.1
      obtain ⟨w', halloc, -⟩ := Vault.opAllocLocked_cons hs.rep hs.nodup
      obtain ⟨hw, hfree, hback, hop, hfresh⟩ := hs.opAlloc halloc
      rw [halloc]
      refine ⟨free', backlog' ++ [op], ?_⟩
      have hb := (hw.setOp hfree hback { w'.opPool op with
        sqe := { (w'.opPool op).sqe with userData := u }, cqeFlags := fl }).backlogLocked
          hfree hback hop res
      simpa [overflows, hsome] using hb

/-- A post puts its CQE behind everything given before it. -/
theorem StreamInv.post (h : StreamInv k v free backlog given overflow) (hk : k ≤ 31) {op : Slot}
    (hout : v.Out op) {res : Int32} {reads : List ℕ}
    (hn : NoOvertaking v (.post op res reads)) :
    ∃ free' backlog', StreamInv k (v.slipEnginePost op res reads) free' backlog'
      (given ++ delivered (streamEvents v (.post op res reads)))
      (overflow + overflows (streamEvents v (.post op res reads))) := by
  obtain ⟨free', backlog', hs⟩ := h.post_at hk hout res reads
  refine ⟨free', backlog', ?_⟩
  by_cases hskip : (0 ≤ res && (v.opPool op).sqe.flags.cqeSkipSuccess) = true
  · rw [if_pos hskip] at hs
    simpa [streamEvents, hskip, delivered] using hs
  · have hd := hn.resolve_left (by simpa using hskip)
    have hgiven : delivered (streamEvents v (.post op res reads)) =
        [⟨(v.opPool op).sqe.userData, res, (v.opPool op).cqeFlags⟩] := by
      rw [streamEvents, if_neg hskip]
      split <;> rfl
    rw [if_neg hskip, h.place_drained hk hd, List.insertIdx_length_self] at hs
    rw [hgiven]
    exact hs

/-- An emission puts its CQE behind everything given before it, or is dropped and counted. -/
theorem StreamInv.emit (h : StreamInv k v free backlog given overflow) (hk : k ≤ 31)
    {u : UInt64} {res : Int32} {fl : UInt32} {reads : List ℕ} (hd : DrainsFirst v reads) :
    ∃ free' backlog', StreamInv k (v.slipEngineEmit u res fl reads) free' backlog'
      (given ++ delivered (streamEvents v (.emit u res fl reads)))
      (overflow + overflows (streamEvents v (.emit u res fl reads))) := by
  obtain ⟨free', backlog', hs⟩ := h.emit_at hk u res fl reads
  have hgiven : delivered (streamEvents v (.emit u res fl reads)) =
      if (Engine.atOwnLook v reads).cqRoom || (Engine.atOwnLook v reads).opFree.isSome then
        [⟨u, res, fl⟩] else [] := by
    rw [streamEvents]
    cases (Engine.atOwnLook v reads).cqRoom with
    | true => rfl
    | false => cases (Engine.atOwnLook v reads).opFree <;> rfl
  refine ⟨free', backlog', ?_⟩
  rw [hgiven]
  rw [h.place_drained hk hd, List.insertIdx_length_self] at hs
  split at hs
  · next hplace => rwa [if_pos hplace]
  · next hplace => rwa [if_neg hplace, List.append_nil]

end StreamInv

theorem delivered_append (tr tr' : List StreamEvent) :
    delivered (tr ++ tr') = delivered tr ++ delivered tr' :=
  List.filterMap_append

theorem overflows_append (tr tr' : List StreamEvent) :
    overflows (tr ++ tr') = overflows tr + overflows tr' :=
  List.countP_append

/-- What one step does to the stream. -/
theorem streamStep_inv {k : ℕ} (hk : k ≤ 31) {v v' : Vault} {free backlog : List Slot}
    {given : List Cqe} {overflow : ℕ} (h : StreamInv k v free backlog given overflow)
    {l : StreamLabel} (ho : Owns v l) (hn : NoOvertaking v l) (hs : streamStep v l = some v') :
    ∃ free' backlog', StreamInv k v' free' backlog' (given ++ delivered (streamEvents v l))
      (overflow + overflows (streamEvents v l)) := by
  cases l with
  | opAlloc sqe =>
    simp only [streamStep] at hs
    cases hv : v.opAllocLocked with
    | none => simp [hv] at hs
    | some p =>
      obtain ⟨op, w⟩ := p
      rw [hv] at hs
      cases hs
      cases free with
      | nil => simp [(Vault.opAllocLocked_none h.rep).mpr rfl] at hv
      | cons op' free =>
        obtain ⟨w', hw', -⟩ := Vault.opAllocLocked_cons h.rep h.nodup
        cases hv.symm.trans hw'
        obtain ⟨hw, hfree, hback, -, -⟩ := h.opAlloc hv
        refine ⟨free, backlog, ?_⟩
        simpa [streamEvents, delivered, overflows] using hw.setOp hfree hback _
  | cqeFlags op flags =>
    cases hs
    obtain ⟨-, hfree, hback⟩ := h.outside ho
    refine ⟨free, backlog, ?_⟩
    simpa [streamEvents, delivered, overflows] using h.setOp hfree hback _
  | post op res reads =>
    cases hs
    exact h.post hk ho hn
  | emit u res fl reads =>
    cases hs
    exact h.emit hk hn
  | drain reads =>
    cases hs
    obtain ⟨free', backlog', hd, -⟩ := h.drain hk reads
    exact ⟨free', backlog', by simpa [streamEvents, delivered, overflows] using hd⟩
  | release op =>
    cases hs
    obtain ⟨hop, hfree, hback⟩ := h.outside ho
    refine ⟨op :: free, backlog, ?_⟩
    simpa [streamEvents, delivered, overflows] using h.opRelease hfree hback hop
  | read m =>
    cases hs
    refine ⟨free, backlog, ?_⟩
    simpa [streamEvents, delivered, overflows] using h.callerReads hk m

theorem emptyVault_inv {k : ℕ} (n : ℕ) :
    StreamInv k (emptyVault n (UInt32.ofNat (2 ^ k))) (List.range n) [] [] 0 where
  rep := Vault.emptyVault_rep n _
  nodup := by
    rw [List.append_nil]
    exact List.nodup_range
  inPool := by
    intro x hx
    rcases hx with hx | hx
    · exact List.mem_range.mp hx
    · cases hx
  entries := rfl
  room := by simp [emptyVault, avail]
  kept := by simp [emptyVault, contents, avail]
  order := rfl
  counted := rfl

/-- While no call is overtaken by the caller's own reads, what the caller read, what stands in the
CQ and what waits in the backlog are together the CQEs posted and emitted, in call order; nothing
stored is overwritten before it is read, and every CQE parked or dropped is counted. -/
theorem completion_stream_fifo {k n : ℕ} (hk : k ≤ 31) {tr : List StreamEvent} {v : Vault}
    (hr : Run streamMachine (fun v l => Owns v l ∧ NoOvertaking v l)
      (emptyVault n (UInt32.ofNat (2 ^ k))) tr v) :
    v.cq.seen ++ v.unread ++ v.parked = delivered tr ∧
      v.cq.seen ++ v.unread = v.cq.log.map Prod.snd ∧
      v.cq.overflow = UInt32.ofNat (overflows tr) := by
  have hinv : ∃ free backlog, StreamInv k v free backlog (delivered tr) (overflows tr) := by
    refine hr.invariant (fun tr v => ∃ free backlog,
      StreamInv k v free backlog (delivered tr) (overflows tr))
      ⟨_, _, emptyVault_inv n⟩ ?_
    rintro tr s l s' - ⟨free, backlog, h⟩ ⟨ho, hn⟩ hs
    rw [delivered_append, overflows_append]
    exact streamStep_inv hk h ho hn hs
  obtain ⟨free, backlog, h⟩ := hinv
  refine ⟨?_, ?_, h.counted⟩
  · rw [h.unread hk, h.parked, h.kept, h.order]
  · rw [h.unread hk, h.kept]

/-- Setup for one entry: two CQEs, two ops. Two emissions fill the CQ, an op's post is parked, and
the next emission finds the room the caller made after the drain looked. -/
def overtakingRun : List StreamLabel :=
  [.emit 1 0 0 [], .emit 2 0 0 [], .opAlloc { userData := 3 }, .post 0 0 [], .emit 4 0 0 [0, 1]]

/-- The last emission reaches the CQ before the CQE that was posted before it. -/
theorem completion_stream_overtaken :
    ∃ tr v, Run streamMachine Owns (emptyVault 2 (UInt32.ofNat (2 ^ 1))) tr v ∧
      ¬ v.cq.seen ++ v.unread ++ v.parked = delivered tr :=
  Run.of_exec streamMachine Owns _ (fun tr v => ¬ v.cq.seen ++ v.unread ++ v.parked = delivered tr)
    overtakingRun (by decide +kernel)

/-- The same calls with the caller's read before the drain's look. -/
theorem completion_stream_in_order :
    ∃ tr v, Run streamMachine (fun v l => Owns v l ∧ NoOvertaking v l)
      (emptyVault 2 (UInt32.ofNat (2 ^ 1))) tr v ∧
      delivered tr ≠ [] ∧ v.cq.seen ++ v.unread ++ v.parked = delivered tr := by
  have hrun := Run.of_exec streamMachine (fun v l => Owns v l ∧ NoOvertaking v l)
    (emptyVault 2 (UInt32.ofNat (2 ^ 1))) (fun tr _ => delivered tr ≠ [])
    [.emit 1 0 0 [], .emit 2 0 0 [], .opAlloc { userData := 3 }, .post 0 0 [], .emit 4 0 0 [1]]
    (by decide +kernel)
  obtain ⟨tr, v, hr, hne⟩ := hrun
  exact ⟨tr, v, hr, hne, (completion_stream_fifo (by decide) hr).1⟩

end SlipstreamIO.Engine
