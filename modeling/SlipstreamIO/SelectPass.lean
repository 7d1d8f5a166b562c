import SlipstreamIO.WaitingBag

/-! The floor: select asks about the descriptors of `waiting[]` and the ring's own pipe, has no table
and no forget, and takes a failed call for an interrupted one. -/
namespace SlipstreamIO.Engine

open Runs IndexedBag

def FdSets.asks (sets : FdSets) (f : ℕ) : Bool := sets.rd f || sets.wr f || sets.ex f

/-- `select(2)` on the descriptors up to `top`: EBADF, and nothing reported, when one it is asked about
is closed, and otherwise the ready ones of those it is asked about. -/
def selectCall (opened : ℕ → Bool) (ready : FdSets) (top : ℕ) (asked : FdSets) : Option FdSets :=
  if (List.range (top + 1)).all fun f => !asked.asks f || opened f then
    some {
      rd f := asked.rd f && ready.rd f
      wr f := asked.wr f && ready.wr f
      ex f := asked.ex f && ready.ex f }
  else none

/-- The ring and the descriptors that are open in its process. -/
structure Selecting where
  ring : Ring
  opened : ℕ → Bool

namespace Selecting

def arm (s : Selecting) (op : Slot) : Bool :=
  0 ≤ (s.ring.opPool op).sqe.fd && (s.ring.opPool op).fdIndex < fdSetsize

def park (s : Selecting) (op : Slot) : Selecting × Bool :=
  if s.ring.opPoolN ≤ s.ring.waiting.length then (s, false)
  else if !s.arm op then (s, false)
  else
    let o := { s.ring.opPool op with waitSlot := s.ring.waiting.length }
    ({ s with ring := { s.ring.inVault (·.setOp op o) with waiting := s.ring.waiting ++ [op] } }, true)

/-- The disarm does nothing. -/
def unpark (s : Selecting) (op : Slot) : Selecting :=
  let i := (s.ring.opPool op).waitSlot
  if s.ring.waiting[i]? ≠ some op then s
  else { s with ring := ReadyBackend.leaveWaiting s.ring i }

/-- One turn of the loop of `slip_posix_finish_ready`, with what the try answers. -/
def retry (s : Selecting) (op : Slot) (v : Verdict) : Selecting × Option (Slot × Int32) :=
  let s := s.unpark op
  match v with
  | .ran res => (s, some (op, res))
  | .file => (s, some (op, -eopnotsupp))
  | .park events =>
    match park { s with ring := s.ring.setWaitEvents op events } op with
    | (s, true) => (s, none)
    | (s, false) => (s, some (op, -ebusy))

def finishReady (s : Selecting) (ready : List Slot) (tries : List Verdict) (max : ℕ)
    (out : List (Slot × Int32)) : Selecting × List (Slot × Int32) :=
  match ready, tries with
  | op :: ready, v :: tries =>
    if out.length < max then
      match s.retry op v with
      | (s, some d) => finishReady s ready tries max (out ++ [d])
      | (s, none) => finishReady s ready tries max out
    else (s, out)
  | _, _ => (s, out)

/-- The op is one the loop over `waiting[]` asks about: one refused at arm is skipped. -/
def watched (s : Selecting) (op : Slot) (f : ℕ) : Bool := s.arm op && (s.ring.opPool op).fdIndex = f

/-- The sets as the loop fills them, the ring's control pipe first. -/
def asked (ctlR : ℕ) (s : Selecting) : FdSets where
  rd f := f = ctlR || s.ring.waiting.any fun op =>
    s.watched op f && (s.ring.opPool op).waitEvents &&& (pollIn ||| pollPri) ≠ 0
  wr f := s.ring.waiting.any fun op => s.watched op f && (s.ring.opPool op).waitEvents &&& pollOut ≠ 0
  ex f := s.ring.waiting.any fun op => s.watched op f

def top (ctlR : ℕ) (s : Selecting) : ℕ :=
  s.ring.waiting.foldl (fun top op => if s.arm op then max top (s.ring.opPool op).fdIndex else top) ctlR

/-- `ready[]` of one wait, when `ready` is what is ready now: a failed call is an interrupted one, a
harmless drain. -/
def collect (ctlR : ℕ) (s : Selecting) (ready : FdSets) : List Slot :=
  match selectCall s.opened ready (s.top ctlR) (s.asked ctlR) with
  | none => []
  | some sets => selectReady s.ring sets

/-- `select_wait`: `out` of one pass. -/
def wait (ctlR : ℕ) (s : Selecting) (ready : FdSets) (tries : List Verdict) (max : ℕ) :
    Selecting × List (Slot × Int32) :=
  s.finishReady (s.collect ctlR ready) tries max []

def closeFd (s : Selecting) (fd : Int32) : Selecting :=
  if fd < 0 then s else { s with opened := Function.update s.opened fd.toInt.toNat false }

/-- IORING_OP_CLOSE, plain or direct, on a backend without a forget. -/
def close (s : Selecting) (sqe : Sqe) : Selecting :=
  if sqe.fileIndex ≠ 0 then
    let slot := sqe.fileIndex - 1
    let real := s.ring.slipFixedLookup slot.toInt32
    if real < 0 then s
    else closeFd { s with ring := (s.ring.slipFixedClear slot.toNat).1 } real
  else s.closeFd sqe.fd

end Selecting

/-- What can happen to the parked set and to the descriptors: `opens` is a descriptor anybody makes. -/
inductive SelectLabel where
  | other (op : Slot) (o : EngOp)
  | fixed (table : Option (List Int32))
  | park (op : Slot) (events : UInt16)
  | unpark (op : Slot)
  | pass (ready : FdSets) (tries : List Verdict) (max : ℕ)
  | close (sqe : Sqe)
  | opens (f : ℕ)

def Selecting.step (ctlR : ℕ) (s : Selecting) : SelectLabel → Selecting
  | .other op o => { s with ring := s.ring.inVault (·.setOp op o) }
  | .fixed table => { s with ring := { s.ring with fixed := table } }
  | .park op events => (Selecting.park { s with ring := s.ring.setWaitEvents op events } op).1
  | .unpark op => s.unpark op
  | .pass ready tries max => (s.wait ctlR ready tries max).1
  | .close sqe => s.close sqe
  | .opens f => { s with opened := Function.update s.opened f true }

def selectMachine (ctlR : ℕ) : Machine Selecting SelectLabel Empty :=
  ⟨fun s l => some (s.step ctlR l), fun _ _ => []⟩

def setupSelect (n : ℕ) (cqEntries : UInt32) (opened : ℕ → Bool) : Selecting where
  ring := { toVault := emptyVault n cqEntries }
  opened := opened

/-- Only an op that is not parked is changed or parked. -/
def Selecting.ParksOnce (s : Selecting) : SelectLabel → Prop
  | .other op _ | .park op _ => op ∉ s.ring.waiting
  | _ => True

instance (s : Selecting) (l : SelectLabel) : Decidable (s.ParksOnce l) :=
  match l with
  | .other op _ | .park op _ => inferInstanceAs (Decidable (op ∉ s.ring.waiting))
  | .fixed _ | .unpark _ | .pass _ _ _ | .close _ | .opens _ => isTrue trivial

/-- The op's descriptor is ready for what the op waits for. -/
def EngOp.ReadyFor (o : EngOp) (ready : FdSets) : Prop :=
  (o.waitEvents &&& (pollIn ||| pollPri) ≠ 0 ∧ ready.rd o.fdIndex = true) ∨
    (o.waitEvents &&& pollOut ≠ 0 ∧ ready.wr o.fdIndex = true) ∨ ready.ex o.fdIndex = true

instance (o : EngOp) (ready : FdSets) : Decidable (o.ReadyFor ready) :=
  inferInstanceAs (Decidable (_ ∨ _ ∨ _))

/-- Every parked op on an open descriptor that is ready for it gets into `ready[]`. -/
def Selecting.HandsOver (ctlR : ℕ) (s : Selecting) (ready : FdSets) : Prop :=
  ∀ x ∈ s.ring.waiting, s.opened (s.ring.opPool x).fdIndex = true → (s.ring.opPool x).ReadyFor ready →
    x ∈ s.collect ctlR ready

/-- The control pipe and the descriptors of the parked ops are open. -/
def Selecting.AllOpen (ctlR : ℕ) (s : Selecting) : Prop :=
  s.opened ctlR = true ∧ ∀ x ∈ s.ring.waiting, s.opened (s.ring.opPool x).fdIndex = true

/-- No parked op on an open descriptor has anything to be woken for. -/
def Selecting.NothingReady (s : Selecting) (ready : FdSets) : Prop :=
  ∀ x ∈ s.ring.waiting, s.opened (s.ring.opPool x).fdIndex = true → ¬ (s.ring.opPool x).ReadyFor ready

/-- The descriptor a CLOSE closes. -/
def Selecting.closes (s : Selecting) (sqe : Sqe) : Option Int32 :=
  if sqe.fileIndex ≠ 0 then
    let real := s.ring.slipFixedLookup (sqe.fileIndex - 1).toInt32
    if real < 0 then none else some real
  else some sqe.fd

/-- An op is parked on an open descriptor, and a CLOSE closes neither the control pipe nor a descriptor
with ops parked on it. -/
def Selecting.ClosesIdle (ctlR : ℕ) (s : Selecting) : SelectLabel → Prop
  | .park op _ => s.opened (s.ring.opPool op).fdIndex = true
  | .close sqe => ∀ fd ∈ s.closes sqe, 0 ≤ fd → fd.toInt.toNat ≠ ctlR ∧
      ∀ x ∈ s.ring.waiting, (s.ring.opPool x).fdIndex ≠ fd.toInt.toNat
  | _ => True

/-- What was armed has a descriptor select can ask about. -/
def Selecting.Armed (s : Selecting) : Prop := ∀ x ∈ s.ring.waiting, s.arm x = true

/-! ### What a pass collects -/

section Pass
variable {ctlR : ℕ} {s : Selecting} {ready : FdSets} {x : Slot}

theorem foldl_max_ge (p : Slot → Bool) (g : Slot → ℕ) (l : List Slot) (start : ℕ) :
    start ≤ l.foldl (fun top op => if p op then max top (g op) else top) start ∧
      ∀ x ∈ l, p x = true → g x ≤ l.foldl (fun top op => if p op then max top (g op) else top) start := by
  induction l generalizing start with
  | nil => exact ⟨Nat.le_refl _, fun x hx => absurd hx List.not_mem_nil⟩
  | cons op l ih =>
    obtain ⟨hstart, hrest⟩ := ih (if p op then max start (g op) else start)
    rw [List.foldl_cons]
    have hgrow : start ≤ if p op then max start (g op) else start := by
      split <;> omega
    refine ⟨hgrow.trans hstart, ?_⟩
    intro x hx hp
    obtain rfl | hx := List.mem_cons.mp hx
    · apply Nat.le_trans ?_ hstart
      rw [if_pos hp]
      exact Nat.le_max_right _ _
    · exact hrest x hx hp

theorem Selecting.asked_asks (h : s.Armed) (f : ℕ) : (s.asked ctlR).asks f = true ↔
    f = ctlR ∨ ∃ x ∈ s.ring.waiting, (s.ring.opPool x).fdIndex = f := by
  unfold FdSets.asks asked watched
  simp only [Bool.or_eq_true, decide_eq_true_eq, List.any_eq_true, Bool.and_eq_true]
  constructor
  · rintro (((rfl | ⟨x, hx, ⟨-, hf⟩, -⟩) | ⟨x, hx, ⟨-, hf⟩, -⟩) | ⟨x, hx, -, hf⟩)
    · exact .inl rfl
    all_goals exact .inr ⟨x, hx, hf⟩
  · rintro (rfl | ⟨x, hx, hf⟩)
    · exact .inl (.inl (.inl rfl))
    · exact .inr ⟨x, hx, h x hx, hf⟩

theorem Selecting.asked_opened_iff (h : s.Armed) :
    ((List.range (s.top ctlR + 1)).all fun f => !(s.asked ctlR).asks f || s.opened f) = true ↔
      s.AllOpen ctlR := by
  obtain ⟨hctl, htop⟩ := foldl_max_ge s.arm (fun x => (s.ring.opPool x).fdIndex) s.ring.waiting ctlR
  have hrange {f : ℕ} (hf : f ≤ s.top ctlR) : f ∈ List.range (s.top ctlR + 1) :=
    List.mem_range.mpr (Nat.lt_succ_of_le hf)
  have hasked (f : ℕ) : (!(s.asked ctlR).asks f || s.opened f) = true ↔
      ((s.asked ctlR).asks f = true → s.opened f = true) := by
    cases (s.asked ctlR).asks f <;> simp
  rw [List.all_eq_true]
  constructor
  · intro hall
    constructor
    · exact (hasked _).mp (hall ctlR (hrange hctl)) ((asked_asks h _).mpr (.inl rfl))
    · intro x hx
      apply (hasked _).mp (hall _ (hrange (htop x hx (h x hx))))
      exact (asked_asks h _).mpr (.inr ⟨x, hx, rfl⟩)
  · rintro ⟨hopen, hparked⟩ f -
    rw [hasked, asked_asks h]
    rintro (rfl | ⟨x, hx, rfl⟩)
    · exact hopen
    · exact hparked x hx

/-- Of the sets that come back, an op reads what is ready for it: they hold what it asked about. -/
theorem Selecting.selectReady_asked (h : s.Armed) :
    x ∈ selectReady s.ring {
        rd f := (s.asked ctlR).rd f && ready.rd f
        wr f := (s.asked ctlR).wr f && ready.wr f
        ex f := (s.asked ctlR).ex f && ready.ex f } ↔
      x ∈ s.ring.waiting ∧ (s.ring.opPool x).ReadyFor ready := by
  unfold selectReady selectWoke
  simp only [List.mem_filter, Bool.and_eq_true, Bool.or_eq_true, decide_eq_true_eq]
  constructor
  · rintro ⟨hx, -, (⟨hw, -, hr⟩ | ⟨hw, -, hr⟩) | ⟨-, hr⟩⟩
    · exact ⟨hx, .inl ⟨hw, hr⟩⟩
    · exact ⟨hx, .inr (.inl ⟨hw, hr⟩)⟩
    · exact ⟨hx, .inr (.inr hr)⟩
  · rintro ⟨hx, hready⟩
    have harm := h x hx
    have hwatched : s.watched x (s.ring.opPool x).fdIndex = true := by
      simp [watched, harm]
    have hany {p : Slot → Bool} (hp : p x = true) : s.ring.waiting.any p = true :=
      List.any_eq_true.mpr ⟨x, hx, hp⟩
    unfold arm at harm
    simp only [Bool.and_eq_true, decide_eq_true_eq] at harm
    refine ⟨hx, harm, ?_⟩
    obtain ⟨hw, hr⟩ | ⟨hw, hr⟩ | hr := hready
    · refine .inl (.inl ⟨hw, ?_, hr⟩)
      unfold asked
      simp only [Bool.or_eq_true]
      exact .inr (hany (by simpa [hwatched] using hw))
    · exact .inl (.inr ⟨hw, hany (by simpa [hwatched] using hw), hr⟩)
    · exact .inr ⟨hany hwatched, hr⟩

theorem Selecting.mem_collect (h : s.Armed) : x ∈ s.collect ctlR ready ↔
    s.AllOpen ctlR ∧ x ∈ s.ring.waiting ∧ (s.ring.opPool x).ReadyFor ready := by
  unfold collect selectCall
  by_cases hopen : s.AllOpen ctlR
  · rw [if_pos ((asked_opened_iff h).mpr hopen)]
    simp only [hopen, true_and]
    exact selectReady_asked h
  · rw [if_neg (fun hall => hopen ((asked_opened_iff h).mp hall))]
    simp [hopen]

theorem Selecting.handsOver_iff (h : s.Armed) :
    s.HandsOver ctlR ready ↔ s.AllOpen ctlR ∨ s.NothingReady ready := by
  unfold HandsOver NothingReady
  simp only [mem_collect h]
  constructor
  · intro hover
    by_cases hopen : s.AllOpen ctlR
    · exact .inl hopen
    · right
      intro x hx ho hready
      exact hopen (hover x hx ho hready).1
  · rintro (hopen | hnone) x hx ho hready
    · exact ⟨hopen, hx, hready⟩
    · exact absurd hready (hnone x hx ho)

end Pass

/-! ### What can be parked -/

/-- The descriptors stay what they are, and what is newly parked was armed and is one of `new`. -/
structure Selecting.Parks (s s' : Selecting) (new : Slot → Prop) : Prop where
  fd : ∀ x, (s'.ring.opPool x).sqe.fd = (s.ring.opPool x).sqe.fd
  opened : s'.opened = s.opened
  waiting : ∀ x ∈ s'.ring.waiting, x ∈ s.ring.waiting ∨ (new x ∧ s.arm x = true)

namespace Selecting.Parks
variable {s s' s'' : Selecting} {new new' : Slot → Prop} {op : Slot}

theorem arm_eq (h : s.Parks s' new) (x : Slot) : s'.arm x = s.arm x := by
  unfold arm EngOp.fdIndex
  rw [h.fd]

theorem refl (s : Selecting) : s.Parks s new := ⟨fun _ => rfl, rfl, fun _ hx => .inl hx⟩

theorem mono (h : s.Parks s' new) (hnew : ∀ x, new x → new' x) : s.Parks s' new' :=
  ⟨h.fd, h.opened, fun x hx => (h.waiting x hx).imp_right (And.imp_left (hnew x))⟩

theorem trans (h : s.Parks s' new) (h' : s'.Parks s'' new) : s.Parks s'' new := by
  constructor
  · intro x
    exact (h'.fd x).trans (h.fd x)
  · exact h'.opened.trans h.opened
  · intro x hx
    obtain hx | ⟨hnew, harm⟩ := h'.waiting x hx
    · exact h.waiting x hx
    · exact .inr ⟨hnew, h.arm_eq x ▸ harm⟩

/-- Rewriting an op with its descriptor kept. -/
theorem setOp (s : Selecting) (op : Slot) (o : EngOp) (ho : o.sqe.fd = (s.ring.opPool op).sqe.fd) :
    s.Parks { s with ring := s.ring.inVault (·.setOp op o) } new := by
  refine ⟨fun x => ?_, rfl, fun x hx => .inl hx⟩
  rw [Ring.inVault_toVault, Vault.setOp_opPool]
  split
  · next hx => rw [ho, hx]
  · rfl

theorem park (s : Selecting) (op : Slot) : s.Parks (s.park op).1 (· = op) := by
  unfold Selecting.park
  split
  · exact refl s
  split
  · exact refl s
  next harm =>
  have hset : s.Parks _ (· = op) := setOp s op
    { s.ring.opPool op with waitSlot := s.ring.waiting.length } rfl
  refine ⟨hset.fd, rfl, fun x hx => ?_⟩
  obtain hx | hx := List.mem_append.mp hx
  · exact .inl hx
  · exact .inr ⟨List.mem_singleton.mp hx, by rw [List.mem_singleton.mp hx]; simpa using harm⟩

theorem unpark (s : Selecting) (op : Slot) : s.Parks (s.unpark op) new := by
  unfold Selecting.unpark ReadyBackend.leaveWaiting
  dsimp only
  split
  · exact refl s
  split
  · exact refl s
  next last hlast =>
  have hset : s.Parks _ new := setOp s last
    { s.ring.opPool last with waitSlot := (s.ring.opPool op).waitSlot } rfl
  refine ⟨hset.fd, rfl, fun x hx => .inl ?_⟩
  unfold swapRemove at hx
  rw [hlast] at hx
  obtain hx | rfl := List.mem_or_eq_of_mem_set (List.mem_of_mem_dropLast hx)
  · exact hx
  · exact List.mem_of_getLast? hlast

theorem retry (s : Selecting) (op : Slot) (v : Verdict) : s.Parks (s.retry op v).1 (· = op) := by
  have hout : s.Parks (s.unpark op) (· = op) := unpark s op
  unfold Selecting.retry
  cases v with
  | ran res => exact hout
  | file => exact hout
  | park events =>
    have hset : (s.unpark op).Parks _ (· = op) := setOp (s.unpark op) op
      { (s.unpark op).ring.opPool op with waitEvents := events } rfl
    have hpark := (hout.trans hset).trans (park _ op)
    dsimp only
    unfold Ring.setWaitEvents
    split
    all_goals
      next he =>
      rw [he] at hpark
      exact hpark

theorem finishReady {ready : List Slot} (s : Selecting) (tries : List Verdict) (max : ℕ)
    (out : List (Slot × Int32)) : s.Parks (s.finishReady ready tries max out).1 (· ∈ ready) := by
  induction ready generalizing s tries out with
  | nil =>
    unfold Selecting.finishReady
    exact refl s
  | cons op ready ih =>
    cases tries with
    | nil =>
      unfold Selecting.finishReady
      exact refl s
    | cons v tries =>
      unfold Selecting.finishReady
      have hturn : s.Parks (s.retry op v).1 (· ∈ op :: ready) :=
        (retry s op v).mono fun x hx => hx ▸ List.mem_cons_self
      have hrest (s : Selecting) (out : List (Slot × Int32)) :
          s.Parks (s.finishReady ready tries max out).1 (· ∈ op :: ready) :=
        (ih s tries out).mono fun x hx => List.mem_cons_of_mem op hx
      split
      · split
        all_goals
          next he =>
          rw [he] at hturn
          exact hturn.trans (hrest _ _)
      · exact refl s

/-- A pass parks nothing that was not parked. -/
theorem wait (ctlR : ℕ) (s : Selecting) (ready : FdSets) (tries : List Verdict) (max : ℕ) :
    ∀ x ∈ (s.wait ctlR ready tries max).1.ring.waiting, x ∈ s.ring.waiting := by
  intro x hx
  obtain hx | ⟨hready, -⟩ := (finishReady s tries max []).waiting x hx
  · exact hx
  · unfold Selecting.collect at hready
    split at hready
    · cases hready
    · exact (List.mem_filter.mp hready).1

end Selecting.Parks

/-- A CLOSE leaves `waiting[]` and the pool alone. -/
theorem Selecting.close_frame (s : Selecting) (sqe : Sqe) :
    (s.close sqe).ring.waiting = s.ring.waiting ∧ (s.close sqe).ring.opPool = s.ring.opPool := by
  have hfd (s : Selecting) (fd : Int32) : (s.closeFd fd).ring = s.ring := by
    unfold closeFd
    split <;> rfl
  unfold close
  split
  · dsimp only
    split
    · exact ⟨rfl, rfl⟩
    · obtain ⟨hpool, -, hw⟩ := slipFixedClear_frame s.ring (sqe.fileIndex - 1).toNat
      rw [hfd]
      exact ⟨hw, hpool⟩
  · rw [hfd]
    exact ⟨rfl, rfl⟩

section Runs
variable {ctlR n : ℕ} {e : UInt32} {opened : ℕ → Bool} {tr : List Empty} {s : Selecting} {l : SelectLabel}

theorem Selecting.Armed.step (h : s.Armed) (hc : s.ParksOnce l) : (s.step ctlR l).Armed := by
  have hparks {s' : Selecting} {new : Slot → Prop} (hp : s.Parks s' new) : s'.Armed := by
    intro x hx
    rw [hp.arm_eq]
    obtain hx | ⟨-, harm⟩ := hp.waiting x hx
    · exact h x hx
    · exact harm
  cases l with
  | other op o =>
    intro x hx
    have hne : x ≠ op := by
      rintro rfl
      exact hc hx
    have harm := h x hx
    unfold arm EngOp.fdIndex at harm ⊢
    rwa [Selecting.step, Ring.inVault_toVault, Vault.setOp_opPool, if_neg hne]
  | fixed table => exact h
  | park op events =>
    exact hparks ((Parks.setOp s op { s.ring.opPool op with waitEvents := events } rfl).trans
      (Parks.park _ op))
  | unpark op =>
    have hout : s.Parks (s.unpark op) (fun _ => False) := Parks.unpark s op
    exact hparks hout
  | pass ready tries max => exact hparks (Parks.finishReady s tries max [])
  | close sqe =>
    obtain ⟨hw, hpool⟩ := s.close_frame sqe
    intro x hx
    have harm := h x (hw ▸ hx)
    unfold arm at harm ⊢
    rwa [Selecting.step, hpool]
  | opens f => exact h

theorem select_run_armed (hr : Run (selectMachine ctlR) Selecting.ParksOnce (setupSelect n e opened) tr s) :
    s.Armed := by
  refine hr.invariant (fun _ s => s.Armed) (fun x hx => absurd hx List.not_mem_nil) ?_
  intro tr s l s' _ h hc hs
  cases hs
  exact h.step hc

/-- A wait pass hands over what is ready unless select fails while there is something to hand over. -/
theorem select_hands_over_iff
    (hr : Run (selectMachine ctlR) Selecting.ParksOnce (setupSelect n e opened) tr s) (ready : FdSets) :
    s.HandsOver ctlR ready ↔ s.AllOpen ctlR ∨ s.NothingReady ready :=
  Selecting.handsOver_iff (select_run_armed hr)

theorem Selecting.close_opened (s : Selecting) (sqe : Sqe) (f : ℕ)
    (hf : ∀ fd ∈ s.closes sqe, 0 ≤ fd → fd.toInt.toNat ≠ f) : (s.close sqe).opened f = s.opened f := by
  have hfd (s : Selecting) (fd : Int32) (hne : 0 ≤ fd → fd.toInt.toNat ≠ f) :
      (s.closeFd fd).opened f = s.opened f := by
    unfold closeFd
    split
    · rfl
    · next hneg => exact Function.update_of_ne (hne (Int32.not_lt.mp hneg)).symm _ _
  unfold closes at hf
  unfold close
  by_cases hdirect : sqe.fileIndex ≠ 0
  · rw [if_pos hdirect] at hf ⊢
    dsimp only at hf ⊢
    split
    · rfl
    · next hreal =>
      rw [if_neg hreal] at hf
      exact hfd _ _ (hf _ rfl)
  · rw [if_neg hdirect] at hf ⊢
    exact hfd _ _ (hf _ rfl)

theorem Selecting.AllOpen.step (h : s.AllOpen ctlR) (hc : s.ParksOnce l) (hidle : s.ClosesIdle ctlR l) :
    (s.step ctlR l).AllOpen ctlR := by
  have hparks {s' : Selecting} {new : Slot → Prop} (hp : s.Parks s' new)
      (hnew : ∀ x, new x → s.opened (s.ring.opPool x).fdIndex = true) : s'.AllOpen ctlR := by
    constructor
    · rw [hp.opened]
      exact h.1
    · intro x hx
      unfold EngOp.fdIndex
      rw [hp.opened, hp.fd]
      obtain hx | ⟨hx, -⟩ := hp.waiting x hx
      · exact h.2 x hx
      · exact hnew x hx
  cases l with
  | other op o =>
    refine ⟨h.1, fun x hx => ?_⟩
    have hne : x ≠ op := by
      rintro rfl
      exact hc hx
    rw [Selecting.step, Ring.inVault_toVault, Vault.setOp_opPool, if_neg hne]
    exact h.2 x hx
  | fixed table => exact h
  | park op events =>
    apply hparks ((Parks.setOp s op { s.ring.opPool op with waitEvents := events } rfl).trans
      (Parks.park _ op))
    rintro x rfl
    exact hidle
  | unpark op => exact hparks (Parks.unpark s op) fun _ => False.elim
  | pass ready tries max =>
    have hp := @Parks.finishReady (s.collect ctlR ready) s tries max []
    refine ⟨hp.opened ▸ h.1, fun x hx => ?_⟩
    unfold EngOp.fdIndex
    rw [Selecting.step, Selecting.wait, hp.opened, hp.fd]
    exact h.2 x (Parks.wait ctlR s ready tries max x hx)
  | close sqe =>
    obtain ⟨hw, hpool⟩ := s.close_frame sqe
    constructor
    · rw [Selecting.step, s.close_opened sqe ctlR fun fd hfd hpos => (hidle fd hfd hpos).1]
      exact h.1
    · intro x hx
      have hx : x ∈ s.ring.waiting := hw ▸ hx
      rw [Selecting.step, hpool,
        s.close_opened sqe _ fun fd hfd hpos heq => (hidle fd hfd hpos).2 x hx heq.symm]
      exact h.2 x hx
  | opens f =>
    have hmore {g : ℕ} (hg : s.opened g = true) : Function.update s.opened f true g = true := by
      rw [Function.update_apply]
      split
      · rfl
      · exact hg
    exact ⟨hmore h.1, fun x hx => hmore (h.2 x hx)⟩

/-- As long as ops are parked on open descriptors and CLOSE closes idle ones, every pass hands over. -/
theorem idle_closes_hand_over (hctl : opened ctlR = true)
    (hr : Run (selectMachine ctlR) (fun s l => s.ParksOnce l ∧ s.ClosesIdle ctlR l)
      (setupSelect n e opened) tr s) (ready : FdSets) : s.HandsOver ctlR ready := by
  have hopen : s.AllOpen ctlR := by
    refine hr.invariant (fun _ s => s.AllOpen ctlR)
      ⟨hctl, fun x hx => absurd hx List.not_mem_nil⟩ ?_
    intro tr s l s' _ h hc hs
    cases hs
    exact h.step hc.1 hc.2
  have hall := hr.mono (fun _ _ hc => hc.1)
  exact (Selecting.handsOver_iff (select_run_armed hall)).mpr (.inl hopen)

end Runs

/-- Two RECVs, on 5 and on 6, the second of them readable. -/
def twoReceivers : List SelectLabel :=
  [.other 0 { sqe := { opcode := .recv, fd := 5 } }, .other 1 { sqe := { opcode := .recv, fd := 6 } },
    .park 0 pollIn, .park 1 pollIn]

def sixReadable : FdSets := ⟨fun f => f = 6, fun _ => false, fun _ => false⟩

theorem select_hands_over_two : ∃ tr s, Run (selectMachine 3) Selecting.ParksOnce
    (setupSelect 2 4 fun f => f < 7) tr s ∧ s.ring.waiting = [0, 1] ∧ s.HandsOver 3 sixReadable := by
  obtain ⟨tr, s, hr, hw, hopen⟩ := Run.of_exec (selectMachine 3) Selecting.ParksOnce
    (setupSelect 2 4 fun f => f < 7) (fun _ s => s.ring.waiting = [0, 1] ∧ s.opened 3 = true ∧
      ∀ x ∈ s.ring.waiting, s.opened (s.ring.opPool x).fdIndex = true) twoReceivers (by decide +kernel)
  exact ⟨tr, s, hr, hw, (select_hands_over_iff hr sixReadable).mpr (.inl hopen)⟩

/-- After a CLOSE of 5 the op on 6 is not handed over, though 6 is open and readable. -/
theorem closed_descriptor_deafens_select : ∃ tr s, Run (selectMachine 3) Selecting.ParksOnce
    (setupSelect 2 4 fun f => f < 7) tr s ∧ 1 ∈ s.ring.waiting ∧
      s.opened (s.ring.opPool 1).fdIndex = true ∧ (s.ring.opPool 1).ReadyFor sixReadable ∧
        1 ∉ s.collect 3 sixReadable :=
  Run.of_exec (selectMachine 3) Selecting.ParksOnce (setupSelect 2 4 fun f => f < 7) (fun _ s =>
    1 ∈ s.ring.waiting ∧ s.opened (s.ring.opPool 1).fdIndex = true ∧
      (s.ring.opPool 1).ReadyFor sixReadable ∧ 1 ∉ s.collect 3 sixReadable)
    (twoReceivers ++ [.close { opcode := .close, fd := 5 }]) (by decide +kernel)

end SlipstreamIO.Engine
