import SlipstreamIO.CompletionSpecs
import SlipstreamIO.Runs

/-! The control pipe of a ring, and who is at it: enter, which looks at the CQ and sleeps in the
backend, and those who post on the ring's CQ from other threads and then poke. -/
namespace SlipstreamIO.Engine

open Runs

/-- A POSIX pipe, which holds a byte at least, and the O_NONBLOCK flag of each end. -/
structure Pipe where
  capacity : ℕ
  holds : 0 < capacity
  bytes : ℕ := 0
  readNonblock : Bool := false
  writeNonblock : Bool := false

namespace Pipe

/-- Writing a byte: `none` while the call blocks. -/
def write (p : Pipe) : Option Pipe :=
  if p.bytes < p.capacity then some { p with bytes := p.bytes + 1 }
  else if p.writeNonblock then some p
  else none

/-- Reading up to `n` bytes: `none` while the call blocks. -/
def read (p : Pipe) (n : ℕ) : Option (ℕ × Pipe) :=
  if 0 < p.bytes then some (min n p.bytes, { p with bytes := p.bytes - n })
  else if p.readNonblock then some (0, p)
  else none

end Pipe

/-- `pipe`, then O_NONBLOCK on the end that is read. -/
def slipPosixCtlOpen (capacity : ℕ) (holds : 0 < capacity) : Pipe :=
  let p : Pipe := { capacity, holds }
  { p with readNonblock := true }

/-- One turn of the drain's loop: how many bytes came, and the loop goes on while there came any. -/
def slipPosixCtlDrain (p : Pipe) : Option (ℕ × Pipe) := p.read 64

def slipPosixPoke (p : Pipe) : Option Pipe := p.write

/-- Where an enter that waits for `min` CQEs stands: outside its wait loop, at work in it (completing,
processing the queue, settling), between its loads of the two counters of the CQ, in front of the
comparison, asleep in the backend, or woken there and draining the pipe. -/
inductive WaitPc where
  | away
  | awake (min : UInt32)
  | tailSeen (min tail : UInt32)
  | headSeen (min head : UInt32)
  | counted (min avail : UInt32)
  | asleep (min avail : UInt32)
  | draining (min : UInt32)
  deriving DecidableEq

/-- The ring's vault, its enter, its pipe, whether its worker has posted and not yet poked, and how
many MSG_RING senders of other rings have emitted and not yet poked. -/
structure Doorbell where
  vault : Vault
  pc : WaitPc := .away
  pipe : Pipe
  workerOwes : Bool := false
  senders : ℕ := 0

/-- `own` is a stretch of the submitter outside the two loads: it may do anything to the vault.
`reported` says whether the wakeup reports the pipe's read end. -/
inductive BellLabel where
  | enter (min : UInt32)
  | own (v : Vault)
  | loadTail
  | loadHead
  | compare
  | leave
  | wake (reported : Bool)
  | drain
  | workerPost (op : Slot) (res : Int32) (reads : List ℕ)
  | workerPoke
  | senderEmit (userData : UInt64) (res : Int32) (reads : List ℕ)
  | senderPoke
  | interrupted (worker : Bool)
  | read (k : ℕ)

namespace Doorbell

/-- The loads of `cq->tail` and `cq->head` come in either order. -/
def loadTail (s : Doorbell) : Option Doorbell :=
  match s.pc with
  | .awake m => some { s with pc := .tailSeen m s.vault.cq.tail }
  | .headSeen m h => some { s with pc := .counted m (s.vault.cq.tail - h) }
  | _ => none

def loadHead (s : Doorbell) : Option Doorbell :=
  match s.pc with
  | .awake m => some { s with pc := .headSeen m s.vault.cq.head }
  | .tailSeen m t => some { s with pc := .counted m (t - s.vault.cq.head) }
  | _ => none

def step (s : Doorbell) : BellLabel → Option Doorbell
  | .enter m =>
    match s.pc with
    | .away => if 0 < m then some { s with pc := .awake m } else none
    | _ => none
  | .own v =>
    match s.pc with
    | .away | .awake _ => some { s with vault := v }
    | _ => none
  | .loadTail => s.loadTail
  | .loadHead => s.loadHead
  | .compare =>
    match s.pc with
    | .counted m a => some { s with pc := if a < m then .asleep m a else .away }
    | _ => none
  -- the deadline, or a backend that fails
  | .leave =>
    match s.pc with
    | .asleep _ _ | .counted _ _ => some { s with pc := .away }
    | _ => none
  | .wake reported =>
    match s.pc with
    | .asleep m _ => some { s with pc := if reported then .draining m else .awake m }
    | _ => none
  | .drain =>
    match s.pc with
    | .draining m => (slipPosixCtlDrain s.pipe).map fun (got, p) =>
        { s with pc := if 0 < got then .draining m else .awake m, pipe := p }
    | _ => none
  | .workerPost op res reads =>
    if s.workerOwes then none
    else some { s with vault := s.vault.slipEnginePost op res reads, workerOwes := true }
  | .workerPoke =>
    if s.workerOwes then (slipPosixPoke s.pipe).map fun p => { s with pipe := p, workerOwes := false }
    else none
  | .senderEmit u res reads =>
    some { s with vault := s.vault.slipEngineEmit u res 0 reads, senders := s.senders + 1 }
  | .senderPoke =>
    if 0 < s.senders then
      (slipPosixPoke s.pipe).map fun p => { s with pipe := p, senders := s.senders - 1 }
    else none
  -- a write that would block comes back from a signal with nothing written
  | .interrupted worker =>
    if (slipPosixPoke s.pipe).isSome then none
    else if worker then if s.workerOwes then some { s with workerOwes := false } else none
    else if 0 < s.senders then some { s with senders := s.senders - 1 } else none
  | .read k => some { s with vault := s.vault.callerReads k }

/-- Pokes still to come: of the worker, and of the senders. -/
def owed (s : Doorbell) : ℕ := (if s.workerOwes then 1 else 0) + s.senders

end Doorbell

/-- A run reports nothing: what is said of it is said of its states. -/
def bellMachine : Machine Doorbell BellLabel Unit := ⟨Doorbell.step, fun _ _ => []⟩

/-- A ring as setup leaves it, on a system whose pipes hold `capacity` bytes. -/
def setupBell (n : ℕ) (cqEntries : UInt32) (capacity : ℕ) (holds : 0 < capacity) : Doorbell where
  vault := emptyVault n cqEntries
  pipe := slipPosixCtlOpen capacity holds

/-- Someone stands at a poke that blocks. -/
def Doorbell.PokeBlocks (s : Doorbell) : Prop := 0 < s.owed ∧ slipPosixPoke s.pipe = none

/-- A post that will poke comes while the bytes in the pipe and the pokes still to come are fewer than
the pipe holds. -/
def Doorbell.RoomToPoke (s : Doorbell) : BellLabel → Prop
  | .workerPost _ _ _ | .senderEmit _ _ _ => s.pipe.bytes + s.owed < s.pipe.capacity
  | _ => True

instance (s : Doorbell) (l : BellLabel) : Decidable (s.RoomToPoke l) := by
  unfold Doorbell.RoomToPoke
  split <;> infer_instance

section Steps
variable {s s' : Doorbell} {l : BellLabel} {n capacity : ℕ} {e : UInt32} {holds : 0 < capacity}

/-- The steps that add a poke to the ones still to come. -/
def BellLabel.posts : BellLabel → Bool
  | .workerPost _ _ _ | .senderEmit _ _ _ => true
  | _ => false

/-- What a step does to the pipe and to the pokes still to come. -/
inductive Doorbell.Moves (s s' : Doorbell) : Bool → Prop
  | rests (hp : s'.pipe = s.pipe) (ho : s'.owed = s.owed) : Moves s s' false
  | posts (hp : s'.pipe = s.pipe) (ho : s'.owed = s.owed + 1) : Moves s s' true
  | pokes (hp : slipPosixPoke s.pipe = some s'.pipe) (ho : s'.owed + 1 = s.owed) : Moves s s' false
  | givesUp (hfull : slipPosixPoke s.pipe = none) (hp : s'.pipe = s.pipe) (ho : s'.owed + 1 = s.owed) :
      Moves s s' false
  | drains {got : ℕ} (hp : slipPosixCtlDrain s.pipe = some (got, s'.pipe)) (ho : s'.owed = s.owed) :
      Moves s s' false

theorem Doorbell.step_moves (hs : s.step l = some s') : s.Moves s' l.posts := by
  cases l with
  | enter m | own v | compare | leave | wake reported =>
    simp only [Doorbell.step] at hs
    repeat' split at hs
    all_goals cases hs
    all_goals exact .rests rfl rfl
  | loadTail | loadHead =>
    simp only [Doorbell.step, Doorbell.loadTail, Doorbell.loadHead] at hs
    split at hs <;> cases hs <;> exact .rests rfl rfl
  | read k =>
    cases hs
    exact .rests rfl rfl
  | drain =>
    simp only [Doorbell.step] at hs
    split at hs
    · obtain ⟨⟨got, p⟩, hp, rfl⟩ := Option.map_eq_some_iff.mp hs
      exact .drains hp rfl
    · cases hs
  | workerPost op res reads =>
    simp only [Doorbell.step] at hs
    split at hs <;> cases hs
    next howes => exact .posts rfl (by simp [Doorbell.owed, howes, Nat.add_comm])
  | senderEmit u res reads =>
    cases hs
    exact .posts rfl rfl
  | workerPoke =>
    simp only [Doorbell.step] at hs
    split at hs
    · next howes =>
      obtain ⟨p, hp, rfl⟩ := Option.map_eq_some_iff.mp hs
      exact .pokes hp (by simp [Doorbell.owed, howes, Nat.add_comm])
    · cases hs
  | senderPoke =>
    simp only [Doorbell.step] at hs
    split at hs
    · next hpos =>
      obtain ⟨p, hp, rfl⟩ := Option.map_eq_some_iff.mp hs
      refine .pokes hp ?_
      simp only [Doorbell.owed]
      omega
    · cases hs
  | interrupted worker =>
    simp only [Doorbell.step] at hs
    split at hs
    · cases hs
    next hnone =>
    have hfull : slipPosixPoke s.pipe = none := by simpa using hnone
    split at hs
    · split at hs <;> cases hs
      next howes => exact .givesUp hfull rfl (by simp [Doorbell.owed, howes, Nat.add_comm])
    · split at hs <;> cases hs
      next hpos =>
        refine .givesUp hfull rfl ?_
        simp only [Doorbell.owed]
        omega

theorem slipPosixPoke_some {p p' : Pipe} (hw : p.writeNonblock = false)
    (h : slipPosixPoke p = some p') :
    p.bytes < p.capacity ∧ p' = { p with bytes := p.bytes + 1 } := by
  unfold slipPosixPoke Pipe.write at h
  split at h
  · next hlt =>
    cases h
    exact ⟨hlt, rfl⟩
  · rw [hw] at h
    cases h

theorem slipPosixPoke_none_iff {p : Pipe} (hw : p.writeNonblock = false) :
    slipPosixPoke p = none ↔ p.capacity ≤ p.bytes := by
  unfold slipPosixPoke Pipe.write
  rw [hw]
  by_cases h : p.bytes < p.capacity
  · simp [h]
  · simp [h, Nat.le_of_not_lt h]

theorem slipPosixCtlDrain_eq {p p' : Pipe} {got : ℕ} (h : slipPosixCtlDrain p = some (got, p')) :
    p' = { p with bytes := p.bytes - 64 } := by
  unfold slipPosixCtlDrain Pipe.read at h
  split at h
  · cases h
    rfl
  · next hnone =>
    split at h <;> cases h
    have hzero : p.bytes = 0 := Nat.eq_zero_of_not_pos hnone
    rw [hzero, Nat.zero_sub, ← hzero]

/-- The pipe is the one that was opened, and never holds more than it can. -/
structure Doorbell.PipeOk (s : Doorbell) : Prop where
  writer : s.pipe.writeNonblock = false
  bytes : s.pipe.bytes ≤ s.pipe.capacity

theorem Doorbell.PipeOk.moves (h : s.PipeOk) {b : Bool} (hm : s.Moves s' b) : s'.PipeOk := by
  cases hm with
  | rests hp ho | posts hp ho | givesUp hfull hp ho => exact ⟨hp ▸ h.writer, hp ▸ h.bytes⟩
  | pokes hp ho =>
    obtain ⟨hlt, heq⟩ := slipPosixPoke_some h.writer hp
    constructor
    · rw [heq]
      exact h.writer
    · rw [heq]
      exact hlt
  | drains hp ho =>
    have heq := slipPosixCtlDrain_eq hp
    constructor
    · rw [heq]
      exact h.writer
    · rw [heq]
      exact (Nat.sub_le _ _).trans h.bytes

theorem setupBell_pipeOk : (setupBell n e capacity holds).PipeOk := ⟨rfl, Nat.zero_le _⟩

theorem pipeOk_run {C : Doorbell → BellLabel → Prop} {tr : List Unit}
    (hr : Run bellMachine C (setupBell n e capacity holds) tr s) : s.PipeOk :=
  hr.invariant (fun _ s => s.PipeOk) setupBell_pipeOk
    fun _ _ _ _ _ h _ hs => h.moves (Doorbell.step_moves hs)

/-- The bytes in the pipe and the pokes still to come fit into it. -/
theorem Doorbell.roomy_moves (h : s.PipeOk) (hroom : s.pipe.bytes + s.owed ≤ s.pipe.capacity) {b : Bool}
    (hb : b = true → s.pipe.bytes + s.owed < s.pipe.capacity) (hm : s.Moves s' b) :
    s'.pipe.bytes + s'.owed ≤ s'.pipe.capacity := by
  cases hm with
  | rests hp ho =>
    rw [hp, ho]
    exact hroom
  | posts hp ho =>
    have hlt := hb rfl
    rw [hp, ho]
    omega
  | givesUp hfull hp ho =>
    rw [hp]
    omega
  | pokes hp ho =>
    obtain ⟨-, heq⟩ := slipPosixPoke_some h.writer hp
    rw [heq]
    dsimp only
    omega
  | drains hp ho =>
    rw [slipPosixCtlDrain_eq hp, ho]
    dsimp only
    omega

theorem Doorbell.roomToPoke_posts (hc : s.RoomToPoke l) (hl : l.posts = true) :
    s.pipe.bytes + s.owed < s.pipe.capacity := by
  cases l with
  | workerPost op res reads | senderEmit u res reads => exact hc
  | _ => cases hl

end Steps

theorem pokes_never_block {n capacity : ℕ} {e : UInt32} {holds : 0 < capacity} {tr : List Unit}
    {s : Doorbell} (hr : Run bellMachine Doorbell.RoomToPoke (setupBell n e capacity holds) tr s) :
    ¬ s.PokeBlocks := by
  have hroom : s.pipe.bytes + s.owed ≤ s.pipe.capacity := by
    refine hr.invariant (fun _ s => s.pipe.bytes + s.owed ≤ s.pipe.capacity) (Nat.zero_le _) ?_
    intro tr s l s' hr h hc hs
    exact Doorbell.roomy_moves (pipeOk_run hr) h (Doorbell.roomToPoke_posts hc) (Doorbell.step_moves hs)
  rintro ⟨howed, hblocks⟩
  have hfull := (slipPosixPoke_none_iff (pipeOk_run hr).writer).mp hblocks
  omega

section Full
variable {s : Doorbell} {l : BellLabel}

/-- A poke by whoever owes one. -/
theorem Doorbell.exists_poke (howed : 0 < s.owed) (hlt : s.pipe.bytes < s.pipe.capacity) :
    ∃ l s', l.posts = false ∧ s.step l = some s' ∧ slipPosixPoke s.pipe = some s'.pipe ∧
      s'.owed + 1 = s.owed := by
  have hp : slipPosixPoke s.pipe = some { s.pipe with bytes := s.pipe.bytes + 1 } := if_pos hlt
  by_cases hw : s.workerOwes = true
  · refine ⟨.workerPoke, { s with
      pipe := { s.pipe with bytes := s.pipe.bytes + 1 }, workerOwes := false }, rfl, ?_, hp, ?_⟩
    · simp only [Doorbell.step, hw, if_true, hp, Option.map_some]
    · simp [Doorbell.owed, hw, Nat.add_comm]
  · have hs : 0 < s.senders := by
      simp only [Doorbell.owed, hw] at howed
      simpa using howed
    refine ⟨.senderPoke, { s with
      pipe := { s.pipe with bytes := s.pipe.bytes + 1 }, senders := s.senders - 1 }, rfl, ?_, hp, ?_⟩
    · simp only [Doorbell.step, hs, if_true, hp, Option.map_some]
    · simp only [Doorbell.owed]
      omega

/-- More pokes to come than the pipe has room for: when they come, one of them blocks. -/
theorem Doorbell.crowded_blocks (h : s.PipeOk) (hcrowd : s.pipe.capacity < s.pipe.bytes + s.owed) :
    ∃ tr s', Run bellMachine (fun _ l => l.posts = false) s tr s' ∧ s'.PokeBlocks := by
  induction hk : s.owed generalizing s with
  | zero => exact absurd h.bytes (by omega)
  | succ k ih =>
    by_cases hlt : s.pipe.bytes < s.pipe.capacity
    · obtain ⟨l, s₁, hl, hs₁, hp, ho⟩ := Doorbell.exists_poke (by omega) hlt
      obtain ⟨-, heq⟩ := slipPosixPoke_some h.writer hp
      have hcrowd₁ : s₁.pipe.capacity < s₁.pipe.bytes + s₁.owed := by
        rw [heq]
        dsimp only
        omega
      obtain ⟨tr, s', hr, hb⟩ := ih (h.moves (Doorbell.step_moves hs₁)) hcrowd₁ (by omega)
      exact ⟨_, s', hr.cons hl hs₁, hb⟩
    · refine ⟨[], s, .start, by omega, ?_⟩
      exact (slipPosixPoke_none_iff h.writer).mpr (Nat.le_of_not_lt hlt)

/-- The condition is exact: after a post that does not meet it, the pokes that are due block. -/
theorem crowded_post_blocks {n capacity : ℕ} {e : UInt32} {holds : 0 < capacity} {tr : List Unit}
    {s s' : Doorbell} (hr : Run bellMachine (fun _ _ => True) (setupBell n e capacity holds) tr s)
    (hs : s.step l = some s') (hc : ¬ s.RoomToPoke l) :
    ∃ tr' s'', Run bellMachine (fun _ l => l.posts = false) s' tr' s'' ∧ s''.PokeBlocks := by
  have hok := pipeOk_run hr
  have hm := Doorbell.step_moves hs
  have hl : l.posts = true := by
    cases l with
    | workerPost op res reads | senderEmit u res reads => rfl
    | _ => exact absurd trivial hc
  rw [hl] at hm
  cases hm with
  | posts hp ho =>
    apply Doorbell.crowded_blocks (hok.moves (.posts hp ho))
    have hle : ¬ s.pipe.bytes + s.owed < s.pipe.capacity := by
      intro hlt
      apply hc
      cases l with
      | workerPost op res reads | senderEmit u res reads => exact hlt
      | _ => trivial
    rw [hp, ho]
    omega

/-- `k` messages of another ring, none of them drained. -/
theorem fill_pipe (n : ℕ) (e : UInt32) {capacity : ℕ} (holds : 0 < capacity) (k : ℕ)
    (hk : k ≤ capacity) :
    ∃ tr s, Run bellMachine (fun _ _ => True) (setupBell n e capacity holds) tr s ∧
      s.pipe.bytes = k ∧ s.pipe.capacity = capacity ∧ s.pc = .away ∧ s.senders = 0 := by
  induction k with
  | zero => exact ⟨[], _, .start, rfl, rfl, rfl, rfl⟩
  | succ k ih =>
    obtain ⟨tr, s, hr, hbytes, hcap, hpc, hsend⟩ := ih (Nat.le_of_succ_le hk)
    have hlt : s.pipe.bytes < s.pipe.capacity := by omega
    have hp : slipPosixPoke s.pipe = some { s.pipe with bytes := s.pipe.bytes + 1 } := if_pos hlt
    have hemit := hr.next (l := .senderEmit 0 0 []) trivial rfl
    have hpoke : bellMachine.step
        { s with vault := s.vault.slipEngineEmit 0 0 0 [], senders := s.senders + 1 } .senderPoke =
        some { s with
          vault := s.vault.slipEngineEmit 0 0 0 []
          pipe := { s.pipe with bytes := s.pipe.bytes + 1 } } := by
      simp only [bellMachine, Doorbell.step, Nat.succ_pos, if_true, hp, Option.map_some,
        Nat.add_sub_cancel]
    have hnext := hemit.next (l := .senderPoke) trivial hpoke
    exact ⟨_, _, hnext, congrArg (· + 1) hbytes, hcap, hpc, hsend⟩

end Full

/-- A target that submits without waiting, on Linux's pipe of 64 KiB: after 65536 messages the next
sender hangs in its own enter. -/
theorem sender_hangs_on_full_pipe : ∃ tr s, Run bellMachine (fun _ _ => True)
    (setupBell 8 8 65536 (by decide)) tr s ∧ s.pc = .away ∧ s.PokeBlocks := by
  obtain ⟨tr, s, hr, hbytes, hcap, hpc, hsend⟩ := fill_pipe 8 8 (by decide : 0 < 65536) 65536
    (Nat.le_refl _)
  have hok := pipeOk_run hr
  have hemit := hr.next (l := .senderEmit 0 0 []) trivial rfl
  refine ⟨_, _, hemit, hpc, ?_, ?_⟩
  · exact Nat.lt_of_lt_of_le (Nat.succ_pos _) (Nat.le_add_left _ _)
  · apply (slipPosixPoke_none_iff hok.writer).mpr
    omega

/-- A completion of the worker and a message, each poked, in a pipe for two. -/
theorem pokes_never_block_two : ∃ tr s, Run bellMachine Doorbell.RoomToPoke
    (setupBell 2 4 2 (by decide)) tr s ∧ s.pipe.bytes = 2 ∧ ¬ s.PokeBlocks := by
  obtain ⟨tr, s, hr, hbytes⟩ := Run.of_exec bellMachine Doorbell.RoomToPoke
    (setupBell 2 4 2 (by decide)) (fun _ s => s.pipe.bytes = 2)
    [.workerPost 1 0 [], .senderEmit 7 0 [], .workerPoke, .senderPoke] (by decide +kernel)
  exact ⟨tr, s, hr, hbytes, pokes_never_block hr⟩

end SlipstreamIO.Engine
