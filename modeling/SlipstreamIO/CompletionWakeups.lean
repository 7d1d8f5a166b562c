import SlipstreamIO.CtlPipe
import SlipstreamIO.WrappingRing

/-! A sleep over completions that are there is rung out of: the counts are loaded before the sleep, and
whoever posts after a load has its poke still to come or in the pipe. -/
namespace SlipstreamIO.Engine

open Runs

/-- CQEs the caller takes off only lower the count. -/
theorem Vault.callerReads_avail_le (v : Vault) (k : ℕ) : (v.callerReads k).cqAvail ≤ v.cqAvail := by
  rw [UInt32.le_iff_toNat_le]
  have hread := WrappingRing.avail_read (Nat.min_le_right k v.cqAvail.toNat)
  calc
    (v.callerReads k).cqAvail.toNat = v.cqAvail.toNat - min k v.cqAvail.toNat := hread
    _ ≤ v.cqAvail.toNat := Nat.sub_le _ _

namespace Doorbell

/-- A byte is in the pipe, or a poke is still to come. -/
def Rung (s : Doorbell) : Prop := 0 < s.pipe.bytes ∨ 0 < s.owed

/-- What enter has loaded is still right, or too much, or else the bell rings. -/
def Heard (s : Doorbell) : Prop :=
  match s.pc with
  | .away | .awake _ | .draining _ => True
  | .tailSeen _ tail => s.vault.cq.tail = tail ∨ s.Rung
  | .headSeen _ head => s.vault.cqAvail ≤ s.vault.cq.tail - head ∨ s.Rung
  | .counted _ avail => s.vault.cqAvail ≤ avail ∨ s.Rung
  | .asleep min avail => avail < min ∧ (s.vault.cqAvail ≤ avail ∨ s.Rung)

variable {s s' : Doorbell} {l : BellLabel}

theorem Heard.rung (hr : s.Rung) (hsleep : ∀ m a, s.pc = .asleep m a → a < m) : s.Heard := by
  unfold Heard
  split
  · trivial
  · trivial
  · trivial
  · exact .inr hr
  · exact .inr hr
  · exact .inr hr
  · next m a hpc => exact ⟨hsleep m a hpc, .inr hr⟩

theorem Heard.asleep_lt (h : s.Heard) (m a : UInt32) (hpc : s.pc = .asleep m a) : a < m := by
  unfold Heard at h
  rw [hpc] at h
  exact h.1

/-- A step that leaves the vault and the place of enter alone, and the bell rung if it was. -/
theorem Heard.quiet (h : s.Heard) (hv : s'.vault = s.vault) (hpc : s'.pc = s.pc)
    (hr : s.Rung → s'.Rung) : s'.Heard := by
  unfold Heard at h ⊢
  rw [hv, hpc]
  split at h
  · trivial
  · trivial
  · trivial
  · exact h.imp_right hr
  · exact h.imp_right hr
  · exact h.imp_right hr
  · exact ⟨h.1, h.2.imp_right hr⟩

theorem Heard.read (h : s.Heard) (k : ℕ) : Heard { s with vault := s.vault.callerReads k } := by
  have hle := s.vault.callerReads_avail_le k
  unfold Heard at h ⊢
  dsimp only
  split at h
  · trivial
  · trivial
  · trivial
  · exact h
  · exact h.imp_left (UInt32.le_trans hle)
  · exact h.imp_left (UInt32.le_trans hle)
  · exact ⟨h.1, h.2.imp_left (UInt32.le_trans hle)⟩

/-- A post makes its poke due. -/
theorem Heard.posts {v : Vault} {w : Bool} {n : ℕ} (h : s.Heard) (howed : w = true ∨ 0 < n) :
    Heard { s with vault := v, workerOwes := w, senders := n } := by
  apply Heard.rung
  · right
    unfold owed
    obtain hw | hn := howed
    · simp [hw, Nat.add_comm]
    · exact Nat.lt_of_lt_of_le hn (Nat.le_add_left _ _)
  · exact h.asleep_lt

/-- A poke leaves a byte. -/
theorem poke_bytes {p p' : Pipe} (hw : p.writeNonblock = false) (hp : slipPosixPoke p = some p') :
    0 < p'.bytes := by
  obtain ⟨-, rfl⟩ := slipPosixPoke_some hw hp
  exact Nat.succ_pos _

/-- Nobody gives up a poke unless the pipe is full. -/
theorem full_bytes {p : Pipe} (hw : p.writeNonblock = false) (hp : slipPosixPoke p = none) :
    0 < p.bytes :=
  Nat.lt_of_lt_of_le p.holds ((slipPosixPoke_none_iff hw).mp hp)

theorem Heard.step (hok : s.PipeOk) (h : s.Heard) (hs : s.step l = some s') : s'.Heard := by
  cases l with
  | enter m | own v | leave | wake reported =>
    simp only [Doorbell.step] at hs
    repeat' split at hs
    all_goals cases hs
    all_goals simp [Heard, *]
  | drain =>
    simp only [Doorbell.step] at hs
    split at hs
    · obtain ⟨⟨got, p⟩, hp, rfl⟩ := Option.map_eq_some_iff.mp hs
      unfold Heard
      split <;> first | trivial | next hpc => split at hpc <;> cases hpc
    · cases hs
  | loadTail =>
    simp only [Doorbell.step, loadTail] at hs
    split at hs <;> cases hs
    · exact .inl rfl
    · next m head hpc =>
      unfold Heard at h
      rw [hpc] at h
      exact h
  | loadHead =>
    simp only [Doorbell.step, loadHead] at hs
    split at hs <;> cases hs
    · exact .inl (UInt32.le_refl _)
    · next m tail hpc =>
      unfold Heard at h
      rw [hpc] at h
      obtain htail | hr := h
      · left
        rw [← htail]
        exact UInt32.le_refl _
      · exact .inr hr
  | compare =>
    simp only [Doorbell.step] at hs
    split at hs <;> cases hs
    next m a hpc =>
    unfold Heard at h ⊢
    rw [hpc] at h
    by_cases hlt : a < m
    · simp only [hlt, if_true]
      exact ⟨trivial, h⟩
    · simp only [hlt, if_false]
  | workerPost op res reads =>
    simp only [Doorbell.step] at hs
    split at hs <;> cases hs
    exact h.posts (.inl rfl)
  | senderEmit u res reads =>
    cases hs
    exact h.posts (.inr (Nat.succ_pos _))
  | workerPoke | senderPoke =>
    simp only [Doorbell.step] at hs
    split at hs
    · obtain ⟨p, hp, rfl⟩ := Option.map_eq_some_iff.mp hs
      exact h.quiet rfl rfl fun _ => .inl (poke_bytes hok.writer hp)
    · cases hs
  | interrupted worker =>
    simp only [Doorbell.step] at hs
    split at hs
    · cases hs
    next hnone =>
    have hfull : slipPosixPoke s.pipe = none := by simpa using hnone
    have hrung : 0 < s.pipe.bytes := full_bytes hok.writer hfull
    repeat' split at hs
    all_goals cases hs
    all_goals exact h.quiet rfl rfl fun _ => .inl hrung
  | read k =>
    cases hs
    exact h.read k

end Doorbell

/-- Asleep over as many CQEs as it waits for, enter has a byte in its pipe, or a poster has still to
poke. -/
theorem no_completion_wakeup_lost {n capacity : ℕ} {e : UInt32} {holds : 0 < capacity} {tr : List Unit}
    {s : Doorbell} {m a : UInt32}
    (hr : Run bellMachine (fun _ _ => True) (setupBell n e capacity holds) tr s)
    (hasleep : s.pc = .asleep m a) :
    s.vault.cqAvail < m ∨ 0 < s.pipe.bytes ∨ 0 < s.owed := by
  have hheard : s.Heard := by
    refine hr.invariant (fun _ s => s.Heard) trivial ?_
    intro tr s l s' hr h _ hs
    exact h.step (pipeOk_run hr) hs
  unfold Doorbell.Heard at hheard
  rw [hasleep] at hheard
  obtain ⟨hlt, hle | hrung⟩ := hheard
  · exact .inl (UInt32.lt_of_le_of_lt hle hlt)
  · exact .inr hrung

/-- A completion between the loads of the two counters: asleep for one with one there, and the worker
has still to poke. -/
theorem no_completion_wakeup_lost_one : ∃ tr s, Run bellMachine (fun _ _ => True)
    (setupBell 2 4 2 (by decide)) tr s ∧ s.pc = .asleep 1 0 ∧ s.vault.cqAvail = 1 ∧
      (s.vault.cqAvail < 1 ∨ 0 < s.pipe.bytes ∨ 0 < s.owed) := by
  obtain ⟨tr, s, hr, hpc, havail⟩ := Run.of_exec bellMachine (fun _ _ => True)
    (setupBell 2 4 2 (by decide)) (fun _ s => s.pc = .asleep 1 0 ∧ s.vault.cqAvail = 1)
    [.enter 1, .loadTail, .workerPost 1 0 [], .loadHead, .compare] (by decide +kernel)
  exact ⟨tr, s, hr, hpc, havail, no_completion_wakeup_lost hr hpc⟩

end SlipstreamIO.Engine
