import SlipstreamIO.CompletionWakeups
import SlipstreamIO.Enter

/-! The look of enter at the CQ, at the grain of its loads: `cq->tail` and `cq->head` are read without the
lock, then compared with `min_complete`, and only then does enter go into the backend's wait. -/
namespace SlipstreamIO.Engine

open Runs

/-- What enter has of the CQ since it came to its check; `short` once it has too few and goes to sleep. -/
inductive Loads where
  | none
  | tail (t : UInt32)
  | head (h : UInt32)
  | avail (a : UInt32)
  | short (forever : Bool)
  deriving DecidableEq

structure Looking where
  core : Core
  loads : Loads := .none

inductive LookLabel where
  | loadTail
  | loadHead
  | compare (left : ℤ)
  | sleep
  | other (l : CoreLabel)

namespace Looking

/-- The two loads come in either order. -/
def loadTail (s : Looking) : Option Looking :=
  match s.core.pc, s.loads with
  | .check _, .none => some { s with loads := .tail s.core.ring.cq.tail }
  | .check _, .head h => some { s with loads := .avail (s.core.ring.cq.tail - h) }
  | _, _ => none

def loadHead (s : Looking) : Option Looking :=
  match s.core.pc, s.loads with
  | .check _, .none => some { s with loads := .head s.core.ring.cq.head }
  | .check _, .tail t => some { s with loads := .avail (t - s.core.ring.cq.head) }
  | _, _ => none

def goto (s : Looking) (pc : Pc) : Looking := { core := { s.core with pc := pc } }

/-- `left` is the time to the deadline in milliseconds. -/
def compare (s : Looking) (left : ℤ) : Option Looking :=
  match s.core.pc, s.loads with
  | .check f, .avail a =>
    if f.call.minComplete ≤ a then some (s.goto (.out (some (Int32.ofNat f.submitted))))
    else if f.call.hasDeadline then
      if f.looped || left ≤ 0 then some (s.goto (.out (some (-etime))))
      else some { s with loads := .short false }
    else some { s with loads := .short true }
  | _, _ => none

def sleep (s : Looking) : Option Looking :=
  match s.core.pc, s.loads with
  | .check f, .short forever => some (s.goto (.wait f forever []))
  | _, _ => none

def step (s : Looking) : LookLabel → Option Looking
  | .loadTail => s.loadTail
  | .loadHead => s.loadHead
  | .compare left => s.compare left
  | .sleep => s.sleep
  | .other l =>
    match l with
    | .check _ => none
    | l => (s.core.step l).map fun core => { s with core }

def events (s : Looking) : LookLabel → List Event
  | .other l => s.core.events l
  | _ => []

end Looking

def lookMachine : Machine Looking LookLabel Event := ⟨Looking.step, Looking.events⟩

/-- The backend keeps its contract. -/
def LookKeeps (s : Looking) : LookLabel → Prop
  | .other l => Keeps s.core l
  | _ => True

/-- The contract as a check. -/
def lookKeepsCheck (s : Looking) : LookLabel → Bool
  | .other l => keepsCheck s.core l
  | _ => true

theorem lookKeeps_of_check {s : Looking} {l : LookLabel} (h : lookKeepsCheck s l = true) : LookKeeps s l := by
  cases l with
  | other l => exact keeps_of_check h
  | _ => trivial

/-- Another thread posts on the CQ. -/
def CoreLabel.postsAside : CoreLabel → Bool
  | .offPost .. | .emit .. => true
  | _ => false

/-- No other thread posts on the CQ from the first load of its cursors on to the return or the sleep. -/
def LooksUndisturbed (s : Looking) : LookLabel → Prop
  | .other l => s.loads = .none ∨ l.postsAside = false
  | _ => True

instance (s : Looking) (l : LookLabel) : Decidable (LooksUndisturbed s l) :=
  match l with
  | .other l => inferInstanceAs (Decidable (s.loads = .none ∨ l.postsAside = false))
  | .loadTail | .loadHead | .compare _ | .sleep => isTrue trivial

section Look
variable {s s' : Looking} {c c' : Core} {l : CoreLabel} {f : Frame}

/-- Undisturbed, the loads and what follows them are one check. -/
theorem look_is_check (hpc : c.pc = .check f) (left : ℤ) :
    ∃ s₁ s₂ s₃, Looking.step { core := c } .loadTail = some s₁ ∧ s₁.step .loadHead = some s₂ ∧
      s₂.step (.compare left) = some s₃ ∧
      ((s₃.loads = .none ∧ c.check left = some s₃.core) ∨
        ∃ s₄, s₃.step .sleep = some s₄ ∧ s₄.loads = .none ∧ c.check left = some s₄.core) := by
  have htail : Looking.step { core := c } .loadTail = some { core := c, loads := .tail c.ring.cq.tail } := by
    simp only [Looking.step, Looking.loadTail, hpc]
  have hhead : Looking.step { core := c, loads := .tail c.ring.cq.tail } .loadHead =
      some { core := c, loads := .avail c.ring.cqAvail } := by
    simp only [Looking.step, Looking.loadHead, hpc]
    rfl
  have hcompare (left : ℤ) : Looking.step { core := c, loads := .avail c.ring.cqAvail } (.compare left) =
      if f.call.minComplete ≤ c.ring.cqAvail then
        some { core := { c with pc := .out (some (Int32.ofNat f.submitted)) } }
      else if f.call.hasDeadline then
        if f.looped || left ≤ 0 then some { core := { c with pc := .out (some (-etime)) } }
        else some { core := c, loads := .short false }
      else some { core := c, loads := .short true } := by
    simp only [Looking.step, Looking.compare, Looking.goto, hpc]
  have hsleep (forever : Bool) : Looking.step { core := c, loads := .short forever } .sleep =
      some { core := { c with pc := .wait f forever [] } } := by
    simp only [Looking.step, Looking.sleep, Looking.goto, hpc]
  by_cases hmin : f.call.minComplete ≤ c.ring.cqAvail
  · refine ⟨_, _, _, htail, hhead, (hcompare left).trans (if_pos hmin), .inl ⟨rfl, ?_⟩⟩
    simp only [Core.check, hpc, if_pos hmin]
  have hcompare := hcompare left
  rw [if_neg hmin] at hcompare
  cases hdeadline : f.call.hasDeadline with
  | false =>
    simp only [hdeadline, Bool.false_eq_true, if_false] at hcompare
    refine ⟨_, _, _, htail, hhead, hcompare, .inr ⟨_, hsleep true, rfl, ?_⟩⟩
    simp [Core.check, hpc, hmin, hdeadline]
  | true =>
    simp only [hdeadline, if_true] at hcompare
    by_cases hlate : (f.looped || decide (left ≤ 0)) = true
    · refine ⟨_, _, _, htail, hhead, hcompare.trans (if_pos hlate), .inl ⟨rfl, ?_⟩⟩
      simp only [Core.check, hpc, if_neg hmin, hdeadline, if_true, if_pos hlate]
    · refine ⟨_, _, _, htail, hhead, hcompare.trans (if_neg hlate), .inr ⟨_, hsleep false, rfl, ?_⟩⟩
      simp only [Core.check, hpc, if_neg hmin, hdeadline, if_true, if_neg hlate]

/-- At its check enter itself does nothing else: what happens is another thread's, and leaves the CQ's tail
alone unless it posts. -/
theorem aside_step (hpc : c.pc = .check f) (hk : Keeps c l) (hl : ∀ left, l ≠ .check left)
    (hs : c.step l = some c') : c'.pc = c.pc ∧
      (l.postsAside = false → c'.ring.cq.tail = c.ring.cq.tail ∧ c'.ring.cqAvail ≤ c.ring.cqAvail) := by
  cases l with
  | check left => exact absurd rfl (hl left)
  | write r =>
    cases hs
    refine ⟨rfl, fun _ => ⟨by rw [hk.cq], ?_⟩⟩
    simp only [Vault.cqAvail, hk.cq]
    exact UInt32.le_refl _
  | read k =>
    cases hs
    exact ⟨rfl, fun _ => ⟨rfl, Vault.callerReads_avail_le _ k⟩⟩
  | offFinish op res ticket =>
    cases hs
    cases ticket
    all_goals exact ⟨rfl, fun _ => ⟨rfl, UInt32.le_refl _⟩⟩
  | offPost op reads =>
    refine ⟨?_, fun h => by cases h⟩
    simp only [Core.step, Core.offPost] at hs
    split at hs <;> cases hs
    rfl
  | emit u res fl reads =>
    cases hs
    exact ⟨rfl, fun h => by cases h⟩
  | _ =>
    simp [Core.step, Core.takeSqe, Core.append, Core.queueStep, Core.post, Core.settle, Core.complete,
      Core.execDone, Core.execTake, Core.execPending, Core.cancelHeld, Core.cancelQueued, Core.handBack,
      Core.waitReturn, Core.waitFail, hpc] at hs

/-- Any other step is one of the core's. -/
theorem other_step (hs : s.step (.other l) = some s') :
    (∀ left, l ≠ .check left) ∧ s'.loads = s.loads ∧ s.core.step l = some s'.core := by
  have hl : ∀ left, l ≠ .check left := by
    rintro left rfl
    cases hs
  simp only [Looking.step] at hs
  obtain ⟨core, hcore, rfl⟩ := Option.map_eq_some_iff.mp hs
  exact ⟨hl, rfl, hcore⟩

/-- What is loaded is right or too much, and what enter goes to sleep for is not there. -/
def Loads.Right (loads : Loads) (c : Core) (f : Frame) : Prop :=
  match loads with
  | .none => True
  | .tail t => c.ring.cq.tail = t
  | .head h => c.ring.cqAvail ≤ c.ring.cq.tail - h
  | .avail a => c.ring.cqAvail ≤ a
  | .short _ => c.ring.cqAvail < f.call.minComplete

theorem Loads.Right.mono {loads : Loads} (h : loads.Right c f) (htail : c'.ring.cq.tail = c.ring.cq.tail)
    (hle : c'.ring.cqAvail ≤ c.ring.cqAvail) : loads.Right c' f := by
  cases loads with
  | none => trivial
  | tail t => exact htail.trans h
  | head head =>
    show c'.ring.cqAvail ≤ c'.ring.cq.tail - head
    rw [htail]
    exact UInt32.le_trans hle h
  | avail a => exact UInt32.le_trans hle h
  | short forever => exact UInt32.lt_of_le_of_lt hle h

def Looking.Sees (s : Looking) : Prop :=
  s.loads = .none ∨ ∃ f, s.core.pc = .check f ∧ s.loads.Right s.core f

theorem Looking.Sees.aside (h : s.Sees) (hl : ∀ left, l ≠ .check left) (hk : Keeps s.core l)
    (hq : s.loads = .none ∨ l.postsAside = false) (hs : s.core.step l = some c) :
    Sees { s with core := c } := by
  rcases h with hnone | ⟨f, hpc, hright⟩
  · exact .inl hnone
  rcases hq with hnone | hquiet
  · exact .inl hnone
  obtain ⟨hpc', hstays⟩ := aside_step hpc hk hl hs
  obtain ⟨htail, hle⟩ := hstays hquiet
  exact .inr ⟨f, hpc'.trans hpc, hright.mono htail hle⟩

/-- What was loaded, in front of the next load or the comparison. -/
theorem Looking.Sees.right (h : s.Sees) (hpc : s.core.pc = .check f) : s.loads.Right s.core f := by
  rcases h with hnone | ⟨g, hpc', hright⟩
  · rw [hnone]
    trivial
  · cases hpc.symm.trans hpc'
    exact hright

theorem Looking.Sees.step {l : LookLabel} (h : s.Sees) (hk : LookKeeps s l) (hq : LooksUndisturbed s l)
    (hs : s.step l = some s') : s'.Sees := by
  cases l with
  | loadTail =>
    simp only [Looking.step, Looking.loadTail] at hs
    split at hs <;> cases hs
    · next f hpc hloads => exact .inr ⟨f, hpc, rfl⟩
    · next f head hpc hloads =>
      have hright := h.right hpc
      rw [hloads] at hright
      exact .inr ⟨f, hpc, hright⟩
  | loadHead =>
    simp only [Looking.step, Looking.loadHead] at hs
    split at hs <;> cases hs
    · next f hpc hloads => exact .inr ⟨f, hpc, UInt32.le_refl _⟩
    · next f tail hpc hloads =>
      have hright := h.right hpc
      rw [hloads] at hright
      have htail : s.core.ring.cq.tail = tail := hright
      refine .inr ⟨f, hpc, ?_⟩
      rw [← htail]
      exact UInt32.le_refl s.core.ring.cqAvail
  | compare left =>
    simp only [Looking.step, Looking.compare] at hs
    split at hs
    · next f a hpc hloads =>
      have hright := h.right hpc
      rw [hloads] at hright
      split at hs
      · cases hs
        exact .inl rfl
      · next hfew =>
        have hshort : s.core.ring.cqAvail < f.call.minComplete :=
          UInt32.lt_of_le_of_lt hright (UInt32.not_le.mp hfew)
        (repeat' split at hs) <;> cases hs
        · exact .inl rfl
        · exact .inr ⟨f, hpc, hshort⟩
        · exact .inr ⟨f, hpc, hshort⟩
    · cases hs
  | sleep =>
    simp only [Looking.step, Looking.sleep] at hs
    split at hs <;> cases hs
    exact .inl rfl
  | other l =>
    obtain ⟨hl, hloads, hcore⟩ := other_step hs
    have heq : s' = { s with core := s'.core } := by rw [← hloads]
    rw [heq]
    exact h.aside hl hk hq hcore

end Look

end SlipstreamIO.Engine
