import Mathlib.Data.List.Basic
import Mathlib.Logic.Function.Basic
import Mathlib.Tactic.Common

/-! Things a system hands out under names that it uses again: which thing a name stands for by now, and
how often each thing was closed. -/
namespace SlipstreamIO

/-- The things are numbered as they are made. -/
structure Descriptors (ν : Type*) where
  names : ν → Option ℕ := fun _ => none
  made : ℕ := 0
  closes : ℕ → ℕ := fun _ => 0

namespace Descriptors
variable {ν : Type*} [DecidableEq ν] (d : Descriptors ν)

def make (fd : ν) : Descriptors ν :=
  { d with names := Function.update d.names fd (some d.made), made := d.made + 1 }

def close (fd : ν) : Descriptors ν :=
  { d with
    names := Function.update d.names fd none
    closes := fun i => if d.names fd = some i then d.closes i + 1 else d.closes i }

def closeAll (l : List ν) : Descriptors ν := l.foldl close d

/-- The name is given up by somebody else. -/
def lose (fd : ν) : Descriptors ν := { d with names := Function.update d.names fd none }

/-- No thing has two names, and what has a name is not closed. -/
structure Sound : Prop where
  one : ∀ a b i, d.names a = some i → d.names b = some i → a = b
  unclosed : ∀ a i, d.names a = some i → i < d.made ∧ d.closes i = 0
  once : ∀ i, d.closes i ≤ 1
  unborn : ∀ i, d.made ≤ i → d.closes i = 0

variable {d} {fd : ν} {l : List ν} {i : ℕ}

theorem close_closes : (d.close fd).closes i =
    if d.names fd = some i then d.closes i + 1 else d.closes i := rfl

theorem Sound.make (h : d.Sound) (fd : ν) : (d.make fd).Sound where
  one a b i ha hb := by
    simp only [Descriptors.make, Function.update_apply] at ha hb
    split at ha <;> split at hb
    · next hafd hbfd => rw [hafd, hbfd]
    · have hlt := (h.unclosed b i hb).1
      cases ha
      omega
    · have hlt := (h.unclosed a i ha).1
      cases hb
      omega
    · exact h.one a b i ha hb
  unclosed a i ha := by
    simp only [Descriptors.make, Function.update_apply] at ha ⊢
    split at ha
    · cases ha
      exact ⟨Nat.lt_succ_self _, h.unborn _ (Nat.le_refl _)⟩
    · exact ⟨Nat.lt_succ_of_lt (h.unclosed a i ha).1, (h.unclosed a i ha).2⟩
  once := h.once
  unborn i hi := h.unborn i (Nat.le_of_succ_le hi)

theorem make_names_ne {a : ν} (hne : a ≠ fd) : (d.make fd).names a = d.names a :=
  Function.update_of_ne hne _ _

theorem make_names (d : Descriptors ν) (fd : ν) : (d.make fd).names fd = some d.made :=
  Function.update_self _ _ _

theorem lose_names_ne {a : ν} (hne : a ≠ fd) : (d.lose fd).names a = d.names a :=
  Function.update_of_ne hne _ _

theorem close_names_ne {a : ν} (hne : a ≠ fd) : (d.close fd).names a = d.names a :=
  Function.update_of_ne hne _ _

theorem close_names (d : Descriptors ν) (fd : ν) : (d.close fd).names fd = none :=
  Function.update_self _ _ _

theorem Sound.close (h : d.Sound) (fd : ν) : (d.close fd).Sound where
  one a b i ha hb := by
    by_cases hafd : a = fd
    · rw [hafd, close_names] at ha
      cases ha
    by_cases hbfd : b = fd
    · rw [hbfd, close_names] at hb
      cases hb
    rw [close_names_ne hafd] at ha
    rw [close_names_ne hbfd] at hb
    exact h.one a b i ha hb
  unclosed a i ha := by
    by_cases hafd : a = fd
    · rw [hafd, close_names] at ha
      cases ha
    rw [close_names_ne hafd] at ha
    refine ⟨(h.unclosed a i ha).1, ?_⟩
    rw [close_closes, if_neg (fun hfd => hafd (h.one a fd i ha hfd))]
    exact (h.unclosed a i ha).2
  once i := by
    simp only [Descriptors.close]
    split
    · next hfd => exact Nat.le_of_eq (by rw [(h.unclosed fd i hfd).2])
    · exact h.once i
  unborn i hi := by
    simp only [Descriptors.close]
    split
    · next hfd =>
      have hlt := (h.unclosed fd i hfd).1
      have hi : d.made ≤ i := hi
      omega
    · exact h.unborn i hi

theorem Sound.lose (h : d.Sound) (fd : ν) : (d.lose fd).Sound where
  one a b i ha hb := by
    simp only [Descriptors.lose, Function.update_apply] at ha hb
    split at ha
    · cases ha
    split at hb
    · cases hb
    exact h.one a b i ha hb
  unclosed a i ha := by
    simp only [Descriptors.lose, Function.update_apply] at ha
    split at ha
    · cases ha
    exact h.unclosed a i ha
  once := h.once
  unborn := h.unborn

theorem Sound.closeAll (h : d.Sound) (l : List ν) : (d.closeAll l).Sound := by
  induction l generalizing d with
  | nil => exact h
  | cons fd l ih => exact ih (h.close fd)

theorem closes_le_close (d : Descriptors ν) (fd : ν) (i : ℕ) : d.closes i ≤ (d.close fd).closes i := by
  simp only [Descriptors.close]
  split <;> omega

theorem closes_le_closeAll (d : Descriptors ν) (l : List ν) (i : ℕ) :
    d.closes i ≤ (d.closeAll l).closes i := by
  induction l generalizing d with
  | nil => exact Nat.le_refl _
  | cons fd l ih => exact Nat.le_trans (closes_le_close d fd i) (ih (d.close fd))

/-- What is closed by its name is closed once. -/
theorem Sound.closes_close (h : d.Sound) (hfd : d.names fd = some i) : (d.close fd).closes i = 1 := by
  rw [close_closes, if_pos hfd, (h.unclosed fd i hfd).2]

/-- Each thing named in the list is closed once, also if its name stands there twice. -/
theorem Sound.closes_closeAll (h : d.Sound) (hl : fd ∈ l) (hfd : d.names fd = some i) :
    (d.closeAll l).closes i = 1 := by
  induction l generalizing d with
  | nil => exact absurd hl List.not_mem_nil
  | cons a l ih =>
    by_cases ha : fd = a
    · have hone := h.closes_close hfd
      have hle := closes_le_closeAll (d.close fd) l i
      have honce := (h.closeAll (a :: l)).once i
      rw [← ha] at honce ⊢
      apply Nat.le_antisymm honce
      rw [← hone]
      exact hle
    · have hl' := (List.mem_cons.mp hl).resolve_left ha
      exact ih (h.close a) hl' ((close_names_ne ha).trans hfd)

omit [DecidableEq ν] in
theorem sound_empty : ({} : Descriptors ν).Sound where
  one _ _ _ ha := by cases ha
  unclosed _ _ ha := by cases ha
  once _ := Nat.zero_le 1
  unborn _ _ := rfl

end Descriptors

end SlipstreamIO
