import Mathlib.Algebra.GroupWithZero.Nat
import Mathlib.Data.List.Basic
import Mathlib.Algebra.BigOperators.Group.List.Basic
import Mathlib.Tactic.Common

/-! Items written one behind the other, each so that it can be read off the front again, and the
longest prefix of them that fits. -/
namespace SlipstreamIO.Framing

variable {α β : Type*}

/-- `front` reads one item off the front of a stream. An item meant for the stream comes back as it
was, whatever follows it. -/
structure Frames (α β : Type*) where
  bytes : α → List β
  front : List β → Option (α × List β)
  Meant : α → Prop
  front_nil : front [] = none
  front_bytes : ∀ a rest, Meant a → front (bytes a ++ rest) = some (a, rest)

namespace Frames
variable (F : Frames α β)

def stream (as : List α) : List β := as.flatMap F.bytes

/-- The items of a stream, at most `fuel`; reading stops where no item begins. -/
def parse : ℕ → List β → List α
  | 0, _ => []
  | fuel + 1, bs =>
    match F.front bs with
    | none => []
    | some (a, rest) => a :: parse fuel rest

/-- A stream is longer than it has items, so its length is fuel enough. -/
def parseAll (bs : List β) : List α := F.parse bs.length bs

variable {F} {a : α} {as bs : List α}

theorem stream_cons : F.stream (a :: as) = F.bytes a ++ F.stream as := List.flatMap_cons

theorem stream_append : F.stream (as ++ bs) = F.stream as ++ F.stream bs := List.flatMap_append

theorem bytes_ne_nil (h : F.Meant a) : F.bytes a ≠ [] := by
  intro he
  have hfront := F.front_bytes a [] h
  rw [he, List.append_nil, F.front_nil] at hfront
  cases hfront

theorem length_le_stream (h : ∀ a ∈ as, F.Meant a) : as.length ≤ (F.stream as).length := by
  induction as with
  | nil => exact Nat.le_refl _
  | cons a as ih =>
    have ha := List.length_pos_of_ne_nil (bytes_ne_nil (h a List.mem_cons_self))
    have hrest := ih fun x hx => h x (List.mem_cons_of_mem a hx)
    rw [stream_cons, List.length_append, List.length_cons]
    omega

theorem parse_stream (h : ∀ a ∈ as, F.Meant a) {fuel : ℕ} (hf : as.length ≤ fuel) :
    F.parse fuel (F.stream as) = as := by
  induction as generalizing fuel with
  | nil =>
    cases fuel with
    | zero => rfl
    | succ fuel =>
      rw [parse, show F.stream [] = [] from rfl, F.front_nil]
  | cons a as ih =>
    cases fuel with
    | zero => simp at hf
    | succ fuel =>
      rw [stream_cons, parse, F.front_bytes a _ (h a List.mem_cons_self)]
      have hrest := ih (fun x hx => h x (List.mem_cons_of_mem a hx)) (Nat.le_of_succ_le_succ hf)
      exact congrArg (a :: ·) hrest

/-- Reading back what was written. -/
theorem parseAll_stream (h : ∀ a ∈ as, F.Meant a) : F.parseAll (F.stream as) = as :=
  parse_stream h (length_le_stream h)

end Frames

section Fit
variable {size : α → ℕ} {n : ℕ} {as p : List α}

/-- The longest prefix whose sizes come to at most `n`. -/
def fit (size : α → ℕ) : ℕ → List α → List α
  | _, [] => []
  | n, a :: as => if size a ≤ n then a :: fit size (n - size a) as else []

theorem fit_prefix : fit size n as <+: as := by
  induction as generalizing n with
  | nil => exact List.prefix_refl _
  | cons a as ih =>
    unfold fit
    split
    · exact List.cons_prefix_cons.mpr ⟨rfl, ih⟩
    · exact List.nil_prefix

theorem fit_sum_le : ((fit size n as).map size).sum ≤ n := by
  induction as generalizing n with
  | nil => exact Nat.zero_le n
  | cons a as ih =>
    unfold fit
    split
    · next h =>
      have hrest := @ih (n - size a)
      rw [List.map_cons, List.sum_cons]
      omega
    · exact Nat.zero_le n

/-- No longer prefix fits. -/
theorem prefix_fit (hp : p <+: as) (hs : (p.map size).sum ≤ n) : p <+: fit size n as := by
  induction as generalizing n p with
  | nil => exact hp
  | cons a as ih =>
    cases p with
    | nil => exact List.nil_prefix
    | cons b p =>
      obtain ⟨hba, htail⟩ := List.cons_prefix_cons.mp hp
      rw [List.map_cons, List.sum_cons, hba] at hs
      rw [fit, if_pos (by omega)]
      exact List.cons_prefix_cons.mpr ⟨hba, ih htail (by omega)⟩

theorem fit_eq_nil_iff {a : α} : fit size n (a :: as) = [] ↔ n < size a := by
  unfold fit
  split
  · next h => simp [Nat.not_lt.mpr h]
  · next h => simp [Nat.lt_of_not_le h]

end Fit

end SlipstreamIO.Framing
