import Mathlib.Data.UInt
import Mathlib.Data.List.Basic
import Mathlib.Data.Nat.Bitwise
import Mathlib.Tactic.Common

/-! Ring buffers of `2 ^ k` cells between two free-running 32-bit counters. The counters wrap; the
cell of an index is its low `k` bits. -/
namespace SlipstreamIO.WrappingRing

variable {α : Type*} {k : ℕ}

/-- How many cells the reader has still to read. -/
def avail (head tail : UInt32) : ℕ := (tail - head).toNat

/-- The cell of the `i`-th unread index. -/
def cell (k : ℕ) (head : UInt32) (i : ℕ) : ℕ := (head + UInt32.ofNat i).toNat % 2 ^ k

/-- What the reader finds between the counters, in order. -/
def contents (k : ℕ) (cells : ℕ → α) (head tail : UInt32) : List α :=
  (List.range (avail head tail)).map (fun i => cells (cell k head i))

theorem and_mask (hk : k ≤ 31) (i : UInt32) :
    (i &&& (UInt32.ofNat (2 ^ k) - 1)).toNat = i.toNat % 2 ^ k := by
  have hlt : 2 ^ k < 2 ^ 32 := Nat.pow_lt_pow_right (by decide) (by omega)
  have hpos : 0 < 2 ^ k := Nat.two_pow_pos k
  have hmask : (UInt32.ofNat (2 ^ k) - 1).toNat = 2 ^ k - 1 := by
    rw [UInt32.toNat_sub_of_le]
    · rw [UInt32.toNat_ofNat_of_lt' hlt]
      rfl
    · rw [UInt32.le_iff_toNat_le, UInt32.toNat_ofNat_of_lt' hlt]
      exact hpos
  rw [UInt32.toNat_and, hmask, Nat.and_two_pow_sub_one_eq_mod]

theorem cell_eq (hk : k ≤ 31) (head : UInt32) (i : ℕ) :
    cell k head i = (head.toNat + i) % 2 ^ k := by
  have hdvd : 2 ^ k ∣ 2 ^ 32 := Nat.pow_dvd_pow 2 (by omega)
  unfold cell
  rw [UInt32.toNat_add, UInt32.toNat_ofNat', Nat.mod_mod_of_dvd _ hdvd, Nat.add_mod,
    Nat.mod_mod_of_dvd _ hdvd, ← Nat.add_mod]

/-- Fewer than `2 ^ k` indices apart, two indices have different cells. -/
theorem cell_ne (hk : k ≤ 31) (head : UInt32) {i j : ℕ} (hij : i < j) (hj : j < i + 2 ^ k) :
    cell k head i ≠ cell k head j := by
  rw [cell_eq hk, cell_eq hk]
  intro h
  have hm : head.toNat + i ≡ head.toNat + j [MOD 2 ^ k] := h
  have hd := (Nat.modEq_iff_dvd' (by omega)).mp hm
  have hle := Nat.le_of_dvd (by omega) hd
  omega

theorem tail_eq (head tail : UInt32) : tail = head + UInt32.ofNat (avail head tail) := by
  unfold avail
  rw [UInt32.ofNat_toNat, UInt32.add_comm, UInt32.sub_add_cancel]

theorem avail_put (hk : k ≤ 31) {head tail : UInt32} (h : avail head tail < 2 ^ k) :
    avail head (tail + 1) = avail head tail + 1 := by
  have hlt : 2 ^ k ≤ 2 ^ 31 := Nat.pow_le_pow_right (by decide) hk
  unfold avail at *
  have hstep : tail + 1 - head = tail - head + 1 := by
    rw [UInt32.sub_eq_add_neg, UInt32.sub_eq_add_neg, UInt32.add_assoc, UInt32.add_assoc,
      UInt32.add_comm 1]
  rw [hstep, UInt32.toNat_add]
  exact Nat.mod_eq_of_lt (by simp; omega)

theorem avail_read {head tail : UInt32} {m : ℕ} (hm : m ≤ avail head tail) :
    avail (head + UInt32.ofNat m) tail = avail head tail - m := by
  have hlt : avail head tail < 2 ^ 32 := UInt32.toNat_lt _
  have hsub : tail - (head + UInt32.ofNat m) = tail - head - UInt32.ofNat m := by
    simp only [UInt32.sub_eq_add_neg, UInt32.neg_add, UInt32.add_assoc]
  have hmn : (UInt32.ofNat m).toNat = m := UInt32.toNat_ofNat_of_lt' (lt_of_le_of_lt hm hlt)
  rw [avail, hsub, UInt32.toNat_sub_of_le, hmn]
  · rfl
  · rw [UInt32.le_iff_toNat_le, hmn]
    exact hm

theorem avail_pos {head tail : UInt32} (h : head ≠ tail) : 1 ≤ avail head tail := by
  by_contra hzero
  have heq := tail_eq head tail
  rw [show avail head tail = 0 by omega] at heq
  exact h (by simpa using heq.symm)

theorem avail_succ {head tail : UInt32} (h : head ≠ tail) :
    avail (head + 1) tail = avail head tail - 1 := avail_read (avail_pos h)

/-- Storing at the tail puts one more element behind the others and overwrites none of them. -/
theorem contents_put (hk : k ≤ 31) (cells : ℕ → α) {head tail : UInt32} (a : α)
    (h : avail head tail < 2 ^ k) :
    contents k (fun i => if i = tail.toNat % 2 ^ k then a else cells i) head (tail + 1) =
      contents k cells head tail ++ [a] := by
  have htail : tail.toNat % 2 ^ k = cell k head (avail head tail) := by
    rw [cell, ← tail_eq]
  unfold contents
  rw [avail_put hk h, List.range_succ, List.map_append, List.map_singleton]
  simp only [htail, if_true]
  congr 1
  refine List.map_congr_left (fun i hi => if_neg ?_)
  exact cell_ne hk head (List.mem_range.mp hi) (by omega)

/-- Reading takes elements off the front. -/
theorem contents_read (cells : ℕ → α) {head tail : UInt32} {m : ℕ}
    (hm : m ≤ avail head tail) :
    contents k cells head tail = (List.range m).map (fun i => cells (cell k head i)) ++
      contents k cells (head + UInt32.ofNat m) tail := by
  have hsplit : List.range (avail head tail) =
      List.range m ++ (List.range (avail head tail - m)).map (m + ·) := by
    rw [← List.range_add]
    congr 1
    omega
  unfold contents
  rw [avail_read hm, hsplit, List.map_append, List.map_map]
  congr 1
  refine List.map_congr_left (fun i _ => ?_)
  have hcell : cell k head (m + i) = cell k (head + UInt32.ofNat m) i := by
    rw [cell, cell, UInt32.ofNat_add, ← add_assoc]
  rw [Function.comp_apply, hcell]

end SlipstreamIO.WrappingRing
