import Mathlib.Algebra.GroupWithZero.Nat
import Mathlib.Data.Nat.Log

/-! A block cut into parts one after the other, each used from its start; copies into a block; and the
least power of two not below a number. -/
namespace SlipstreamIO.BlockSlices

/-- The bytes from `start` to `stop`, without `stop`. -/
structure Area where
  start : ℕ
  stop : ℕ
  deriving DecidableEq, Repr

namespace Area

def Inside (a b : Area) : Prop := b.start ≤ a.start ∧ a.stop ≤ b.stop

/-- No byte is in both. -/
def Apart (a b : Area) : Prop := ∀ x, ¬ ((a.start ≤ x ∧ x < a.stop) ∧ b.start ≤ x ∧ x < b.stop)

theorem Apart.of_le {a b : Area} (h : a.stop ≤ b.start) : a.Apart b := by
  rintro x ⟨⟨-, ha⟩, hb, -⟩
  omega

end Area

/-- Areas of the first number of bytes each, in parts of the second number of bytes each. -/
def carve (start : ℕ) : List (ℕ × ℕ) → List Area
  | [] => []
  | (used, part) :: rest => ⟨start, start + used⟩ :: carve (start + part) rest

def parts (cuts : List (ℕ × ℕ)) : ℕ := (cuts.map Prod.snd).sum

@[simp] theorem parts_nil : parts [] = 0 := rfl

@[simp] theorem parts_cons (used part : ℕ) (rest : List (ℕ × ℕ)) :
    parts ((used, part) :: rest) = part + parts rest := by
  simp [parts]

section Carve
variable {cuts : List (ℕ × ℕ)}

/-- Each area begins behind the start, and ends before the parts do. -/
theorem carve_inside (h : ∀ c ∈ cuts, c.1 ≤ c.2) (start : ℕ) :
    ∀ a ∈ carve start cuts, a.Inside ⟨start, start + parts cuts⟩ := by
  induction cuts generalizing start with
  | nil =>
    intro a ha
    cases ha
  | cons c rest ih =>
    obtain ⟨used, part⟩ := c
    have hfit : used ≤ part := h _ List.mem_cons_self
    intro a ha
    rw [parts_cons]
    rcases List.mem_cons.mp ha with rfl | ha
    · exact ⟨le_rfl, by simp only; omega⟩
    · have hin := ih (fun c hc => h c (List.mem_cons_of_mem _ hc)) (start + part) a ha
      unfold Area.Inside at hin ⊢
      simp only at hin ⊢
      omega

theorem carve_apart (h : ∀ c ∈ cuts, c.1 ≤ c.2) (start : ℕ) :
    (carve start cuts).Pairwise Area.Apart := by
  induction cuts generalizing start with
  | nil => exact List.Pairwise.nil
  | cons c rest ih =>
    obtain ⟨used, part⟩ := c
    have hfit : used ≤ part := h _ List.mem_cons_self
    have hrest : ∀ c ∈ rest, c.1 ≤ c.2 := fun c hc => h c (List.mem_cons_of_mem _ hc)
    apply List.Pairwise.cons
    · intro a ha
      have hin := (carve_inside hrest (start + part) a ha).1
      apply Area.Apart.of_le
      simp only at hin ⊢
      omega
    · exact ih hrest _

end Carve

/-- The cells of an allocation, and whether a copy has gone past its end. -/
structure Block (α : Type*) where
  cells : List α := []
  wild : Bool := false

namespace Block
variable {α : Type*}

/-- memcpy and memset to `off` and on. -/
def store (b : Block α) (off : ℕ) (bytes : List α) : Block α :=
  if off + bytes.length ≤ b.cells.length then
    { b with cells := b.cells.take off ++ bytes ++ b.cells.drop (off + bytes.length) }
  else { b with wild := true }

/-- realloc to `size` cells; `fresh` is what stands in the new ones. -/
def realloc (b : Block α) (size : ℕ) (fresh : ℕ → α) : Block α :=
  { b with cells := b.cells.take size ++ (List.range (size - b.cells.length)).map fresh }

variable {b : Block α} {off : ℕ} {bytes : List α}

theorem length_store (b : Block α) (off : ℕ) (bytes : List α) :
    (b.store off bytes).cells.length = b.cells.length := by
  unfold store
  split
  · simp only [List.length_append, List.length_take, List.length_drop]
    omega
  · rfl

theorem store_inside (h : off + bytes.length ≤ b.cells.length) :
    (b.store off bytes).wild = b.wild ∧ (b.store off bytes).cells.length = b.cells.length ∧
      (b.store off bytes).cells.take (off + bytes.length) = b.cells.take off ++ bytes := by
  rw [store, if_pos h]
  refine ⟨rfl, ?_, ?_⟩
  · simp only [List.length_append, List.length_take, List.length_drop]
    omega
  · have hlen : (b.cells.take off ++ bytes).length = off + bytes.length := by
      simp only [List.length_append, List.length_take]
      omega
    rw [← hlen]
    exact List.take_left

/-- What lies behind a copy is left alone. -/
theorem store_behind {n : ℕ} (h : off + bytes.length ≤ b.cells.length) (hn : off + bytes.length ≤ n) :
    (b.store off bytes).cells.drop n = b.cells.drop n := by
  have hfront : (b.cells.take off ++ bytes).length = off + bytes.length := by
    simp only [List.length_append, List.length_take]
    omega
  rw [store, if_pos h, List.drop_append, List.drop_eq_nil_of_le (by omega), List.nil_append, hfront,
    List.drop_drop]
  congr 1
  omega

/-- What was copied is read back. -/
theorem store_read (h : off + bytes.length ≤ b.cells.length) :
    ((b.store off bytes).cells.drop off).take bytes.length = bytes := by
  have hfront : (b.cells.take off).length = off := by
    rw [List.length_take]
    omega
  rw [store, if_pos h, List.append_assoc, List.drop_left' hfront, List.take_left]

/-- `b` is `b₀` with its first cells replaced by `front`. -/
structure Filled (b b₀ : Block α) (front : List α) : Prop where
  cells : b.cells = front ++ b₀.cells.drop front.length
  wild : b.wild = b₀.wild

theorem Filled.start (b : Block α) : b.Filled b [] := ⟨rfl, rfl⟩

/-- A copy right behind the front makes it longer. -/
theorem Filled.store {b₀ : Block α} {front : List α} (h : b.Filled b₀ front)
    (hfits : front.length + bytes.length ≤ b₀.cells.length) :
    (b.store front.length bytes).Filled b₀ (front ++ bytes) := by
  have hlen : b.cells.length = b₀.cells.length := by
    rw [h.cells, List.length_append, List.length_drop]
    omega
  rw [Block.store, if_pos (hfits.trans_eq hlen.symm)]
  refine ⟨?_, h.wild⟩
  show b.cells.take _ ++ bytes ++ b.cells.drop _ = _
  rw [h.cells, List.take_left, List.drop_append, List.drop_eq_nil_of_le (Nat.le_add_right _ _),
    List.nil_append, List.drop_drop, List.length_append]
  congr 2
  omega

theorem realloc_grown {size : ℕ} (h : b.cells.length ≤ size) (fresh : ℕ → α) :
    (b.realloc size fresh).wild = b.wild ∧ (b.realloc size fresh).cells.length = size ∧
      ∀ n ≤ b.cells.length, (b.realloc size fresh).cells.take n = b.cells.take n := by
  refine ⟨rfl, ?_, fun n hn => ?_⟩
  · simp only [realloc, List.length_append, List.length_take, List.length_map, List.length_range]
    omega
  · rw [realloc, List.take_of_length_le h, List.take_append_of_le_length hn]

end Block

/-- `n` is a power of two, and the least one that is not below `v`. -/
def LeastPower (v n : ℕ) : Prop := (∃ k, n = 2 ^ k) ∧ v ≤ n ∧ ∀ k, v ≤ 2 ^ k → n ≤ 2 ^ k

theorem LeastPower.pos {v n : ℕ} (h : LeastPower v n) : 0 < n := by
  obtain ⟨⟨k, rfl⟩, -⟩ := h
  exact Nat.two_pow_pos k

/-- The power reached by doubling: it covers `v`, and the one before it did not. -/
theorem LeastPower.of_doubling {v k : ℕ} (hv : v ≤ 2 ^ k) (hbelow : ∀ j < k, 2 ^ j < v) :
    LeastPower v (2 ^ k) := by
  refine ⟨⟨k, rfl⟩, hv, fun j hj => ?_⟩
  apply Nat.pow_le_pow_right (by decide)
  by_contra hlt
  exact absurd (hbelow j (by omega)) (by omega)

theorem LeastPower.le_of_le {v n k : ℕ} (h : LeastPower v n) (hv : v ≤ 2 ^ k) : n ≤ 2 ^ k := h.2.2 k hv

end SlipstreamIO.BlockSlices
