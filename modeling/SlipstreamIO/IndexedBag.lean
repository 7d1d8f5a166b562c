import Mathlib.Data.List.Basic
import Mathlib.Data.List.Nodup
import Mathlib.Tactic.Common

/-! An array used as a bag whose elements know their own index: an element is pushed at the end, and
leaves by a swap with the last one. -/
namespace SlipstreamIO.IndexedBag

variable {α : Type*} {l : List α} {slot slot' : α → ℕ} {i : ℕ} {x y : α}

/-- The element at each index knows it. -/
def Indexed (l : List α) (slot : α → ℕ) : Prop := ∀ i x, l[i]? = some x → slot x = i

/-- The last element takes the place of the one at `i`. -/
def swapRemove (l : List α) (i : ℕ) : List α :=
  match l.getLast? with
  | none => []
  | some b => (l.set i b).dropLast

theorem indexed_nil (slot : α → ℕ) : Indexed ([] : List α) slot := by
  intro i x h
  simp at h

theorem Indexed.mem_iff (h : Indexed l slot) : x ∈ l ↔ l[slot x]? = some x := by
  constructor
  · intro hx
    obtain ⟨i, hi⟩ := List.mem_iff_getElem?.mp hx
    rw [h i x hi, hi]
  · intro hx
    exact List.mem_iff_getElem?.mpr ⟨_, hx⟩

/-- No element is in the array twice. -/
theorem Indexed.nodup (h : Indexed l slot) : l.Nodup := by
  rw [List.nodup_iff_getElem?_ne_getElem?]
  intro i j hij hj he
  have hi : i < l.length := by omega
  have hx : l[i]? = some l[i] := List.getElem?_eq_getElem hi
  have hxi := h i _ hx
  have hxj := h j _ (he ▸ hx)
  omega

theorem Indexed.push (h : Indexed l slot) (hx : slot' x = l.length)
    (hkeep : ∀ y ∈ l, slot' y = slot y) : Indexed (l ++ [x]) slot' := by
  intro j y hj
  rw [List.getElem?_append] at hj
  split at hj
  · rw [hkeep y (List.mem_of_getElem? hj)]
    exact h j y hj
  · next hlt =>
    rw [List.getElem?_singleton] at hj
    split at hj
    · cases hj
      omega
    · cases hj

theorem getElem?_swapRemove {b : α} (hb : l.getLast? = some b) (j : ℕ) :
    (swapRemove l i)[j]? = if j + 1 < l.length then if j = i then some b else l[j]? else none := by
  unfold swapRemove
  simp only [hb]
  rw [List.getElem?_dropLast, List.length_set]
  by_cases hj : j + 1 < l.length
  · rw [if_pos (by omega), if_pos hj, List.getElem?_set]
    by_cases hji : j = i
    · rw [if_pos hji.symm, if_pos (by omega), if_pos hji]
    · rw [if_neg (Ne.symm hji), if_neg hji]
  · rw [if_neg (by omega), if_neg hj]

theorem length_swapRemove (hi : l[i]? = some x) : (swapRemove l i).length + 1 = l.length := by
  have hne : l ≠ [] := by
    rintro rfl
    simp at hi
  have hpos := List.length_pos_of_ne_nil hne
  unfold swapRemove
  rw [List.getLast?_eq_some_getLast hne]
  simp only [List.length_dropLast, List.length_set]
  omega

/-- What stands in front of `i` stays where it is. -/
theorem take_swapRemove (hi : l[i]? = some x) : (swapRemove l i).take i = l.take i := by
  have hlt : i < l.length := (List.getElem?_eq_some_iff.mp hi).1
  obtain ⟨b, hb⟩ : ∃ b, l.getLast? = some b :=
    ⟨_, List.getLast?_eq_some_getLast (List.ne_nil_of_length_pos (by omega))⟩
  apply List.ext_getElem?
  intro j
  rw [List.getElem?_take, List.getElem?_take]
  split
  · next hj => rw [getElem?_swapRemove hb, if_pos (by omega), if_neg (by omega)]
  · rfl

section Remove
variable {b : α}

/-- What is left: everything but the element that stood at `i`. -/
theorem mem_swapRemove (h : Indexed l slot) (hi : l[i]? = some x) :
    y ∈ swapRemove l i ↔ y ∈ l ∧ y ≠ x := by
  have hlt : i < l.length := (List.getElem?_eq_some_iff.mp hi).1
  have hne : l ≠ [] := List.ne_nil_of_length_pos (by omega)
  obtain ⟨b, hb⟩ : ∃ b, l.getLast? = some b := ⟨_, List.getLast?_eq_some_getLast hne⟩
  have hlast : l[l.length - 1]? = some b := by
    rw [← hb, List.getLast?_eq_getElem?]
  have hxi := h i x hi
  have hbi := h _ b hlast
  rw [List.mem_iff_getElem?]
  constructor
  · rintro ⟨j, hj⟩
    rw [getElem?_swapRemove hb] at hj
    split at hj
    · next hjl =>
      split at hj
      · -- the last element, moved: it is not `x`, which stood at an index below
        next hji =>
        cases hj
        refine ⟨List.mem_of_getElem? hlast, ?_⟩
        rintro rfl
        omega
      · next hji =>
        refine ⟨List.mem_of_getElem? hj, ?_⟩
        rintro rfl
        exact hji ((h j _ hj).symm.trans hxi)
    · cases hj
  · rintro ⟨hy, hyx⟩
    have hyj := h.mem_iff.mp hy
    have hylt : slot y < l.length := (List.getElem?_eq_some_iff.mp hyj).1
    by_cases hyl : slot y + 1 < l.length
    · refine ⟨slot y, ?_⟩
      have hyi : slot y ≠ i := by
        intro he
        rw [he, hi] at hyj
        exact hyx (Option.some.inj hyj).symm
      rw [getElem?_swapRemove hb, if_pos hyl, if_neg hyi, hyj]
    · -- `y` is the last element, and has gone to `i`
      have hyl' : slot y = l.length - 1 := by omega
      have hyb : y = b := by
        rw [hyl', hlast] at hyj
        exact (Option.some.inj hyj).symm
      have hil : i + 1 < l.length := by
        by_contra hil
        apply hyx
        have hii : i = l.length - 1 := by omega
        rw [hii, hlast] at hi
        rw [hyb]
        exact Option.some.inj hi
      exact ⟨i, by rw [getElem?_swapRemove hb, if_pos hil, if_pos rfl, hyb]⟩

theorem Indexed.swapRemove (h : Indexed l slot) (hb : l.getLast? = some b) (hlast : slot' b = i)
    (hkeep : ∀ y, y ≠ b → slot' y = slot y) : Indexed (swapRemove l i) slot' := by
  intro j y hj
  rw [getElem?_swapRemove hb] at hj
  split at hj
  · next hjl =>
    split at hj
    · next hji =>
      cases hj
      rw [hlast, hji]
    · next hji =>
      have hyb : y ≠ b := by
        rintro rfl
        have hbl := h (l.length - 1) y (by rw [← hb, List.getLast?_eq_getElem?])
        have hbj := h j y hj
        omega
      rw [hkeep y hyb]
      exact h j y hj
  · cases hj

/-- The array is the one that left and what is left of it. -/
theorem perm_swapRemove (h : Indexed l slot) (hi : l[i]? = some x) : l.Perm (x :: swapRemove l i) := by
  classical
  have hne : l ≠ [] := List.ne_nil_of_mem (List.mem_of_getElem? hi)
  have hrest : Indexed (swapRemove l i) fun y => if y = l.getLast hne then i else slot y := by
    apply Indexed.swapRemove h (List.getLast?_eq_some_getLast hne)
    · exact if_pos rfl
    · exact fun y hy => if_neg hy
  apply (List.perm_ext_iff_of_nodup h.nodup _).mpr
  · intro y
    rw [List.mem_cons, mem_swapRemove h hi]
    by_cases hy : y = x
    · simp [hy, List.mem_of_getElem? hi]
    · simp [hy]
  · apply List.nodup_cons.mpr
    exact ⟨fun hx => ((mem_swapRemove h hi).mp hx).2 rfl, hrest.nodup⟩

end Remove

end SlipstreamIO.IndexedBag
