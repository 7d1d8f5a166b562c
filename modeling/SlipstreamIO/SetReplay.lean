import Mathlib.Data.Finset.Basic
import Mathlib.Data.Finset.Lattice.Lemmas
import Mathlib.Tactic.Common

/-! Changes of a finite set, told one by one: an element is added that was not there, or dropped or
touched that was. A list of changes replays from a set if every one of them can happen in its turn. -/
namespace SlipstreamIO.SetReplay

variable {α β : Type*}

inductive Change (α : Type*)
  | add (a : α)
  | drop (a : α)
  | touch (a : α)
  deriving DecidableEq

variable [DecidableEq α] {s t u : Finset α} {a b : α} {cs ds : List (Change α)}

def Change.apply (s : Finset α) : Change α → Option (Finset α)
  | .add a => if a ∈ s then none else some (insert a s)
  | .drop a => if a ∈ s then some (s.erase a) else none
  | .touch a => if a ∈ s then some s else none

def replay (s : Finset α) : List (Change α) → Option (Finset α)
  | [] => some s
  | c :: cs => (c.apply s).bind fun t => replay t cs

theorem replay_append (s : Finset α) (cs ds : List (Change α)) :
    replay s (cs ++ ds) = (replay s cs).bind fun t => replay t ds := by
  induction cs generalizing s with
  | nil => rfl
  | cons c cs ih =>
    simp only [List.cons_append, replay]
    cases c.apply s with
    | none => rfl
    | some t => exact ih t

theorem replay_trans (hcs : replay s cs = some t) (hds : replay t ds = some u) :
    replay s (cs ++ ds) = some u := by
  rw [replay_append, hcs, Option.bind_some, hds]

theorem replay_add (ha : a ∉ s) : replay s [.add a] = some (insert a s) := by
  simp [replay, Change.apply, ha]

theorem replay_drop (ha : a ∈ s) : replay s [.drop a] = some (s.erase a) := by
  simp [replay, Change.apply, ha]

theorem replay_touch (ha : a ∈ s) : replay s [.touch a] = some s := by
  simp [replay, Change.apply, ha]

/-- An element that makes room for another one of its name. -/
theorem replay_replace (ha : a ∈ s) : replay s [.drop a, .add a] = some s := by
  have hput := replay_add (Finset.notMem_erase a s)
  rw [Finset.insert_erase ha] at hput
  exact replay_trans (replay_drop ha) hput

theorem replay_move (ha : a ∈ s) (hb : b ∉ s) :
    replay s [.drop a, .add b] = some (insert b (s.erase a)) :=
  replay_trans (replay_drop ha) (replay_add fun hin => hb (Finset.mem_of_mem_erase hin))

/-- Lists of changes each of which leads back to the set. -/
theorem replay_flatMap_self (l : List β) (f : β → List (Change α))
    (h : ∀ x ∈ l, replay s (f x) = some s) : replay s (l.flatMap f) = some s := by
  induction l with
  | nil => rfl
  | cons x l ih =>
    rw [List.flatMap_cons]
    exact replay_trans (h x List.mem_cons_self) (ih fun y hy => h y (List.mem_cons_of_mem _ hy))

/-- New elements, added in any order. -/
theorem replay_adds (l : List α) (hl : l.Nodup) (hs : ∀ a ∈ l, a ∉ s) :
    replay s (l.map .add) = some (s ∪ l.toFinset) := by
  induction l generalizing s with
  | nil => simp [replay]
  | cons a l ih =>
    obtain ⟨ha, hl⟩ := List.nodup_cons.mp hl
    have hrest : ∀ b ∈ l, b ∉ insert a s := by
      intro b hb hin
      rcases Finset.mem_insert.mp hin with rfl | hin
      · exact ha hb
      · exact hs b (List.mem_cons_of_mem _ hb) hin
    have hput := replay_add (hs a List.mem_cons_self)
    rw [List.map_cons, ← List.singleton_append]
    apply replay_trans hput
    rw [ih hl hrest, List.toFinset_cons, Finset.insert_union, Finset.union_insert]

/-- Lists of changes that together tell how `s` became `t`. -/
structure Tells (s t : Finset α) (cs : List (Change α)) : Prop where
  replay : replay s cs = some t
  touched : ∀ a, .touch a ∈ cs → a ∈ s ∧ a ∈ t

end SlipstreamIO.SetReplay
