import Mathlib.Data.List.Nodup
import Mathlib.Data.List.Basic
import Mathlib.Tactic.Common

/-! Singly linked lists threaded through a `next` field that several lists share.
A list is a head pointer and the nodes met by following `next` to the null pointer. -/
namespace SlipstreamIO.ThreadedList

variable {α : Type*}

/-- Following `nx` from the pointer `h` visits exactly the nodes of the list and
arrives at the pointer `e`. -/
def Seg (nx : α → Option α) : Option α → List α → Option α → Prop
  | h, [], e => h = e
  | h, a :: l, e => h = some a ∧ Seg nx (nx a) l e

/-- A null-terminated list. -/
abbrev Threads (nx : α → Option α) (h : Option α) (l : List α) : Prop := Seg nx h l none

@[simp] theorem seg_nil {nx : α → Option α} {h e : Option α} : Seg nx h [] e ↔ h = e := Iff.rfl

@[simp] theorem seg_cons {nx : α → Option α} {h e : Option α} {a : α} {l : List α} :
    Seg nx h (a :: l) e ↔ h = some a ∧ Seg nx (nx a) l e := Iff.rfl

theorem seg_append {nx : α → Option α} {l m : List α} {h e : Option α} :
    Seg nx h (l ++ m) e ↔ ∃ p, Seg nx h l p ∧ Seg nx p m e := by
  induction l generalizing h with
  | nil => simp
  | cons a l ih =>
    simp only [List.cons_append, seg_cons, ih]
    constructor
    · rintro ⟨ha, p, hl, hm⟩
      exact ⟨p, ⟨ha, hl⟩, hm⟩
    · rintro ⟨p, ⟨ha, hl⟩, hm⟩
      exact ⟨ha, p, hl, hm⟩

/-- A list depends on the `next` fields of its own nodes only. -/
theorem Seg.congr {nx nx' : α → Option α} {l : List α} {h e : Option α}
    (hl : Seg nx h l e) (he : ∀ a ∈ l, nx' a = nx a) : Seg nx' h l e := by
  induction l generalizing h with
  | nil => exact hl
  | cons a l ih =>
    refine ⟨hl.1, ?_⟩
    rw [he a List.mem_cons_self]
    exact ih hl.2 (fun b hb => he b (List.mem_cons_of_mem a hb))

theorem threads_unique {nx : α → Option α} {l m : List α} {h : Option α}
    (hl : Threads nx h l) (hm : Threads nx h m) : l = m := by
  induction l generalizing h m with
  | nil =>
    cases m with
    | nil => rfl
    | cons b m => cases hl.symm.trans hm.1
  | cons a l ih =>
    cases m with
    | nil => cases hm.symm.trans hl.1
    | cons b m =>
      have hab : a = b := Option.some.inj (hl.1.symm.trans hm.1)
      subst hab
      rw [ih hl.2 hm.2]

/-- A null-terminated list is acyclic: no node is met twice. -/
theorem threads_nodup {nx : α → Option α} {l : List α} {h : Option α}
    (hl : Threads nx h l) : l.Nodup := by
  induction l generalizing h with
  | nil => exact List.nodup_nil
  | cons a l ih =>
    refine List.nodup_cons.mpr ⟨?_, ih hl.2⟩
    intro ha
    -- a second visit to `a` would start a second, shorter list at the same pointer
    obtain ⟨pre, post, rfl⟩ := List.append_of_mem ha
    obtain ⟨p, _, hp⟩ := seg_append.mp hl.2
    have hsame := threads_unique hl.2 hp.2
    have hlen := congrArg List.length hsame
    simp at hlen
    omega

theorem Seg.last {nx : α → Option α} {l : List α} {a : α} {h e : Option α}
    (hl : Seg nx h (l ++ [a]) e) : nx a = e := by
  obtain ⟨p, _, hp⟩ := seg_append.mp hl
  exact hp.2

/-- The cell a pointer into a list can be stored in: the head variable, or the `next` field
of a node. -/
inductive Link (α : Type*) where
  | head
  | nextOf (a : α)
  deriving DecidableEq, Repr

def Link.read (nx : α → Option α) (h : Option α) : Link α → Option α
  | .head => h
  | .nextOf a => nx a

/-- The cell that holds the pointer to the node following `l`. -/
def Link.after (l : List α) : Link α :=
  match l.getLast? with
  | none => .head
  | some a => .nextOf a

@[simp] theorem link_after_nil : Link.after ([] : List α) = .head := rfl

@[simp] theorem link_after_concat (l : List α) (a : α) : Link.after (l ++ [a]) = .nextOf a := by
  simp [Link.after]

theorem Seg.read_after {nx : α → Option α} {l : List α} {h e : Option α} (hl : Seg nx h l e) :
    (Link.after l).read nx h = e := by
  rcases List.eq_nil_or_concat l with rfl | ⟨l', a, rfl⟩
  · exact hl
  · rw [List.concat_eq_append] at hl ⊢
    simpa [Link.read] using hl.last

/-- A cell of the list that holds `a` is the one in front of `a`. -/
theorem Seg.split_at_cell {nx : α → Option α} {h : Option α} {l : List α} {p : Link α} {a : α}
    (hl : Threads nx h l) (hp : p = .head ∨ ∃ b ∈ l, p = .nextOf b) (ha : p.read nx h = some a) :
    ∃ pre suf, l = pre ++ a :: suf ∧ p = Link.after pre := by
  have hcons {h : Option α} {l : List α} (hl : Threads nx h l) (ha : h = some a) :
      ∃ suf, l = a :: suf := by
    cases l with
    | nil => cases hl.symm.trans ha
    | cons b l =>
      cases hl.1.symm.trans ha
      exact ⟨l, rfl⟩
  rcases hp with rfl | ⟨b, hb, rfl⟩
  · obtain ⟨suf, rfl⟩ := hcons hl ha
    exact ⟨[], suf, rfl, rfl⟩
  · obtain ⟨pre, rest, rfl⟩ := List.append_of_mem hb
    obtain ⟨q, -, -, hrest⟩ := seg_append.mp hl
    obtain ⟨suf, rfl⟩ := hcons hrest ha
    exact ⟨pre ++ [b], suf, by simp, (link_after_concat pre b).symm⟩

/-- A list with a tail pointer beside its head. -/
structure IsQueue (nx : α → Option α) (h t : Option α) (l : List α) : Prop where
  threads : Threads nx h l
  tail : t = l.getLast?

theorem IsQueue.congr {nx nx' : α → Option α} {h t : Option α} {l : List α}
    (hq : IsQueue nx h t l) (he : ∀ a ∈ l, nx' a = nx a) : IsQueue nx' h t l :=
  ⟨hq.threads.congr he, hq.tail⟩

theorem isQueue_nil (nx : α → Option α) : IsQueue nx none none [] := ⟨rfl, rfl⟩

theorem IsQueue.head_none {nx : α → Option α} {h t : Option α} {l : List α}
    (hq : IsQueue nx h t l) : h = none ↔ l = [] := by
  cases l with
  | nil => simpa using hq.threads
  | cons a l => simp [hq.threads.1]

theorem IsQueue.tail_none {nx : α → Option α} {h t : Option α} {l : List α}
    (hq : IsQueue nx h t l) : t = none ↔ l = [] := by
  rw [hq.tail]
  exact List.getLast?_eq_none_iff

theorem IsQueue.head_eq {nx : α → Option α} {h t : Option α} {l : List α}
    (hq : IsQueue nx h t l) : h = l.head? := by
  cases l with
  | nil => exact hq.threads
  | cons a l => exact hq.threads.1

/-- Taking the head off, with the tail pointer cleared when the list empties. -/
theorem IsQueue.pop {nx : α → Option α} {h t : Option α} {a : α} {l : List α}
    (hq : IsQueue nx h t (a :: l)) :
    IsQueue nx (nx a) (if nx a = none then none else t) l := by
  refine ⟨hq.threads.2, ?_⟩
  cases l with
  | nil => simp [show nx a = none from hq.threads.2]
  | cons b l =>
    have hb : nx a = some b := hq.threads.2.1
    simp [hb, hq.tail]

/-- Linking a second list behind the first: the old tail's `next`, or the head variable of an
empty list, now holds the second list's head. -/
theorem IsQueue.append {nx nx' : α → Option α} {h t h' h2 t2 : Option α} {l m : List α}
    (hl : IsQueue nx h t l) (hm : IsQueue nx h2 t2 m) (hd : ∀ a ∈ l, a ∉ m) (hne : m ≠ [])
    (hhead : h' = if t.isNone then h2 else h)
    (hset : ∀ a, t = some a → nx' a = h2) (hkeep : ∀ a, t ≠ some a → nx' a = nx a) :
    IsQueue nx' h' t2 (l ++ m) := by
  have hm' := hm.congr (fun a ha => hkeep a (fun hta =>
    hd a (List.mem_of_getLast? (hl.tail.symm.trans hta)) ha))
  refine ⟨?_, ?_⟩
  · rcases List.eq_nil_or_concat l with rfl | ⟨l', a, rfl⟩
    · rw [hhead, hl.tail]
      exact hm'.threads
    · rw [List.concat_eq_append] at *
      have hta : t = some a := by rw [hl.tail]; simp
      have hnd := threads_nodup hl.threads
      obtain ⟨p, hp, hpa, -⟩ := seg_append.mp hl.threads
      have hh : h' = h := by rw [hhead, hta]; rfl
      rw [hh, List.append_assoc]
      refine seg_append.mpr ⟨p, hp.congr (fun b hb => hkeep b ?_), hpa, ?_⟩
      · rw [hta]
        rintro ⟨rfl⟩
        exact (List.nodup_append.mp hnd).2.2 _ hb _ (List.mem_singleton_self _) rfl
      · rw [hset a hta]
        exact hm'.threads
  · rw [hm'.tail, List.getLast?_append]
    cases hg : m.getLast? with
    | none => exact absurd (List.getLast?_eq_none_iff.mp hg) hne
    | some b => rfl

/-- Overwriting the cell in front of `a` with `a`'s successor takes `a` out. -/
theorem Seg.unlink {nx nx' : α → Option α} {h h' e : Option α} {pre suf : List α} {a : α}
    (hl : Seg nx h (pre ++ a :: suf) e) (hnd : (pre ++ a :: suf).Nodup)
    (hhead : Link.after pre = .head → h' = nx a) (hhead' : Link.after pre ≠ .head → h' = h)
    (hset : ∀ b, Link.after pre = .nextOf b → nx' b = nx a)
    (hkeep : ∀ b, Link.after pre ≠ .nextOf b → nx' b = nx b) :
    Seg nx' h' (pre ++ suf) e := by
  obtain ⟨p, hp, hpa, hs⟩ := seg_append.mp hl
  have hdisj := (List.nodup_append.mp hnd).2.2
  have hs' : Seg nx' (nx a) suf e := by
    refine hs.congr (fun b hb => hkeep b ?_)
    intro hlink
    rcases List.eq_nil_or_concat pre with rfl | ⟨l', c, rfl⟩
    · cases hlink
    · rw [List.concat_eq_append, link_after_concat] at hlink
      cases hlink
      exact hdisj b (by simp) b (List.mem_cons_of_mem _ hb) rfl
  rcases List.eq_nil_or_concat pre with rfl | ⟨l', c, rfl⟩
  · rw [hhead rfl]
    exact hs'
  · rw [List.concat_eq_append] at *
    obtain ⟨r, hr, hrc, -⟩ := seg_append.mp hp
    have hlink := link_after_concat l' c
    have hnd' := (List.nodup_append.mp hnd).1
    rw [hhead' (by simp [hlink])]
    refine seg_append.mpr ⟨nx a, seg_append.mpr ⟨r, hr.congr (fun b hb => hkeep b ?_), hrc, ?_⟩, hs'⟩
    · rw [hlink]
      rintro ⟨rfl⟩
      exact (List.nodup_append.mp hnd').2.2 _ hb _ (List.mem_singleton_self _) rfl
    · exact hset c hlink

/-- The tail found by walking the list, as a loop that drops the node it met into a variable
would: at most `n` steps. -/
def walkLast (nx : α → Option α) : ℕ → Option α → Option α → Option α
  | 0, _, acc => acc
  | _ + 1, none, acc => acc
  | n + 1, some a, _ => walkLast nx n (nx a) (some a)

theorem walkLast_eq {nx : α → Option α} {l : List α} {h : Option α} (hl : Threads nx h l)
    (n : ℕ) (hn : l.length ≤ n) (acc : Option α) :
    walkLast nx n h acc = if l = [] then acc else l.getLast? := by
  induction l generalizing h n acc with
  | nil =>
    cases hl
    cases n <;> rfl
  | cons a l ih =>
    cases hl.1
    cases n with
    | zero => simp at hn
    | succ n =>
      rw [walkLast, ih hl.2 n (by simpa using hn)]
      cases l with
      | nil => rfl
      | cons b l => simp

/-- The nodes met in at most `n` steps. -/
def walk (nx : α → Option α) : ℕ → Option α → List α
  | 0, _ => []
  | _ + 1, none => []
  | n + 1, some a => a :: walk nx n (nx a)

theorem walk_eq {nx : α → Option α} {l : List α} {h : Option α} (hl : Threads nx h l)
    (n : ℕ) (hn : l.length ≤ n) : walk nx n h = l := by
  induction l generalizing h n with
  | nil =>
    cases hl
    cases n <;> rfl
  | cons a l ih =>
    cases hl.1
    cases n with
    | zero => simp at hn
    | succ n => rw [walk, ih hl.2 n (by simpa using hn)]

/-- The cell that holds the pointer to `a`, from the cell `p` on, in at most `n` steps. -/
def findCell [DecidableEq α] (nx : α → Option α) (h : Option α) (a : α) : ℕ → Link α → Option (Link α)
  | 0, _ => none
  | n + 1, p =>
    match p.read nx h with
    | none => none
    | some b => if b = a then some p else findCell nx h a n (.nextOf b)

theorem findCell_eq [DecidableEq α] {nx : α → Option α} {h e : Option α} {a : α} {l : List α}
    (p : Link α) (hl : Seg nx (p.read nx h) (l ++ [a]) e) (ha : a ∉ l) (n : ℕ) (hn : l.length < n) :
    findCell nx h a n p = some (match l.getLast? with | none => p | some b => .nextOf b) := by
  induction l generalizing p n with
  | nil =>
    cases n with
    | zero => simp at hn
    | succ n => simp [findCell, hl.1]
  | cons b l ih =>
    cases n with
    | zero => simp at hn
    | succ n =>
      have hba : b ≠ a := fun he => ha (he ▸ List.mem_cons_self)
      have hrest : Seg nx ((Link.nextOf b).read nx h) (l ++ [a]) e := hl.2
      rw [findCell, show p.read nx h = some b from hl.1]
      simp only [if_neg hba]
      rw [ih (.nextOf b) hrest (fun hm => ha (List.mem_cons_of_mem _ hm)) n (by simpa using hn)]
      cases l with
      | nil => rfl
      | cons c l => simp [List.getLast?_cons]

/-- A search from the head finds the cell in front of `a`. -/
theorem Seg.findCell [DecidableEq α] {nx : α → Option α} {h e : Option α} {a : α} {pre suf : List α}
    (hl : Seg nx h (pre ++ a :: suf) e) (ha : a ∉ pre) (n : ℕ) (hn : pre.length < n) :
    findCell nx h a n .head = some (Link.after pre) := by
  rw [List.append_cons] at hl
  obtain ⟨q, hq, -⟩ := seg_append.mp hl
  rw [findCell_eq .head hq ha n hn, Link.after]

/-- Taking a node out from behind its cell keeps the tail pointer right when the tail is
recomputed by a walk in the case that the node was the last one. -/
theorem IsQueue.unlink {nx nx' : α → Option α} {h t h' t' : Option α} {pre suf : List α} {a : α}
    (hq : IsQueue nx h t (pre ++ a :: suf))
    (hhead : Link.after pre = .head → h' = nx a) (hhead' : Link.after pre ≠ .head → h' = h)
    (hset : ∀ b, Link.after pre = .nextOf b → nx' b = nx a)
    (hkeep : ∀ b, Link.after pre ≠ .nextOf b → nx' b = nx b)
    (n : ℕ) (hn : (pre ++ suf).length ≤ n)
    (htail : t = some a → t' = walkLast nx' n h' none) (htail' : t ≠ some a → t' = t) :
    IsQueue nx' h' t' (pre ++ suf) := by
  have hth := hq.threads.unlink (threads_nodup hq.threads) hhead hhead' hset hkeep
  refine ⟨hth, ?_⟩
  by_cases hta : t = some a
  · rw [htail hta, walkLast_eq hth n hn]
    split
    · next he => simp [he]
    · rfl
  · rw [htail' hta, hq.tail]
    rw [hq.tail] at hta
    rcases List.eq_nil_or_concat suf with rfl | ⟨l', c, rfl⟩
    · simp at hta
    · simp [List.getLast?_append, List.getLast?_cons]

end SlipstreamIO.ThreadedList
