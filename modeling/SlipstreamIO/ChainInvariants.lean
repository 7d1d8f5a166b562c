import SlipstreamIO.Chains
import Mathlib.Data.List.Basic

/-! Invariants of the abstract ring: where an SQE can be, and which one is pending. -/
namespace SlipstreamIO.Engine

open Runs

namespace Chains

/-- The parts of the abstract ring agree with each other. -/
structure WellFormed (a : Chains) : Prop where
  born : ∀ i, a.stage i = .unborn ↔ a.n ≤ i
  sorted : a.queue.Pairwise (· < ·)
  queued : ∀ i, i ∈ a.queue ↔ a.stage i = .queued
  running : ∀ i, a.stage i = .running → a.current = some i ∧ a.blocking = none
  posting : ∀ i res, a.stage i = .posting res → a.current = some i ∧ a.blocking = none
  held : ∀ i, a.stage i = .held → a.linked i = true → a.blocking = some i
  returned : ∀ i res, a.stage i = .returned res → a.linked i = true → a.blocking = some i
  ticket : ∀ i v, a.ticket = some (i, v) → a.blocking = some i ∧
    ((∃ res, a.stage i = .off res) ∨ a.stage i = .closed)
  blocking : ∀ i, a.blocking = some i → a.linked i = true ∧ a.stage i ≠ .unborn ∧
    a.stage i ≠ .queued ∧ (a.ticket = none → a.stage i = .held ∨ ∃ res, a.stage i = .returned res)
  current : ∀ i, a.current = some i → a.stage i ≠ .unborn ∧ ∀ j ∈ a.queue, i < j

theorem wellFormed_empty : WellFormed {} := by
  constructor <;> simp

theorem WellFormed.pop {a : Chains} (h : a.WellFormed) {i : ℕ} {rest : List ℕ}
    (hq : a.queue = i :: rest) :
    a.stage i = .queued ∧ rest.Pairwise (· < ·) ∧ (∀ j ∈ rest, i < j) ∧
      ∀ j, j ∈ rest ↔ j ≠ i ∧ a.stage j = .queued := by
  have hs := h.sorted
  rw [hq, List.pairwise_cons] at hs
  refine ⟨(h.queued i).mp (by simp [hq]), hs.2, hs.1, fun j => ?_⟩
  rw [← h.queued j, hq, List.mem_cons]
  constructor
  · intro hj
    exact ⟨(hs.1 j hj).ne', Or.inr hj⟩
  · rintro ⟨hne, rfl | hj⟩
    · exact absurd rfl hne
    · exact hj

theorem WellFormed.unlink {a : Chains} (h : a.WellFormed) {t : ℕ} {pre suf : List ℕ}
    (hq : a.queue = pre ++ t :: suf) :
    a.stage t = .queued ∧ (pre ++ suf).Pairwise (· < ·) ∧
      ∀ j, j ∈ pre ++ suf ↔ j ≠ t ∧ a.stage j = .queued := by
  have hs := h.sorted
  have hnd : (pre ++ t :: suf).Nodup := hq ▸ hs.imp (fun hlt => hlt.ne)
  have hsub : (pre ++ suf).Sublist (pre ++ t :: suf) :=
    (List.Sublist.refl pre).append (List.sublist_cons_self t suf)
  refine ⟨(h.queued t).mp (by simp [hq]), (hq ▸ hs).sublist hsub, fun j => ?_⟩
  rw [← h.queued j, hq]
  have hperm := List.nodup_middle.mp hnd
  rw [List.nodup_cons] at hperm
  constructor
  · intro hj
    refine ⟨?_, hsub.subset hj⟩
    rintro rfl
    exact hperm.1 hj
  · rintro ⟨hne, hj⟩
    simpa [hne] using hj

section Moves
variable {a : Chains} (h : a.WellFormed)
include h

theorem WellFormed.accept (sqe : Sqe) :
    WellFormed { a with
      n := a.n + 1
      sqe := fun j => if j = a.n then sqe else a.sqe j
      stage := fun j => if j = a.n then .queued else a.stage j
      queue := a.queue ++ [a.n] } := by
  obtain ⟨born, sorted, queued, running, posting, held, returned, ticket, blocking, current⟩ := id h
  have hlt : ∀ j ∈ a.queue, j < a.n := by grind
  have hsorted : (a.queue ++ [a.n]).Pairwise (· < ·) :=
    List.pairwise_append.mpr ⟨sorted, List.pairwise_singleton _ _, by simpa using hlt⟩
  constructor
  all_goals simp only [linked] at *
  all_goals grind

/-- `process_queue` takes the head: into its hand, or away for good. -/
theorem WellFormed.popped {i : ℕ} {rest : List ℕ} {st : Stage} {current : Option ℕ}
    {f : ChainFailed} {took : Bool} (hc : a.current = none) (hb : a.blocking = none)
    (hq : a.queue = i :: rest)
    (hst : (current = some i ∧ (st = .running ∨ ∃ res, st = .posting res)) ∨
      (current = none ∧ st = .closed)) :
    WellFormed { a.setStage i st with
      queue := rest, current := current, took := took, failed := f } := by
  obtain ⟨hi, hsorted, hlt, hmem⟩ := h.pop hq
  obtain ⟨born, sorted, queued, running, posting, held, returned, ticket, blocking, current⟩ := id h
  constructor
  all_goals simp only [setStage, linked] at *
  all_goals grind

theorem WellFormed.answered {i : ℕ} {res : Int32} {f : ChainFailed}
    (hs : a.stage i = .running) :
    WellFormed { a.setStage i (.posting res) with failed := f } := by
  obtain ⟨born, sorted, queued, running, posting, held, returned, ticket, blocking, current⟩ := id h
  constructor
  all_goals simp only [setStage, linked] at *
  all_goals grind

theorem WellFormed.posted {i : ℕ} {res : Int32} (hs : a.stage i = .posting res) :
    WellFormed { a.setStage i .closed with current := none } := by
  obtain ⟨born, sorted, queued, running, posting, held, returned, ticket, blocking, current⟩ := id h
  constructor
  all_goals simp only [setStage, linked] at *
  all_goals grind

theorem WellFormed.hold {i : ℕ} (hs : a.stage i = .running) :
    WellFormed { a.setStage i .held with
      blocking := if a.linked i then some i else a.blocking } := by
  obtain ⟨born, sorted, queued, running, posting, held, returned, ticket, blocking, current⟩ := id h
  constructor
  all_goals simp only [setStage, linked] at *
  all_goals grind

theorem WellFormed.pend {i : ℕ} (hc : a.current = some i) (hs : a.stage i ≠ .running)
    (hp : ∀ res, a.stage i ≠ .posting res) : WellFormed { a with current := none } := by
  obtain ⟨born, sorted, queued, running, posting, held, returned, ticket, blocking, current⟩ := id h
  constructor
  all_goals simp only [linked] at *
  all_goals grind

theorem WellFormed.handBack {i : ℕ} {res : Int32} (hs : a.stage i = .held) :
    WellFormed (a.setStage i (.returned res)) := by
  obtain ⟨born, sorted, queued, running, posting, held, returned, ticket, blocking, current⟩ := id h
  constructor
  all_goals simp only [setStage, linked] at *
  all_goals grind

theorem WellFormed.completed {i : ℕ} {res : Int32} {f : ChainFailed}
    (hs : a.stage i = .returned res) :
    WellFormed { a.setStage i .closed with
      blocking := if a.blocking = some i then none else a.blocking
      failed := f } := by
  obtain ⟨born, sorted, queued, running, posting, held, returned, ticket, blocking, current⟩ := id h
  constructor
  all_goals simp only [setStage, linked] at *
  all_goals grind

theorem WellFormed.finish {i : ℕ} {res : Int32} (hs : a.stage i = .held) :
    WellFormed { a.setStage i (.off res) with
      ticket := if a.linked i then some (i, if res < 0 then a.verdict i else .holds)
        else a.ticket } := by
  obtain ⟨born, sorted, queued, running, posting, held, returned, ticket, blocking, current⟩ := id h
  constructor
  all_goals simp only [setStage, linked] at *
  all_goals grind

theorem WellFormed.offPost {i : ℕ} {res : Int32} (hs : a.stage i = .off res) :
    WellFormed (a.setStage i .closed) := by
  obtain ⟨born, sorted, queued, running, posting, held, returned, ticket, blocking, current⟩ := id h
  constructor
  all_goals simp only [setStage, linked] at *
  all_goals grind

theorem WellFormed.settle {i : ℕ} {v f : ChainFailed} (ht : a.ticket = some (i, v)) :
    WellFormed { a with blocking := none, ticket := none, failed := f } := by
  obtain ⟨born, sorted, queued, running, posting, held, returned, ticket, blocking, current⟩ := id h
  constructor
  all_goals simp only [linked] at *
  all_goals grind

theorem WellFormed.takeHeld {t : ℕ} {f : ChainFailed} {took : Bool} (hs : a.stage t = .held) :
    WellFormed { a.setStage t .closed with
      took := took
      blocking := if a.blocking = some t then none else a.blocking
      failed := f } := by
  obtain ⟨born, sorted, queued, running, posting, held, returned, ticket, blocking, current⟩ := id h
  constructor
  all_goals simp only [setStage, linked] at *
  all_goals grind

theorem WellFormed.takeQueued {t : ℕ} {pre suf : List ℕ} {f : ChainFailed} {took : Bool}
    (hq : a.queue = pre ++ t :: suf) :
    WellFormed { a.setStage t .closed with queue := pre ++ suf, took := took, failed := f } := by
  obtain ⟨ht, hsorted, hmem⟩ := h.unlink hq
  obtain ⟨born, sorted, queued, running, posting, held, returned, ticket, blocking, current⟩ := id h
  constructor
  all_goals simp only [setStage, linked] at *
  all_goals grind

end Moves

end Chains

theorem Act.Step.wellFormed {a a' : Chains} {act : Act} {ev : List Event} (h : a.WellFormed)
    (hs : act.Step a ev a') : a'.WellFormed := by
  cases hs with
  | accept sqe => exact h.accept sqe
  | cancelLoud hc hb hq hf => exact h.popped hc hb hq (Or.inl ⟨rfl, Or.inr ⟨_, rfl⟩⟩)
  | cancelQuiet hc hb hq hf => exact h.popped hc hb hq (Or.inr ⟨hc, rfl⟩)
  | fail hc hb hq hf hres => exact h.popped hc hb hq (Or.inl ⟨rfl, Or.inr ⟨_, rfl⟩⟩)
  | message hc hb hq hf ho => exact h.popped hc hb hq (Or.inl ⟨rfl, Or.inr ⟨_, rfl⟩⟩)
  | begin hc hb hq hf => exact h.popped hc hb hq (Or.inl ⟨rfl, Or.inl rfl⟩)
  | answer hc hs => exact h.answered hs
  | post hc hs hg => exact h.posted hs
  | hold hc hs => exact h.hold hs
  | pend hc hs hp => exact h.pend hc hs hp
  | handBack hc hs => exact h.handBack hs
  | complete hc hs hg => exact h.completed hs
  | finish hs => exact h.finish hs
  | offPost hs hg => exact h.offPost hs
  | settle hc ht hb => exact h.settle ht
  | takeHeld hc hr hs hg => exact h.takeHeld hs
  | takeQueued hc hr hq hg => exact h.takeQueued hq

end SlipstreamIO.Engine
