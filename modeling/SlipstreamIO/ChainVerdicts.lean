import SlipstreamIO.Conservation
import Mathlib.Data.List.Chain

/-! What the chain's standing says of the SQEs at the front of the queue, in every history of the
abstract ring whose cancels take from the queue only where that keeps chains apart. -/
namespace SlipstreamIO.Engine

open Runs

namespace Chains

/-- `j` is an earlier member of `i`'s chain. -/
def Precedes (a : Chains) (j i : ℕ) : Prop := j < i ∧ ∀ k, j ≤ k → k < i → a.linked k = true

/-- The SQE `process_queue` runs next, or the one to be accepted next. -/
def front (a : Chains) : ℕ := a.queue.headD a.n

/-- In the queue a linked SQE is followed by the next one of its chain. -/
def Adjacent (a : Chains) : Prop :=
  (a.queue ++ [a.n]).IsChain (fun x y => a.linked x = true → y = x + 1)

end Chains

def Taken (tr : List Event) (j : ℕ) : Prop := ∃ c sc st, .take c j sc st ∈ tr

/-- A take off the queue that keeps chains apart; and how a cancel that took an op goes on. -/
def Clean (E : ℕ → Prop) (a : Chains) : Act → Prop
  | .takeQueued t _ _ _ => ∀ pre suf, a.queue = pre ++ t :: suf →
    (pre = [] → a.linked t = true ∨ a.failed = .holds) ∧
      ∀ x, pre.getLast? = some x → a.linked x = false ∧ a.linked t = false
  | .answer res => a.took = true → 0 ≤ res
  | .message res => res < 0 → ∀ i, a.queue.head? = some i → a.linked i = true → E i
  | .hold => a.took = false
  | _ => True

section Front
variable {a : Chains} {i j k : ℕ}

theorem Chains.Precedes.linked (h : a.Precedes j i) : a.linked j = true := h.2 j le_rfl h.1

theorem Chains.precedes_succ (hi : a.linked i = true) :
    a.Precedes j (i + 1) ↔ j = i ∨ a.Precedes j i := by
  constructor
  · rintro ⟨hlt, h⟩
    by_cases hj : j = i
    · exact Or.inl hj
    · exact Or.inr ⟨by omega, fun k hk hki => h k hk (by omega)⟩
  · rintro (rfl | ⟨hlt, h⟩)
    · refine ⟨by omega, fun k hk hki => ?_⟩
      rwa [show k = j by omega]
    · refine ⟨by omega, fun k hk hki => ?_⟩
      by_cases hki' : k = i
      · rwa [hki']
      · exact h k hk (by omega)

theorem Chains.precedes_next (hi : a.linked i = true) : a.Precedes i (i + 1) :=
  (Chains.precedes_succ hi).mpr (Or.inl rfl)

theorem Chains.Precedes.after (h : a.Precedes j k) (hi : a.linked i = false) (hik : i < k) :
    i < j := by
  by_contra hij
  have := h.2 i (by omega) hik
  simp [hi] at this

/-- The head leaves the queue: the front moves past it, over SQEs that left before. -/
theorem Chains.Adjacent.pop {rest : List ℕ} (h : a.Adjacent) (hw : a.WellFormed)
    (hq : a.queue = i :: rest) :
    a.front = i ∧ i < rest.headD a.n ∧ (a.linked i = true → rest.headD a.n = i + 1) ∧
      (rest ++ [a.n]).IsChain (fun x y => a.linked x = true → y = x + 1) ∧
      ∀ j, i < j → j < rest.headD a.n → j ∉ a.queue := by
  obtain ⟨hi, hs, hlt, -⟩ := hw.pop hq
  have hin : i < a.n := by
    by_contra hn
    rw [(hw.born i).mpr (by omega)] at hi
    cases hi
  unfold Chains.Adjacent at h
  rw [hq] at h
  cases rest with
  | nil =>
    simp only [List.cons_append, List.nil_append, List.isChain_cons_cons] at h
    exact ⟨by simp [Chains.front, hq], hin, h.1, h.2, fun j hj _ => by simp [hq, hj.ne']⟩
  | cons y rest =>
    simp only [List.cons_append, List.isChain_cons_cons] at h
    refine ⟨by simp [Chains.front, hq], hlt y (by simp), h.1, h.2, fun j hj hjy => ?_⟩
    rw [List.pairwise_cons] at hs
    rw [hq]
    simp only [List.headD_cons] at hjy
    simp only [List.mem_cons, not_or]
    exact ⟨hj.ne', hjy.ne, fun hmem => absurd (hs.1 j hmem) (by omega)⟩

end Front

/-- What the events say of the SQEs before and behind the front. -/
structure Chains.Judged (a : Chains) (E : ℕ → Prop) (tr : List Event) : Prop where
  adjacent : a.Adjacent
  begun : ∀ i, .start i ∈ tr → i < a.front
  dropped : ∀ i q, .cancel i q ∈ tr → i < a.front
  answered : ∀ i res, .result i res ∈ tr → .start i ∈ tr
  taken : ∀ i, Taken tr i → a.linked i = true → i < a.front
  holds : a.failed = .holds → ∀ j, a.Precedes j a.front → ¬ Taken tr j ∧
    (∀ q, .cancel j q ∉ tr) ∧ ∀ res, .result j res ∈ tr → res < 0 → a.blocking = some j ∨ E j
  fails : a.failed ≠ .holds → ∃ j, a.Precedes j a.front ∧ a.failed = a.verdict j ∧
    (Taken tr j ∨ ∃ res, .result j res ∈ tr ∧ res < 0)
  running : ∀ c, a.stage c = .running → a.took = false →
    a.failed = .holds ∧ (a.linked c = true → a.front = c + 1)
  blocking : ∀ i, a.blocking = some i → a.front = i + 1 ∧ a.failed = .holds
  ticket : ∀ i v, a.ticket = some (i, v) →
    ∃ res, .result i res ∈ tr ∧ v = if res < 0 then a.verdict i else .holds
  returned : ∀ i res, a.stage i = .returned res → .result i res ∈ tr
  live : ∀ i, a.stage i = .running ∨ a.stage i = .held → .start i ∈ tr


section Steps
variable {a a' : Chains} {tr ev : List Event} {act : Act} {E : ℕ → Prop}

@[simp] theorem taken_append (tr ev : List Event) (j : ℕ) :
    Taken (tr ++ ev) j ↔ Taken tr j ∨ Taken ev j := by
  simp only [Taken, List.mem_append]
  grind

@[simp] theorem not_taken_nil (j : ℕ) : ¬ Taken [] j := by simp [Taken]

theorem Chains.verdict_ne_holds (a : Chains) (i : ℕ) : a.verdict i ≠ .holds := by
  unfold Chains.verdict
  split <;> simp

/-- A step that moves no front, and starts and drops nothing. -/
theorem Chains.Judged.still (h : a.Judged E tr) (hfront : a'.front = a.front) (hsqe : a'.sqe = a.sqe)
    (hadj : a'.Adjacent) (hst : ∀ i, .start i ∉ ev) (hcan : ∀ i q, .cancel i q ∉ ev)
    (hans : ∀ i res, .result i res ∈ ev → .start i ∈ tr)
    (htake : ∀ i, Taken ev i → a.linked i = false)
    (holds : a'.failed = .holds → ∀ j, a.Precedes j a.front →
      ∀ res, .result j res ∈ tr ++ ev → res < 0 →
        a'.blocking = some j ∨ E j)
    (holds' : a'.failed = .holds → a.failed = .holds)
    (fails : a'.failed ≠ .holds → a.failed = a'.failed ∨ ∃ j, a.Precedes j a.front ∧
      a'.failed = a.verdict j ∧ ∃ res, .result j res ∈ tr ++ ev ∧ res < 0)
    (running : ∀ c, a'.stage c = .running → a'.took = false →
      a.stage c = .running ∧ a.took = false ∧ a'.failed = a.failed)
    (blocking : ∀ i, a'.blocking = some i →
      (a.blocking = some i ∧ a'.failed = a.failed) ∨ (a.front = i + 1 ∧ a'.failed = .holds))
    (ticket : ∀ i v, a'.ticket = some (i, v) → a.ticket = some (i, v) ∨
      ∃ res, .result i res ∈ ev ∧ v = if res < 0 then a.verdict i else .holds)
    (returned : ∀ i res, a'.stage i = .returned res →
      a.stage i = .returned res ∨ .result i res ∈ ev)
    (live : ∀ i, a'.stage i = .running ∨ a'.stage i = .held →
      a.stage i = .running ∨ a.stage i = .held) : a'.Judged E (tr ++ ev) := by
  have hlinked : a'.linked = a.linked := funext (fun i => by rw [Chains.linked, hsqe]; rfl)
  have hprec (j k : ℕ) : a'.Precedes j k ↔ a.Precedes j k := by simp only [Chains.Precedes, hlinked]
  have hverdict : a'.verdict = a.verdict := funext (fun i => by rw [Chains.verdict, hsqe]; rfl)
  constructor
  · exact hadj
  all_goals simp only [hfront, hlinked, hprec, hverdict, taken_append, List.mem_append]
  · exact fun i hi => h.begun i (hi.resolve_right (hst i))
  · exact fun i q hi => h.dropped i q (hi.resolve_right (hcan i q))
  · exact fun i res hi => Or.inl (hi.elim (h.answered i res) (hans i res))
  · rintro i (hi | hi) hl
    · exact h.taken i hi hl
    · simp [htake i hi] at hl
  · intro hf j hj
    obtain ⟨hnt, hnc, -⟩ := h.holds (holds' hf) j hj
    refine ⟨?_, fun q hq => hq.elim (hnc q) (hcan j q),
      fun res hr => holds hf j hj res (List.mem_append.mpr hr)⟩
    rintro (ht | ht)
    · exact hnt ht
    · simpa [hj.linked] using htake j ht
  · intro hf
    rcases fails hf with he | ⟨j, hj, hv, res, hr, hneg⟩
    · obtain ⟨j, hj, hv, hb⟩ := h.fails (by rwa [he])
      refine ⟨j, hj, by rw [← he, hv], ?_⟩
      rcases hb with hb | ⟨res, hr, hneg⟩
      · exact Or.inl (Or.inl hb)
      · exact Or.inr ⟨res, Or.inl hr, hneg⟩
    · exact ⟨j, hj, hv, Or.inr ⟨res, List.mem_append.mp hr, hneg⟩⟩
  · intro c hc ht
    obtain ⟨hc', ht', hf⟩ := running c hc ht
    rw [hf]
    exact h.running c hc' ht'
  · intro i hi
    rcases blocking i hi with ⟨hi, hf⟩ | hi
    · rw [hf]
      exact h.blocking i hi
    · exact hi
  · intro i v hi
    rcases ticket i v hi with hi | ⟨res, hr, hv⟩
    · obtain ⟨res, hr, hv⟩ := h.ticket i v hi
      exact ⟨res, Or.inl hr, hv⟩
    · exact ⟨res, Or.inr hr, hv⟩
  · exact fun i res hi => (returned i res hi).imp_left (h.returned i res)
  · exact fun i hi => Or.inl (h.live i (live i hi))

theorem Chains.failedAfter_cases (a : Chains) (i : ℕ) (res : Int32) :
    (res < 0 ∧ a.linked i = true ∧ a.failedAfter i res = a.verdict i) ∨
      ((res < 0 → a.linked i = false) ∧ a.failedAfter i res = a.failed) := by
  unfold Chains.failedAfter
  by_cases h : res < 0 ∧ a.linked i = true
  · exact Or.inl ⟨h.1, h.2, if_pos h⟩
  · exact Or.inr ⟨by simpa using h, if_neg h⟩

theorem Chains.WellFormed.one_running (hw : a.WellFormed) {i : ℕ} (hs : a.stage i = .running)
    (c : ℕ) (hc : a.stage c = .running) : c = i :=
  Option.some.inj ((hw.running c hc).1.symm.trans (hw.running i hs).1)

theorem Chains.WellFormed.none_running (hw : a.WellFormed) (hc : a.current = none) (c : ℕ) :
    a.stage c ≠ .running := fun hs => by cases hc.symm.trans (hw.running c hs).1

theorem Chains.WellFormed.front_le (hw : a.WellFormed) : a.front ≤ a.n := by
  unfold Chains.front
  cases hq : a.queue with
  | nil => simp
  | cons i rest =>
    by_contra hlt
    have hi := (hw.queued i).mp (by simp [hq])
    rw [(hw.born i).mpr (by simpa using (not_le.mp hlt).le)] at hi
    cases hi

theorem Chains.WellFormed.front_le_of_mem (hw : a.WellFormed) {i : ℕ} (hi : i ∈ a.queue) :
    a.front ≤ i := by
  have hs := hw.sorted
  unfold Chains.front
  cases hq : a.queue with
  | nil => simp [hq] at hi
  | cons k rest =>
    rw [hq, List.pairwise_cons] at hs
    rw [hq, List.mem_cons] at hi
    rcases hi with rfl | hi
    · exact le_rfl
    · exact (hs.1 i hi).le

section Still
variable {i : ℕ} {res : Int32} {g : Option Cqe} (h : a.Judged E tr) (hw : a.WellFormed)
include h

theorem Chains.Judged.same (hf : a'.failed = a.failed) (hfront : a'.front = a.front)
    (hsqe : a'.sqe = a.sqe) (hadj : a'.Adjacent) (hb : a'.blocking = a.blocking) (htk : a'.ticket = a.ticket)
    (hst : ∀ i, .start i ∉ ev) (hcan : ∀ i q, .cancel i q ∉ ev)
    (hans : ∀ i res, .result i res ∈ ev → .start i ∈ tr ∧ (a.linked i = true → a.blocking = some i))
    (htake : ∀ i, Taken ev i → a.linked i = false)
    (running : ∀ c, a'.stage c = .running → a'.took = false → a.stage c = .running ∧ a.took = false)
    (returned : ∀ i res, a'.stage i = .returned res →
      a.stage i = .returned res ∨ .result i res ∈ ev)
    (live : ∀ i, a'.stage i = .running ∨ a'.stage i = .held →
      a.stage i = .running ∨ a.stage i = .held) : a'.Judged E (tr ++ ev) := by
  refine h.still hfront hsqe hadj hst hcan (fun i res hi => (hans i res hi).1) htake
    (fun hf' j hj res hr _ => ?_)
    (fun hf' => hf ▸ hf') (fun _ => Or.inl hf.symm)
    (fun c hc ht => ⟨(running c hc ht).1, (running c hc ht).2, hf⟩)
    (fun i hi => Or.inl ⟨hb ▸ hi, hf⟩) (fun i v hi => Or.inl (htk ▸ hi)) returned live
  rw [hb]
  rcases List.mem_append.mp hr with hr | hr
  · exact (h.holds (hf ▸ hf') j hj).2.2 res hr ‹_›
  · exact Or.inl ((hans j res hr).2 hj.linked)

include hw

theorem Chains.Judged.answer (hs : a.stage i = .running) (hC : a.took = true → 0 ≤ res) :
    Chains.Judged { a.setStage i (.posting res) with failed := a.failedAfter i res } E
      (tr ++ [.result i res]) := by
  have hst := h.live i (Or.inl hs)
  have hrun := h.running i hs
  have hone := hw.one_running hs
  have hcases := a.failedAfter_cases i res
  have hne := a.verdict_ne_holds i
  have hnext := a.precedes_next (i := i)
  have hnb := (hw.running i hs).2
  refine h.still rfl rfl h.adjacent (by simp) (by simp) (by simpa using hst) (by simp [Taken]) ?_ ?_ ?_ ?_ ?_ ?_
    ?_ ?_
  · intro hf j hj r hr hneg
    have hl := hj.linked
    have hold := h.holds
    simp only [Chains.setStage] at hf ⊢
    grind
  all_goals grind [Chains.setStage]

theorem Chains.Judged.hold (hs : a.stage i = .running) (hC : a.took = false) :
    Chains.Judged { a.setStage i .held with
      blocking := if a.linked i then some i else a.blocking } E tr := by
  have hrun := h.running i hs hC
  have hone := hw.one_running hs
  have hnb := (hw.running i hs).2
  rw [← List.append_nil tr]
  refine h.still rfl rfl h.adjacent (by simp) (by simp) (by simp) (by simp) ?_ ?_ ?_ ?_ ?_ ?_ ?_ ?_
  · intro hf j hj r hr hneg
    have hold := (h.holds hf j hj).2.2 r (by simpa using hr) hneg
    rw [hnb] at hold
    exact Or.inr (hold.resolve_left (by simp))
  all_goals grind [Chains.setStage]

theorem Chains.Judged.handBack (hs : a.stage i = .held) :
    (a.setStage i (.returned res)).Judged E (tr ++ [.result i res]) := by
  have hst := h.live i (Or.inr hs)
  have hheld := hw.held i hs
  refine h.same rfl rfl rfl h.adjacent rfl rfl (by simp) (by simp) ?_ (by simp [Taken]) ?_ ?_ ?_
  all_goals grind [Chains.setStage]

/-- The pending op ends with a verdict: the rest of its chain is at the front. -/
theorem Chains.Judged.resolved {v : ChainFailed} (hb : a.blocking = some i)
    (hres : .result i res ∈ tr) (hv : v = if res < 0 then a.verdict i else .holds)
    (hone : ∀ r, .result i r ∈ tr → r = res) (hfront' : a'.front = a.front)
    (hsqe : a'.sqe = a.sqe) (hadj : a'.Adjacent) (hf : a'.failed = if v = .holds then a.failed else v)
    (hb' : a'.blocking = none) (htk : ∀ i v, a'.ticket = some (i, v) → a.ticket = some (i, v))
    (hst : ∀ j, a'.stage j = a.stage j ∨ a'.stage j = .closed)
    (hev : ∀ e ∈ ev, ∃ i g, e = .give i g) : a'.Judged E (tr ++ ev) := by
  obtain ⟨hfront, hholds⟩ := h.blocking i hb
  have hl := (hw.blocking i hb).1
  have hne := a.verdict_ne_holds i
  refine h.still hfront' hsqe hadj (fun j hj => ?_) (fun j q hj => ?_) (fun j r hj => ?_)
    (fun j hj => ?_) ?_ ?_ ?_
    ?_ ?_ (fun j w hj => Or.inl (htk j w hj)) ?_ ?_
  · obtain ⟨k, g, hk⟩ := hev _ hj
    cases hk
  · obtain ⟨k, g, hk⟩ := hev _ hj
    cases hk
  · obtain ⟨k, g, hk⟩ := hev _ hj
    cases hk
  · obtain ⟨c, sc, st, hj⟩ := hj
    obtain ⟨k, g, hk⟩ := hev _ hj
    cases hk
  · intro hf' j hj r hr hneg
    have hr' : .result j r ∈ tr := by
      rcases List.mem_append.mp hr with hr | hr
      · exact hr
      · obtain ⟨k, g, hk⟩ := hev _ hr
        cases hk
    rcases (h.holds hholds j hj).2.2 r hr' hneg with hbj | hmsg
    · cases hb.symm.trans hbj
      cases hone r hr'
      rw [if_pos hneg] at hv
      rw [hf, hv, if_neg hne] at hf'
      exact absurd hf' hne
    · exact Or.inr hmsg
  · exact fun _ => hholds
  · intro hf'
    by_cases hneg : res < 0
    · rw [if_pos hneg] at hv
      rw [hv, if_neg hne] at hf
      exact Or.inr ⟨i, hfront ▸ Chains.precedes_next hl, hf, res, List.mem_append_left _ hres, hneg⟩
    · rw [if_neg hneg] at hv
      rw [hf, if_pos hv] at hf'
      exact absurd hholds hf'
  · intro c hc
    have hrun : a.stage c = .running := by
      rcases hst c with hc' | hc'
      · exact hc'.symm.trans hc
      · cases hc'.symm.trans hc
    cases hb.symm.trans (hw.running c hrun).2
  · intro j hj
    cases hb'.symm.trans hj
  · intro j r hj
    rcases hst j with hj' | hj'
    · exact Or.inl (hj'.symm.trans hj)
    · cases hj'.symm.trans hj
  · intro j hj
    rcases hst j with hj' | hj'
    · rwa [hj'] at hj
    · simp [hj'] at hj

theorem Chains.Judged.complete (hs : a.stage i = .returned res)
    (hone : ∀ r, .result i r ∈ tr → r = res) :
    Chains.Judged { a.setStage i .closed with
      blocking := if a.blocking = some i then none else a.blocking
      failed := if a.blocking = some i then if res < 0 then a.verdict i else a.failed
        else a.failedAfter i res } E (tr ++ [.give i g]) := by
  have hres := h.returned i res hs
  by_cases hb : a.blocking = some i
  · have hholds := (h.blocking i hb).2
    refine h.resolved hw hb hres rfl hone rfl rfl h.adjacent ?_ (by simp [hb]) (fun _ _ hj => hj)
      (fun j => ?_) (by simp)
    · by_cases hneg : res < 0
      · simp [hb, hneg, a.verdict_ne_holds]
      · simp [hb, hneg]
    · by_cases hj : j = i <;> simp [Chains.setStage, hj]
  · have hl : a.linked i = false := by
      by_contra hl
      exact hb (hw.returned i res hs (by simpa using hl))
    refine h.same ?_ rfl rfl h.adjacent (by simp [hb]) rfl (by simp) (by simp) (by simp)
      (by simp [Taken]) ?_ ?_ ?_
    · simp [hb, Chains.failedAfter, hl]
    all_goals grind [Chains.setStage]

theorem Chains.Judged.finish (hs : a.stage i = .held) :
    Chains.Judged { a.setStage i (.off res) with
      ticket := if a.linked i then some (i, if res < 0 then a.verdict i else .holds)
        else a.ticket } E (tr ++ [.result i res]) := by
  have hst := h.live i (Or.inr hs)
  have hheld := hw.held i hs
  refine h.still rfl rfl h.adjacent (by simp) (by simp) (by simpa using hst) (by simp [Taken]) ?_ ?_ ?_ ?_ ?_ ?_
    ?_ ?_
  · intro hf j hj r hr hneg
    have hl := hj.linked
    have hold := h.holds
    simp only [Chains.setStage] at hf ⊢
    grind
  all_goals grind [Chains.setStage]

theorem Chains.Judged.settle {v : ChainFailed} (ht : a.ticket = some (i, v))
    (hb : a.blocking = some i)
    (hone : ∀ r r', .result i r ∈ tr → .result i r' ∈ tr → r = r') :
    Chains.Judged { a with
      blocking := none, ticket := none, failed := if v = .holds then a.failed else v } E tr := by
  obtain ⟨res, hres, hv⟩ := h.ticket i v ht
  rw [← List.append_nil tr]
  exact h.resolved hw hb hres hv (fun r hr => hone r res hr hres) rfl rfl h.adjacent rfl rfl
    (fun _ _ hj => by cases hj) (fun j => Or.inl rfl) (by simp)

theorem Chains.Judged.takeHeld {t c : ℕ} {sc st : Sqe} (hb : a.blocking = none)
    (hs : a.stage t = .held) :
    Chains.Judged { a.setStage t .closed with
      took := true
      blocking := if a.blocking = some t then none else a.blocking
      failed := if a.blocking = some t ∨ a.linked t then a.verdict t else a.failed } E
      (tr ++ [.take c t sc st, .give t g]) := by
  have hl : a.linked t = false := by
    by_contra hl
    cases hb.symm.trans (hw.held t hs (by simpa using hl))
  refine h.same ?_ rfl rfl h.adjacent ?_ rfl (by simp) (by simp) (by simp) ?_ ?_ ?_ ?_
  · simp [hb, hl]
  · simp [hb]
  · rintro j ⟨c', sc', st', hj⟩
    simp only [List.mem_cons, Event.take.injEq, reduceCtorEq, List.not_mem_nil, or_false] at hj
    rw [hj.2.1, hl]
  all_goals grind [Chains.setStage]

/-- The head leaves the queue: started, cancelled or taken. -/
theorem Chains.Judged.advance {rest : List ℕ} (hb : a.blocking = none) (hq : a.queue = i :: rest)
    (hfresh : ¬ Taken tr i ∧ ∀ r, .result i r ∉ tr) (hn : a'.n = a.n) (hsqe : a'.sqe = a.sqe)
    (hq' : a'.queue = rest) (hb' : a'.blocking = a.blocking) (htk : a'.ticket = a.ticket)
    (hstart : ∀ j, .start j ∈ ev → j = i) (hcan : ∀ j q, .cancel j q ∈ ev → j = i)
    (hans : ∀ j r, .result j r ∈ ev → j = i ∧ .start i ∈ ev) (htake : ∀ j, Taken ev j → j = i)
    (holds : a'.failed = .holds → a.linked i = true → a.failed = .holds ∧ ¬ Taken ev i ∧
      (∀ q, .cancel i q ∉ ev) ∧ ∀ r, .result i r ∈ ev → r < 0 → E i)
    (fails : a'.failed ≠ .holds → a.linked i = true ∧ (a'.failed = a.failed ∨
      (a'.failed = a.verdict i ∧ (Taken ev i ∨ ∃ r, .result i r ∈ ev ∧ r < 0))))
    (running : ∀ c, a'.stage c = .running → a'.took = false → c = i ∧ a'.failed = .holds)
    (returned : ∀ j r, a'.stage j = .returned r → a.stage j = .returned r)
    (live : ∀ j, a'.stage j = .running ∨ a'.stage j = .held →
      a.stage j = .running ∨ a.stage j = .held ∨ .start j ∈ ev) : a'.Judged E (tr ++ ev) := by
  obtain ⟨hfront, hlt, hnext, hchain, -⟩ := h.adjacent.pop hw hq
  have hlinked : a'.linked = a.linked := funext (fun i => by rw [Chains.linked, hsqe]; rfl)
  have hprec (j k : ℕ) : a'.Precedes j k ↔ a.Precedes j k := by simp only [Chains.Precedes, hlinked]
  have hverdict : a'.verdict = a.verdict := funext (fun i => by rw [Chains.verdict, hsqe]; rfl)
  have hfront' : a'.front = rest.headD a.n := by rw [Chains.front, hq', hn]
  constructor
  · rw [Chains.Adjacent, hq', hn, hlinked]
    exact hchain
  all_goals simp only [hfront', hlinked, hprec, hverdict, taken_append, List.mem_append]
  · rintro j (hj | hj)
    · exact ((h.begun j hj).trans_eq hfront).trans hlt
    · rwa [hstart j hj]
  · rintro j q (hj | hj)
    · exact ((h.dropped j q hj).trans_eq hfront).trans hlt
    · rwa [hcan j q hj]
  · rintro j r (hj | hj)
    · exact Or.inl (h.answered j r hj)
    · obtain ⟨rfl, hs⟩ := hans j r hj
      exact Or.inr hs
  · rintro j (hj | hj) hl
    · exact ((h.taken j hj hl).trans_eq hfront).trans hlt
    · rwa [htake j hj]
  · intro hf j hj
    cases hl : a.linked i with
    | false =>
      -- nothing behind the head of the queue was started, and only unlinked ops were taken there
      have hij := hj.after hl hlt
      refine ⟨?_, ?_, fun r hr hneg => ?_⟩
      · rintro (ht | ht)
        · have := h.taken j ht hj.linked
          omega
        · have := htake j ht
          omega
      · rintro q (hq | hq)
        · have := h.dropped j q hq
          omega
        · have := hcan j q hq
          omega
      · rcases hr with hr | hr
        · have := h.begun j (h.answered j r hr)
          omega
        · have := (hans j r hr).1
          omega
    | true =>
      obtain ⟨hholds, hnt, hnc, hmsg⟩ := holds hf hl
      rw [hnext hl] at hj
      rcases (Chains.precedes_succ hl).mp hj with rfl | hj
      · refine ⟨fun ht => ht.elim hfresh.1 hnt, fun q hq => hq.elim (fun hq => ?_) (hnc q),
          fun r hr hneg => Or.inr ?_⟩
        · exact absurd (h.dropped j q hq) (by omega)
        exact hmsg r (hr.resolve_left (hfresh.2 r)) hneg
      · obtain ⟨hnt', hnc', hres⟩ := h.holds hholds j (hfront ▸ hj)
        have hne := hj.1.ne
        refine ⟨fun ht => ht.elim hnt' (fun ht => hne (htake j ht)),
          fun q hq => hq.elim (hnc' q) (fun hq => hne (hcan j q hq)), fun r hr hneg => ?_⟩
        rcases hr with hr | hr
        · rw [hb']
          exact hres r hr hneg
        · exact absurd (hans j r hr).1 hne
  · intro hf
    obtain ⟨hl, he | ⟨he, hbad⟩⟩ := fails hf
    · obtain ⟨j, hj, hv, hbad⟩ := h.fails (by rwa [← he])
      rw [hfront] at hj
      refine ⟨j, ?_, he.trans hv, ?_⟩
      · rw [hnext hl]
        exact (Chains.precedes_succ hl).mpr (Or.inr hj)
      · rcases hbad with ht | ⟨r, hr, hneg⟩
        · exact Or.inl (Or.inl ht)
        · exact Or.inr ⟨r, Or.inl hr, hneg⟩
    · refine ⟨i, hnext hl ▸ Chains.precedes_next hl, he, ?_⟩
      rcases hbad with ht | ⟨r, hr, hneg⟩
      · exact Or.inl (Or.inr ht)
      · exact Or.inr ⟨r, Or.inr hr, hneg⟩
  · intro c hc ht
    obtain ⟨rfl, hf⟩ := running c hc ht
    exact ⟨hf, hnext⟩
  · intro j hj
    cases (hb'.trans hb).symm.trans hj
  · intro j v hj
    obtain ⟨r, hr, hv⟩ := h.ticket j v (htk ▸ hj)
    exact ⟨r, Or.inl hr, hv⟩
  · exact fun j r hj => Or.inl (h.returned j r (returned j r hj))
  · intro j hj
    rcases live j hj with hj | hj | hj
    · exact Or.inl (h.live j (Or.inl hj))
    · exact Or.inl (h.live j (Or.inr hj))
    · exact Or.inr hj

omit hw in
/-- A cancel takes an op further back. -/
theorem Chains.Judged.takeBehind {t x : ℕ} {pre suf : List ℕ} (c : ℕ) (sc st : Sqe)
    (hq : a.queue = pre ++ x :: t :: suf) (hx : a.linked x = false) (ht : a.linked t = false) :
    Chains.Judged { a.setStage t .closed with
      queue := pre ++ x :: suf, took := true
      failed := if a.linked t then a.verdict t else a.failed } E
      (tr ++ [.take c t sc st, .give t g]) := by
  refine h.same ?_ ?_ rfl ?_ rfl rfl (by simp) (by simp) (by simp) ?_ ?_ ?_ ?_
  · simp [ht]
  · simp only [Chains.front, hq]
    cases pre <;> rfl
  · have hadj := h.adjacent
    unfold Chains.Adjacent at hadj
    rw [hq, List.append_assoc, List.cons_append, List.cons_append, List.isChain_split,
      List.isChain_cons_cons] at hadj
    have hsuf : (suf ++ [a.n]).IsChain (fun y z => a.linked y = true → z = y + 1) := hadj.2.2.tail
    show (pre ++ x :: suf ++ [a.n]).IsChain (fun y z => a.linked y = true → z = y + 1)
    rw [List.append_assoc, List.cons_append, List.isChain_split, List.isChain_cons_iff]
    refine ⟨hadj.1, Or.inr ?_⟩
    cases suf with
    | nil => exact ⟨a.n, [], by simp [hx], hsuf, rfl⟩
    | cons y suf => exact ⟨y, suf ++ [a.n], by simp [hx], hsuf, rfl⟩
  · rintro j ⟨c', sc', st', hj⟩
    simp only [List.mem_cons, Event.take.injEq, reduceCtorEq, List.not_mem_nil, or_false] at hj
    rw [hj.2.1, ht]
  all_goals grind [Chains.setStage]

theorem Chains.Judged.accept (sqe : Sqe) (hfresh : ¬ Taken tr a.n) :
    Chains.Judged { a with
      n := a.n + 1
      sqe := fun j => if j = a.n then sqe else a.sqe j
      stage := fun j => if j = a.n then .queued else a.stage j
      queue := a.queue ++ [a.n] } E (tr ++ [.accept a.n sqe]) := by
  generalize ha' : ({ a with
    n := a.n + 1
    sqe := fun j => if j = a.n then sqe else a.sqe j
    stage := fun j => if j = a.n then .queued else a.stage j
    queue := a.queue ++ [a.n] } : Chains) = a'
  have hsqe (j : ℕ) (hj : j ≠ a.n) : a'.sqe j = a.sqe j := by
    rw [← ha']
    exact if_neg hj
  have hstage (j : ℕ) : a'.stage j = if j = a.n then .queued else a.stage j := by rw [← ha']
  have hsame : a'.failed = a.failed ∧ a'.blocking = a.blocking ∧ a'.took = a.took ∧
      a'.ticket = a.ticket := by
    rw [← ha']
    exact ⟨rfl, rfl, rfl, rfl⟩
  obtain ⟨hfailed, hblocking, htook, hticket⟩ := hsame
  have hlinked (j : ℕ) (hj : j ≠ a.n) : a'.linked j = a.linked j := by
    rw [Chains.linked, hsqe j hj]
    rfl
  have hverdict (j : ℕ) (hj : j ≠ a.n) : a'.verdict j = a.verdict j := by
    rw [Chains.verdict, hsqe j hj]
    rfl
  have hfront : a'.front = a.front := by
    rw [← ha']
    unfold Chains.front
    cases a.queue <;> rfl
  have hle := hw.front_le
  have hprec (j : ℕ) : a'.Precedes j a.front ↔ a.Precedes j a.front := by
    refine and_congr_right (fun _ => forall_congr' (fun k => forall_congr' (fun _ =>
      forall_congr' (fun hk => ?_))))
    rw [hlinked k (by omega)]
  have htaken (j : ℕ) : Taken [.accept a.n sqe] j ↔ False := by simp [Taken]
  constructor
  · have hadj := h.adjacent
    have hmem (x : ℕ) (hx : x ∈ a.queue) : x ≠ a.n := by
      rintro rfl
      have hx := (hw.queued a.n).mp hx
      rw [(hw.born a.n).mpr le_rfl] at hx
      cases hx
    unfold Chains.Adjacent at hadj ⊢
    rw [List.isChain_append] at hadj
    obtain ⟨hqueue, -, hlast⟩ := hadj
    rw [← ha', List.append_assoc, List.singleton_append, List.isChain_split, List.isChain_append, ha']
    refine ⟨⟨hqueue.imp_of_mem_imp (fun x y hx _ hxy hl => hxy ?_), List.isChain_singleton _,
      fun x hx y hy hl => hlast x hx y hy ?_⟩, by simp [← ha']⟩
    · rwa [← hlinked x (hmem x (List.mem_of_getLast? hx))]
    · rwa [← hlinked x (hmem x hx)]
  all_goals simp only [hfront, hfailed, hblocking, htook, hticket, hprec, taken_append, htaken,
    or_false, List.mem_append, List.mem_singleton, reduceCtorEq]
  · exact h.begun
  · exact h.dropped
  · exact h.answered
  · intro j hj hl
    have hjn : j ≠ a.n := by
      rintro rfl
      exact hfresh hj
    exact h.taken j hj (hlinked j hjn ▸ hl)
  · exact h.holds
  · intro hf
    obtain ⟨j, hj, hv, hbad⟩ := h.fails hf
    have hjn : j ≠ a.n := by
      have := hj.1
      omega
    exact ⟨j, hj, (hverdict j hjn) ▸ hv, hbad⟩
  · intro c hc ht
    rw [hstage] at hc
    split at hc
    · cases hc
    · next hcn =>
      rw [hlinked c hcn]
      exact h.running c hc ht
  · exact h.blocking
  · intro j v hj
    have hjn : j ≠ a.n := by
      rintro rfl
      exact (hw.blocking a.n (hw.ticket _ v hj).1).2.1 ((hw.born a.n).mpr le_rfl)
    rw [hverdict j hjn]
    exact h.ticket j v hj
  · intro j r hj
    rw [hstage] at hj
    split at hj
    · cases hj
    · exact h.returned j r hj
  · intro j hj
    rw [hstage] at hj
    split at hj
    · simp at hj
    · exact h.live j hj

end Still

end Steps

theorem mem_finishes_of_result {tr : List Event} {i : ℕ} {r : Int32} (h : .result i r ∈ tr) :
    some r ∈ finishes tr i :=
  List.mem_filterMap.mpr ⟨_, h, by simp [finishOf]⟩

theorem Taken.mem_finishes {tr : List Event} {i : ℕ} (h : Taken tr i) :
    some (-ecanceled) ∈ finishes tr i := by
  obtain ⟨c, sc, st, h⟩ := h
  exact List.mem_filterMap.mpr ⟨_, h, by simp [finishOf]⟩

theorem Act.Step.judged {a a' : Chains} {act : Act} {tr ev : List Event} {E : ℕ → Prop} (hw : a.WellFormed)
    (hacc : ∀ i, a.Accounts tr i (a.stage i)) (h : a.Judged E tr) (hC : Clean E a act)
    (hs : act.Step a ev a') : a'.Judged E (tr ++ ev) := by
  have hfresh (i : ℕ) (hi : finishes tr i = []) : ¬ Taken tr i ∧ ∀ r, .result i r ∉ tr := by
    refine ⟨fun ht => ?_, fun r hr => ?_⟩
    · exact absurd (ht.mem_finishes) (by simp [hi])
    · exact absurd (mem_finishes_of_result hr) (by simp [hi])
  have hone {i : ℕ} {how : Option Int32} (hi : finishes tr i = [how]) (r : Int32)
      (hr : .result i r ∈ tr) : some r = how := by
    simpa [hi] using mem_finishes_of_result hr
  have hqueued {i : ℕ} {rest : List ℕ} (hq : a.queue = i :: rest) :
      ¬ Taken tr i ∧ ∀ r, .result i r ∉ tr := by
    have hi := hacc i
    rw [(hw.pop hq).1] at hi
    exact hfresh i hi.1
  cases hs with
  | accept sqe =>
    have hn := hacc a.n
    rw [(hw.born a.n).mpr le_rfl] at hn
    exact h.accept hw sqe (hfresh a.n hn.1).1
  | answer hc hs => exact h.answer hw hs hC
  | post hc hs hg =>
    refine h.same rfl rfl rfl h.adjacent rfl rfl (by simp) (by simp) (by simp)
      (by simp [Taken]) ?_ ?_ ?_
    all_goals grind [Chains.setStage]
  | hold hc hs =>
    rw [List.append_nil]
    exact h.hold hw hs hC
  | pend hc hs hp =>
    refine h.same rfl rfl rfl h.adjacent rfl rfl (by simp) (by simp) (by simp) (by simp)
      (fun c hr ht => ⟨hr, ht⟩) (fun i r hr => Or.inl hr) (fun i hi => hi)
  | handBack hc hs => exact h.handBack hw hs
  | @complete i res g hc hs hg =>
    have hi := hacc i
    rw [hs] at hi
    exact h.complete hw hs (fun r hr => Option.some.inj (hone hi.1 r hr))
  | finish hs => exact h.finish hw hs
  | offPost hs hg =>
    refine h.same rfl rfl rfl h.adjacent rfl rfl (by simp) (by simp) (by simp)
      (by simp [Taken]) ?_ ?_ ?_
    all_goals grind [Chains.setStage]
  | @settle i v hc ht hb =>
    have hi := hacc i
    have honly : ∃ how, finishes tr i = [how] := by
      rcases (hw.ticket i v ht).2 with ⟨r, hoff⟩ | hclosed
      · rw [hoff] at hi
        exact ⟨_, hi.1⟩
      · rw [hclosed] at hi
        exact ⟨_, hi.choose_spec.choose_spec.1⟩
    obtain ⟨how, honly⟩ := honly
    rw [List.append_nil]
    exact h.settle hw ht hb (fun r r' hr hr' =>
      Option.some.inj ((hone honly r hr).trans (hone honly r' hr').symm))
  | takeHeld hc hr hs hg => exact h.takeHeld hw (hw.running _ hr).2 hs
  | @takeQueued c t pre suf g sc st hc hr hq hg =>
    obtain ⟨hhead, hbehind⟩ := hC pre suf hq
    have hb := (hw.running c hr).2
    have htake (j : ℕ) (hj : Taken [.take c t sc st, .give t g] j) : j = t := by
      simpa [Taken, eq_comm] using hj
    rcases List.eq_nil_or_concat pre with rfl | ⟨pre, x, rfl⟩
    · have hclean := hhead rfl
      have hne := a.verdict_ne_holds t
      refine h.advance hw hb hq (hqueued hq) rfl rfl rfl rfl rfl (by simp) (by simp) (by simp) htake
        ?_ ?_ (by simp) ?_ ?_
      · grind
      · intro hf
        have hl : a.linked t = true := by grind
        exact ⟨hl, Or.inr ⟨if_pos hl, Or.inl (by simp [Taken])⟩⟩
      all_goals grind [Chains.setStage]
    · rw [List.concat_eq_append] at *
      obtain ⟨hx, ht⟩ := hbehind x (by simp)
      have hbeh := h.takeBehind (g := g) c sc st (by simpa using hq) hx ht
      simpa using hbeh
  | @cancelLoud i rest hc hb hq hf =>
    have hno := hw.none_running hc
    refine h.advance hw hb hq (hqueued hq) rfl rfl rfl rfl rfl (by simp) (by simp [eq_comm]) (by simp)
      (by simp [Taken]) ?_ ?_ ?_ ?_ ?_
    all_goals grind [Chains.setStage]
  | @cancelQuiet i rest hc hb hq hf =>
    have hno := hw.none_running hc
    refine h.advance hw hb hq (hqueued hq) rfl rfl rfl rfl rfl (by simp) (by simp [eq_comm]) (by simp)
      (by simp [Taken]) ?_ ?_ ?_ ?_ ?_
    all_goals grind [Chains.setStage]
  | @fail i rest res hc hb hq hf hres =>
    have hno := hw.none_running hc
    have hcases := a.failedAfter_cases i res
    have hne := a.verdict_ne_holds i
    refine h.advance hw hb hq (hqueued hq) rfl rfl rfl rfl rfl (by simp [eq_comm]) (by simp)
      (by simp [eq_comm]) (by simp [Taken]) ?_ ?_ ?_ ?_ ?_
    all_goals grind [Chains.setStage]
  | @message i rest res hc hb hq hf ho =>
    have hno := hw.none_running hc
    refine h.advance hw hb hq (hqueued hq) rfl rfl rfl rfl rfl (by simp [eq_comm]) (by simp)
      (by simp [eq_comm]) (by simp [Taken]) ?_ ?_ ?_ ?_ ?_
    all_goals grind [Chains.setStage, Taken, Clean]
  | @begin i rest hc hb hq hf =>
    have hno := hw.none_running hc
    refine h.advance hw hb hq (hqueued hq) rfl rfl rfl rfl rfl (by simp [eq_comm]) (by simp)
      (by simp) (by simp [Taken]) ?_ ?_ ?_ ?_ ?_
    all_goals grind [Chains.setStage, Taken]

theorem History.judged {E : ℕ → Prop} {tr : List Event} {a : Chains} (h : History (Clean E) tr a) :
    a.Judged E tr := by
  refine h.invariant (fun tr a => a.Judged E tr) ?_ ?_
  · constructor <;> simp [Chains.Adjacent, Chains.front, Chains.Precedes, Taken]
  · rintro tr a ev a' hist hj ⟨act, hC, hs⟩
    obtain ⟨hw, hacc, -⟩ := History.accounts hist
    exact hs.judged hw hacc hj hC

end SlipstreamIO.Engine
