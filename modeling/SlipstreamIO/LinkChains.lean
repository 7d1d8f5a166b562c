import SlipstreamIO.ChainVerdicts

/-! Link chains: in which order their members start, what a failing member does to the rest, and the
failing member that does nothing to it. -/
namespace SlipstreamIO.Engine

open Runs ThreadedList

/-- The chain rules, as the abstract ring keeps them whatever its cancels take. -/
structure Chains.Lawful (a : Chains) (E : ℕ → Prop) (tr : List Event) : Prop where
  stops : ∀ j i, a.Precedes j i → (Taken tr j ∨
    ∃ res, .result j res ∈ tr ∧ res < 0 ∧ ¬ E j) → .start i ∉ tr
  drops : ∀ i q, .cancel i q ∈ tr → ∃ j, a.Precedes j i ∧ q = (a.sqe j).flags.cqeSkipSuccess ∧
    (Taken tr j ∨ ∃ res, .result j res ∈ tr ∧ res < 0)
  order : AtEach (fun pre e => ∀ i, e = .start i → ∀ j, a.Precedes j i → ∃ res, .result j res ∈ pre) tr

section Step
variable {a a' : Chains} {tr ev : List Event} {act : Act} {E : ℕ → Prop}

/-- When the front is to be started, every earlier member of its chain has its result. -/
theorem Chains.Judged.before_front (h : a.Judged E tr) (hw : a.WellFormed)
    (hacc : ∀ i, a.Accounts tr i (a.stage i)) (hf : a.failed = .holds) (hc : a.current = none)
    (hb : a.blocking = none) {j : ℕ} (hj : a.Precedes j a.front) :
    ¬ Taken tr j ∧ (∃ res, .result j res ∈ tr) ∧
      ∀ res, .result j res ∈ tr → res < 0 → E j := by
  obtain ⟨hnt, hnc, hres⟩ := h.holds hf j hj
  refine ⟨hnt, ?_, fun res hr hneg => (hres res hr hneg).resolve_left (by simp [hb])⟩
  have hfin : ∃ how, finishes tr j = [how] := by
    have haj := hacc j
    have hlt := hj.1
    have hle := hw.front_le
    have hlj := hj.linked
    cases hst : a.stage j with
    | unborn =>
      have := (hw.born j).mp hst
      omega
    | queued =>
      have := hw.front_le_of_mem ((hw.queued j).mpr hst)
      omega
    | running => exact absurd hst (hw.none_running hc j)
    | posting res => cases hc.symm.trans (hw.posting j res hst).1
    | held => cases hb.symm.trans (hw.held j hst hlj)
    | returned res => cases hb.symm.trans (hw.returned j res hst hlj)
    | off res =>
      rw [hst] at haj
      exact ⟨_, haj.1⟩
    | closed =>
      rw [hst] at haj
      exact ⟨_, haj.choose_spec.choose_spec.1⟩
  obtain ⟨how, hfin⟩ := hfin
  have hmem : how ∈ finishes tr j := by simp [hfin]
  obtain ⟨e, he, hej⟩ := List.mem_filterMap.mp hmem
  cases e with
  | result k res =>
    simp only [finishOf, Option.ite_none_right_eq_some] at hej
    exact ⟨res, hej.1 ▸ he⟩
  | cancel k q =>
    simp only [finishOf, Option.ite_none_right_eq_some] at hej
    exact absurd (hej.1 ▸ he) (hnc q)
  | take c k sc st =>
    simp only [finishOf, Option.ite_none_right_eq_some] at hej
    exact absurd ⟨c, sc, st, hej.1 ▸ he⟩ hnt
  | _ => simp [finishOf] at hej

/-- A step that accepts nothing: what it starts or drops is the front, and it breaks a chain only where
no later member has started. -/
theorem Chains.Lawful.next (h : a.Lawful E tr) (hj : a.Judged E tr) (hw : a.WellFormed)
    (hacc : ∀ i, a.Accounts tr i (a.stage i)) (hsqe : a'.sqe = a.sqe)
    (hstart : ∀ i, .start i ∈ ev → i = a.front ∧ a.failed = .holds ∧ a.current = none ∧
      a.blocking = none ∧ (∀ j, ¬ Taken ev j) ∧ ∀ j res, .result j res ∈ ev → j = i)
    (hbreak : ∀ j, a.linked j = true → (Taken ev j ∨ ∃ res, .result j res ∈ ev ∧ res < 0) →
      a.front ≤ j + 1)
    (hcan : ∀ i q, .cancel i q ∈ ev → i = a.front ∧ a.failed ≠ .holds ∧
      (q = true ↔ a.failed = .cancelsQuietly)) : a'.Lawful E (tr ++ ev) := by
  have hlinked : a'.linked = a.linked := funext (fun i => by rw [Chains.linked, hsqe]; rfl)
  have hprec (j k : ℕ) : a'.Precedes j k ↔ a.Precedes j k := by simp only [Chains.Precedes, hlinked]
  have hbefore {i j : ℕ} (hi : .start i ∈ ev) (hji : a.Precedes j i) :
      ¬ Taken tr j ∧ (∃ res, .result j res ∈ tr) ∧
        ∀ res, .result j res ∈ tr → res < 0 → E j := by
    obtain ⟨rfl, hf, hc, hb, -⟩ := hstart i hi
    exact hj.before_front hw hacc hf hc hb hji
  constructor
  · intro j i hji hbad hi
    rw [hprec] at hji
    rcases List.mem_append.mp hi with hi | hi
    · have hlt := hj.begun i hi
      have hnew (hbad : Taken ev j ∨ ∃ res, .result j res ∈ ev ∧ res < 0) : False := by
        have := hbreak j hji.linked hbad
        have := hji.1
        omega
      rcases hbad with ht | ⟨res, hr, hneg, hm⟩
      · rcases (taken_append tr ev j).mp ht with ht | ht
        · exact h.stops j i hji (Or.inl ht) hi
        · exact hnew (Or.inl ht)
      · rcases List.mem_append.mp hr with hr | hr
        · exact h.stops j i hji (Or.inr ⟨res, hr, hneg, hm⟩) hi
        · exact hnew (Or.inr ⟨res, hr, hneg⟩)
    · obtain ⟨-, -, -, -, hnt, hsame⟩ := hstart i hi
      obtain ⟨hnt', -, hmsg⟩ := hbefore hi hji
      rcases hbad with ht | ⟨res, hr, hneg, hm⟩
      · exact ((taken_append tr ev j).mp ht).elim hnt' (hnt j)
      · rcases List.mem_append.mp hr with hr | hr
        · exact hm (hmsg res hr hneg)
        · exact hji.1.ne (hsame j res hr)
  · intro i q hi
    rw [hsqe]
    simp only [hprec]
    rcases List.mem_append.mp hi with hi | hi
    · obtain ⟨j, hji, hq, hbad⟩ := h.drops i q hi
      refine ⟨j, hji, hq, ?_⟩
      rcases hbad with ht | ⟨res, hr, hneg⟩
      · exact Or.inl ((taken_append tr ev j).mpr (Or.inl ht))
      · exact Or.inr ⟨res, List.mem_append_left _ hr, hneg⟩
    · obtain ⟨rfl, hf, hq⟩ := hcan i q hi
      obtain ⟨j, hji, hv, hbad⟩ := hj.fails hf
      refine ⟨j, hji, ?_, ?_⟩
      · rw [hv] at hq
        unfold Chains.verdict at hq
        cases hskip : (a.sqe j).flags.cqeSkipSuccess <;> simpa [hskip] using hq
      · rcases hbad with ht | ⟨res, hr, hneg⟩
        · exact Or.inl ((taken_append tr ev j).mpr (Or.inl ht))
        · exact Or.inr ⟨res, List.mem_append_left _ hr, hneg⟩
  · simp only [hprec]
    refine h.order.append (fun pre pre' e hQ i he j hji => ?_) (fun e he i hei j hji => ?_)
    · obtain ⟨res, hr⟩ := hQ i he j hji
      exact ⟨res, List.mem_append_left _ hr⟩
    · subst hei
      exact (hbefore he hji).2.1

theorem Chains.Lawful.accept (h : a.Lawful E tr) (hj : a.Judged E tr) (hw : a.WellFormed) (sqe : Sqe) :
    Chains.Lawful { a with
      n := a.n + 1
      sqe := fun j => if j = a.n then sqe else a.sqe j
      stage := fun j => if j = a.n then .queued else a.stage j
      queue := a.queue ++ [a.n] } E (tr ++ [.accept a.n sqe]) := by
  generalize ha' : ({ a with
    n := a.n + 1
    sqe := fun j => if j = a.n then sqe else a.sqe j
    stage := fun j => if j = a.n then .queued else a.stage j
    queue := a.queue ++ [a.n] } : Chains) = a'
  have hsqe (j : ℕ) (hj : j ≠ a.n) : a'.sqe j = a.sqe j := by
    rw [← ha']
    exact if_neg hj
  have hle := hw.front_le
  have hprec (j i : ℕ) (hi : i < a.front) : a'.Precedes j i ↔ a.Precedes j i := by
    refine and_congr_right (fun _ => forall_congr' (fun k => forall_congr' (fun _ =>
      forall_congr' (fun hk => ?_))))
    rw [Chains.linked, hsqe k (by omega)]
    rfl
  have hnew (j : ℕ) : ¬ Taken [.accept a.n sqe] j := by simp [Taken]
  constructor
  · intro j i hji hbad hi
    have hi : .start i ∈ tr := by simpa using hi
    have hlt := hj.begun i hi
    rw [hprec j i hlt] at hji
    rw [taken_append] at hbad
    refine h.stops j i hji ?_ hi
    exact hbad.imp (fun ht => ht.resolve_right (hnew j)) (by simp)
  · intro i q hi
    have hi : .cancel i q ∈ tr := by simpa using hi
    have hlt := hj.dropped i q hi
    obtain ⟨j, hji, hq, hbad⟩ := h.drops i q hi
    have hjn : j ≠ a.n := by
      have := hji.1
      omega
    refine ⟨j, (hprec j i hlt).mpr hji, by rw [hsqe j hjn]; exact hq, ?_⟩
    exact hbad.imp (fun ht => (taken_append tr _ j).mpr (Or.inl ht)) (by simp)
  · refine AtEach.append (fun pre pre' e hQ i he j hji => ?_) ?_ ?_
    · obtain ⟨res, hr⟩ := hQ i he j hji
      exact ⟨res, List.mem_append_left _ hr⟩
    · intro pre e post htr i he j hji
      have hlt := hj.begun i (by rw [htr, he]; simp)
      exact h.order pre e post htr i he j ((hprec j i hlt).mp hji)
    · simp

theorem Act.Step.lawful (h : a.Lawful E tr) (hj : a.Judged E tr) (hw : a.WellFormed)
    (hacc : ∀ i, a.Accounts tr i (a.stage i)) (hC : Clean E a act) (hs : act.Step a ev a') :
    a'.Lawful E (tr ++ ev) := by
  have hfront {i : ℕ} {rest : List ℕ} (hq : a.queue = i :: rest) : i = a.front := by
    simp [Chains.front, hq]
  cases hs with
  | accept sqe => exact h.accept hj hw sqe
  | @cancelLoud i rest hc hb hq hf =>
    refine h.next hj hw hacc rfl (by simp) (by simp [Taken]) ?_
    grind
  | @cancelQuiet i rest hc hb hq hf =>
    refine h.next hj hw hacc rfl (by simp) (by simp [Taken]) ?_
    grind
  | @fail i rest res hc hb hq hf hres =>
    have hi := hfront hq
    refine h.next hj hw hacc rfl ?_ ?_ (by simp) <;> grind [Taken]
  | @message i rest res hc hb hq hf ho =>
    have hi := hfront hq
    refine h.next hj hw hacc rfl ?_ ?_ (by simp) <;> grind [Taken]
  | @begin i rest hc hb hq hf =>
    have hi := hfront hq
    refine h.next hj hw hacc rfl ?_ ?_ (by simp) <;> grind [Taken]
  | @answer i res hc hs =>
    have hrun := hj.running i hs
    refine h.next hj hw hacc rfl (by simp) ?_ (by simp)
    rintro j hl (⟨c, sc, st, ht⟩ | ⟨r, hr, hneg⟩)
    · simp at ht
    · simp only [List.mem_singleton, Event.result.injEq] at hr
      obtain ⟨rfl, rfl⟩ := hr
      cases ht : a.took with
      | true => exact absurd (hC ht) (by simpa using hneg)
      | false => exact ((hrun ht).2 hl).le
  | post hc hs hg => exact h.next hj hw hacc rfl (by simp) (by simp [Taken]) (by simp)
  | hold hc hs => exact h.next hj hw hacc rfl (by simp) (by simp) (by simp)
  | pend hc hs hp => exact h.next hj hw hacc rfl (by simp) (by simp) (by simp)
  | @handBack i res hc hs =>
    refine h.next hj hw hacc rfl (by simp) ?_ (by simp)
    rintro j hl (⟨c, sc, st, ht⟩ | ⟨r, hr, hneg⟩)
    · simp at ht
    · simp only [List.mem_singleton, Event.result.injEq] at hr
      obtain ⟨rfl, rfl⟩ := hr
      exact (hj.blocking j (hw.held j hs hl)).1.le
  | complete hc hs hg => exact h.next hj hw hacc rfl (by simp) (by simp [Taken]) (by simp)
  | @finish i res hs =>
    refine h.next hj hw hacc rfl (by simp) ?_ (by simp)
    rintro j hl (⟨c, sc, st, ht⟩ | ⟨r, hr, hneg⟩)
    · simp at ht
    · simp only [List.mem_singleton, Event.result.injEq] at hr
      obtain ⟨rfl, rfl⟩ := hr
      exact (hj.blocking j (hw.held j hs hl)).1.le
  | offPost hs hg => exact h.next hj hw hacc rfl (by simp) (by simp [Taken]) (by simp)
  | settle hc ht hb => exact h.next hj hw hacc rfl (by simp) (by simp) (by simp)
  | @takeHeld c t g sc st hc hr hs hg =>
    refine h.next hj hw hacc rfl (by simp) ?_ (by simp)
    rintro j hl (⟨c', sc', st', ht⟩ | ⟨r, hr', hneg⟩)
    · simp only [List.mem_cons, Event.take.injEq, reduceCtorEq, List.not_mem_nil, or_false] at ht
      obtain ⟨rfl, rfl, rfl, rfl⟩ := ht
      cases (hw.running _ hr).2.symm.trans (hw.held _ hs hl)
    · simp at hr'
  | @takeQueued c t pre suf g sc st hc hr hq hg =>
    refine h.next hj hw hacc rfl (by simp) ?_ (by simp)
    rintro j hl (⟨c', sc', st', ht⟩ | ⟨r, hr', hneg⟩)
    · simp only [List.mem_cons, Event.take.injEq, reduceCtorEq, List.not_mem_nil, or_false] at ht
      obtain ⟨rfl, rfl, rfl, rfl⟩ := ht
      have := hw.front_le_of_mem (i := j) (by simp [hq])
      omega
    · simp at hr'

theorem History.lawful (h : History (Clean E) tr a) : a.Lawful E tr := by
  refine h.invariant (fun tr a => a.Lawful E tr) ?_ ?_
  · exact ⟨fun _ _ _ _ => by simp, by simp, fun pre e post he => by simp at he⟩
  · rintro tr a ev a' hist hl ⟨act, hC, hs⟩
    obtain ⟨hw, hacc, -⟩ := History.accounts hist
    exact hs.lawful hl (History.judged hist) hw hacc hC

end Step

/-- SQE `i` was accepted with `IOSQE_IO_LINK`. -/
def LinkedIn (tr : List Event) (i : ℕ) : Prop :=
  ∃ sqe, .accept i sqe ∈ tr ∧ sqe.flags.ioLink = true

/-- `j` is an earlier member of the chain of `i`. -/
def Earlier (tr : List Event) (j i : ℕ) : Prop := j < i ∧ ∀ k, j ≤ k → k < i → LinkedIn tr k

/-- What a completion says of an op cancelled with a chain: -ECANCELED, or nothing when the member that
failed carries `IOSQE_CQE_SKIP_SUCCESS`. -/
def CancelledWith (sqe : Sqe) (g : Option Cqe) : Prop :=
  if sqe.flags.cqeSkipSuccess then g = none else ∃ c, g = some c ∧ c.res = -ecanceled

/-- The rules of link chains. -/
structure ChainRules (tr : List Event) : Prop where
  order : ∀ pre i post, tr = pre ++ .start i :: post →
    ∀ j, Earlier tr j i → ∃ res, .result j res ∈ pre
  stops : ∀ j i sqe res, .accept j sqe ∈ tr → .result j res ∈ tr → res < 0 → Earlier tr j i →
    .start i ∉ tr ∧ ∀ g ∈ gives tr i, CancelledWith sqe g
  runs : ∀ i, finishes tr i ≠ [] → (∀ j res, Earlier tr j i → .result j res ∈ tr → 0 ≤ res) →
    .start i ∈ tr
  next : ∀ i, finishes tr i ≠ [] → (∀ j, ¬ Earlier tr j i) → .start i ∈ tr

/-- No cancel op, and no linked message that `msg_ring` refuses. -/
def NoCancels (a : Chains) : Act → Prop
  | .accept sqe => sqe.opcode.cancels = false
  | .takeHeld _ _ _ _ | .takeQueued _ _ _ _ =>
    ∃ c, a.current = some c ∧ (a.sqe c).opcode.cancels = true
  | .message res => res < 0 → ∀ i, a.queue.head? = some i → a.linked i = false
  | _ => True

section Rules
variable {a : Chains} {tr : List Event}

theorem History.no_cancels (h : History NoCancels tr a) :
    (∀ i, i < a.n → (a.sqe i).opcode.cancels = false) ∧ a.took = false ∧ ∀ j, ¬ Taken tr j := by
  refine h.invariant (fun tr a => (∀ i, i < a.n → (a.sqe i).opcode.cancels = false) ∧
    a.took = false ∧ ∀ j, ¬ Taken tr j) (by simp [Taken]) ?_
  rintro tr a ev a' hist ⟨hops, htook, hnt⟩ ⟨act, hC, hs⟩
  obtain ⟨hw, -⟩ := History.accounts hist
  have hcancel (hC : ∃ c, a.current = some c ∧ (a.sqe c).opcode.cancels = true) : False := by
    obtain ⟨c, hc, hop⟩ := hC
    have hcn : c < a.n := by
      by_contra hn
      exact (hw.current c hc).1 ((hw.born c).mpr (by omega))
    simp [hops c hcn] at hop
  cases hs with
  | accept sqe =>
    refine ⟨fun i hi => ?_, htook, fun j hj =>
      ((taken_append tr _ j).mp hj).elim (hnt j) (by simp [Taken])⟩
    by_cases hin : i = a.n
    · rw [show Chains.sqe _ i = sqe from if_pos hin]
      exact hC
    · rw [show Chains.sqe _ i = a.sqe i from if_neg hin]
      exact hops i (by have : i < a.n + 1 := hi; omega)
  | takeHeld hc hr hs hg => exact (hcancel hC).elim
  | takeQueued hc hr hq hg => exact (hcancel hC).elim
  | _ =>
    refine ⟨hops, by first | rfl | exact htook, fun j hj =>
      ((taken_append tr _ j).mp hj).elim (hnt j) (by simp [Taken])⟩

theorem History.clean_of_no_cancels (h : History NoCancels tr a) :
    History (Clean (fun _ => False)) tr a := by
  refine h.strengthen ?_
  rintro tr a ev a' hist ⟨act, hC, hs⟩
  obtain ⟨hops, htook, -⟩ := History.no_cancels hist
  obtain ⟨hw, -⟩ := History.accounts hist
  refine ⟨act, ?_, hs⟩
  cases act with
  | takeQueued t g sc st =>
    obtain ⟨c, hc, hop⟩ := hC
    have hcn : c < a.n := by
      by_contra hn
      exact (hw.current c hc).1 ((hw.born c).mpr (by omega))
    simp [hops c hcn] at hop
  | answer res => exact fun ht => by simp [htook] at ht
  | message res => exact fun hneg i hi hl => by simp [hC hneg i hi] at hl
  | hold => exact htook
  | _ => trivial

theorem History.earlier_iff {C : Chains → Act → Prop} (h : History C tr a) {i j : ℕ} (hi : i ≤ a.n) :
    Earlier tr j i ↔ a.Precedes j i := by
  obtain ⟨-, -, haccept⟩ := History.accounts h
  refine and_congr_right (fun _ => forall_congr' (fun k => forall_congr' (fun _ =>
    forall_congr' (fun hk => ?_))))
  constructor
  · rintro ⟨sqe, hs, hl⟩
    obtain ⟨-, rfl⟩ := (haccept k sqe).mp hs
    exact hl
  · exact fun hl => ⟨a.sqe k, (haccept k _).mpr ⟨by omega, rfl⟩, hl⟩

/-- What the chain rules take from a history in which nothing was cancelled by a cancel op. -/
theorem History.chainRules (h : History NoCancels tr a) : ChainRules tr := by
  obtain ⟨hw, hacc, haccept⟩ := History.accounts h
  obtain ⟨-, -, hnt⟩ := History.no_cancels h
  have hj := History.judged (History.clean_of_no_cancels h)
  have hl := History.lawful (History.clean_of_no_cancels h)
  have hle := hw.front_le
  have hstarted (i : ℕ) (hi : .start i ∈ tr) : i ≤ a.n := by
    have := hj.begun i hi
    omega
  have hfailed {i : ℕ} {q : Bool} (hi : .cancel i q ∈ tr) : ∃ j res, Earlier tr j i ∧
      q = (a.sqe j).flags.cqeSkipSuccess ∧ .result j res ∈ tr ∧ res < 0 := by
    obtain ⟨j, hji, hq, hbad⟩ := hl.drops i q hi
    obtain ⟨res, hr, hneg⟩ := hbad.resolve_left (hnt j)
    have := hj.dropped i q hi
    exact ⟨j, res, (History.earlier_iff h (by omega)).mpr hji, hq, hr, hneg⟩
  have hstops {i j : ℕ} {res : Int32} (hji : Earlier tr j i) (hr : .result j res ∈ tr) (hneg : res < 0) :
      .start i ∉ tr := fun hi =>
    hl.stops j i ((History.earlier_iff h (hstarted i hi)).mp hji)
      (Or.inr ⟨res, hr, hneg, fun hE => hE⟩) hi
  have hended {i : ℕ} {how : Option Int32} (hi : how ∈ finishes tr i) :
      .start i ∈ tr ∨ ∃ q, .cancel i q ∈ tr ∧ how = if q then none else some (-ecanceled) := by
    obtain ⟨e, he, hei⟩ := List.mem_filterMap.mp hi
    cases e with
    | result k res =>
      simp only [finishOf, Option.ite_none_right_eq_some] at hei
      obtain ⟨rfl, -⟩ := hei
      exact Or.inl (hj.answered k res he)
    | cancel k q =>
      simp only [finishOf, Option.ite_none_right_eq_some, Option.some.injEq] at hei
      obtain ⟨rfl, rfl⟩ := hei
      exact Or.inr ⟨q, he, rfl⟩
    | take c k sc st =>
      simp only [finishOf, Option.ite_none_right_eq_some] at hei
      exact absurd ⟨c, sc, st, hei.1 ▸ he⟩ (hnt i)
    | _ => simp [finishOf] at hei
  refine ⟨?_, ?_, ?_, ?_⟩
  · intro pre i post htr j hji
    have hi := hstarted i (by simp [htr])
    exact hl.order pre _ post htr i rfl j ((History.earlier_iff h hi).mp hji)
  · intro j i sqe res hs hr hneg hji
    refine ⟨hstops hji hr hneg, fun g hg => ?_⟩
    obtain ⟨-, rfl⟩ := (haccept j sqe).mp hs
    have hai := hacc i
    cases hst : a.stage i with
    | closed =>
      rw [hst] at hai
      obtain ⟨how, g', hf, hg', hgood⟩ := hai
      cases List.mem_singleton.mp (hg' ▸ hg)
      rcases hended (hf ▸ List.mem_singleton_self how) with hstart | ⟨q, hq, rfl⟩
      · exact absurd hstart (hstops hji hr hneg)
      obtain ⟨j', res', hji', hskip, hr', hneg'⟩ := hfailed hq
      -- one member of a chain fails: the ones behind it are not started
      have hjj : j' = j := by
        rcases Nat.lt_trichotomy j' j with hlt | heq | hlt
        · exact absurd (hj.answered j res hr)
            (hstops ⟨hlt, fun k hk hkj => hji'.2 k hk (by have := hji.1; omega)⟩ hr' hneg')
        · exact heq
        · exact absurd (hj.answered j' res' hr')
            (hstops ⟨hlt, fun k hk hkj => hji.2 k hk (by have := hji'.1; omega)⟩ hr hneg)
      subst hjj
      unfold CancelledWith
      rw [← hskip]
      cases q with
      | true => exact hgood
      | false =>
        have hcompl : a.Completion i (-ecanceled) g := hgood
        unfold Chains.Completion at hcompl
        rw [if_neg (fun hle => absurd hle.1 (by decide))] at hcompl
        obtain ⟨flags, rfl⟩ := hcompl
        exact ⟨_, rfl, rfl⟩
    | _ =>
      rw [hst] at hai
      simp [hai.2] at hg
  · intro i hi hok
    obtain ⟨how, hhow⟩ := List.exists_mem_of_ne_nil _ hi
    rcases hended hhow with hstart | ⟨q, hq, -⟩
    · exact hstart
    · obtain ⟨j, res, hji, -, hr, hneg⟩ := hfailed hq
      exact absurd (hok j res hji hr) (Int32.not_le.mpr hneg)
  · intro i hi hnone
    obtain ⟨how, hhow⟩ := List.exists_mem_of_ne_nil _ hi
    rcases hended hhow with hstart | ⟨q, hq, -⟩
    · exact hstart
    · obtain ⟨j, res, hji, -⟩ := hfailed hq
      exact absurd hji (hnone j)

end Rules

/-- The next SQE to be copied is a cancel op. -/
def Core.submitsCancel (s : Core) : Bool :=
  match s.pc with
  | .take _ (some sqe :: _) _ _ _ => sqe.opcode.cancels
  | _ => false

/-- A step over a backend that keeps its contract, with no cancel op among the SQEs. -/
def WithoutCancels (s : Core) (l : CoreLabel) : Prop :=
  Keeps s l ∧ (l matches .takeSqe → s.submitsCancel = false)

/-- A step that runs no linked message `msg_ring` refuses. -/
def NoLinkedMessageFails (s : Core) : CoreLabel → Prop
  | .queueStep target _ => ∀ op ∈ s.ring.queueHead, s.messageFails target op → s.ring.linked op = false
  | _ => True

instance (s : Core) (l : CoreLabel) : Decidable (NoLinkedMessageFails s l) :=
  match l with
  | .queueStep _ _ => inferInstanceAs (Decidable (∀ op ∈ s.ring.queueHead, _))
  | .enter _ | .takeSqe | .append | .post _ | .settle _ | .check _ | .complete _ | .write _
  | .execDone _ | .execTake | .execPending | .cancelHeld _ _ | .cancelQueued _ _ | .handBack _ _
  | .waitReturn | .waitFail | .offFinish _ _ _ | .offPost _ _ | .emit _ _ _ _ | .read _ =>
    isTrue trivial

/-- `WithoutCancels` as a check. -/
def withoutCancelsCheck (s : Core) (l : CoreLabel) : Bool :=
  keepsCheck s l && (!(l matches .takeSqe) || !s.submitsCancel)

theorem withoutCancels_of_check {s : Core} {l : CoreLabel} (h : withoutCancelsCheck s l = true) :
    WithoutCancels s l := by
  simp only [withoutCancelsCheck, Bool.and_eq_true, Bool.or_eq_true, Bool.not_eq_true'] at h
  exact ⟨keeps_of_check h.1, fun hl => h.2.resolve_left (by simp [hl])⟩

theorem noCancels_of_matches {s : Core} {l : CoreLabel} {a : Chains} {act : Act}
    {free backlog queue batch : List Slot} (h : Rep s a free backlog queue batch)
    (hw : a.WellFormed) (hk : WithoutCancels s l) (hf : NoLinkedMessageFails s l)
    (hm : Matches s a l act) : NoCancels a act := by
  have hcur (hc : s.cancelling) : ∃ c, a.current = some c ∧ (a.sqe c).opcode.cancels = true := by
    obtain ⟨x, hx, hop⟩ := hc
    obtain ⟨i, -, hst, hcopy⟩ := h.placed.tracks.owner x .running hx
    exact ⟨i, (hw.running i hst).1, by rw [← hcopy.opcode]; exact hop⟩
  cases act with
  | accept sqe =>
    cases l with
    | takeSqe =>
      obtain ⟨call, rest, submitted, batchHead, batchTail, hpc⟩ := hm
      have hop := hk.2 rfl
      rw [Core.submitsCancel, hpc] at hop
      exact hop
    | _ => exact hm.elim
  | message res =>
    cases l with
    | queueStep target reads =>
      intro hneg i hi
      obtain ⟨op, hop⟩ := hm hneg
      obtain ⟨⟨f, hpc⟩, hqh, hb, -⟩ := id hop
      obtain ⟨-, -, -, -, queue', j, rest, -, hq, -, hcopy⟩ := h.queue_front hpc hqh hb
      rw [hq, List.head?_cons, Option.some.injEq] at hi
      rw [← hi, ← linked_eq hcopy]
      exact hf op hqh hop
    | _ => exact hm.elim
  | takeHeld t g sc st =>
    cases l with
    | cancelHeld x reads => exact hcur hk.1.2
    | _ => exact hm.elim
  | takeQueued t g sc st =>
    cases l with
    | cancelQueued p reads => exact hcur hk.1.2
    | _ => exact hm.elim
  | _ => trivial

end SlipstreamIO.Engine
