import SlipstreamIO.CancelAnswers

/-! Ops are started in the order they were accepted, over any backend, and what a cancel takes is an older
op that was started or a younger one that never is. -/
namespace SlipstreamIO.Engine

open ThreadedList Runs

def startOf : Event → Option ℕ
  | .start i => some i
  | _ => none

/-- The SQEs that were started, in order. -/
def starts (tr : List Event) : List ℕ := tr.filterMap startOf

@[simp] theorem starts_append (tr ev : List Event) : starts (tr ++ ev) = starts tr ++ starts ev :=
  List.filterMap_append

theorem mem_starts {tr : List Event} {i : ℕ} : i ∈ starts tr ↔ .start i ∈ tr := by
  unfold starts
  rw [List.mem_filterMap]
  constructor
  · rintro ⟨e, he, hi⟩
    cases e with
    | start j =>
      cases hi
      exact he
    | _ => cases hi
  · exact fun hi => ⟨_, hi, rfl⟩

/-- Every start is of a younger SQE than the starts in front of it. A cancel that takes an op has been started,
and takes an older one that was started too, or a younger one that never is. -/
structure StartOrder (tr : List Event) : Prop where
  sorted : (starts tr).Pairwise (· < ·)
  takes : AtEach (fun pre e => ∀ c t sc st, e = .take c t sc st → .start c ∈ pre ∧
    (t < c ∧ .start t ∈ pre ∨ c < t ∧ .start t ∉ tr)) tr

/-- Where the abstract ring stands in the order. -/
structure Chains.Ordered (a : Chains) (tr : List Event) : Prop extends StartOrder tr where
  born : ∀ i ∈ starts tr, i < a.n
  front : ∀ i ∈ starts tr, ∀ x ∈ a.queue, i < x
  running : ∀ c, a.stage c = .running → c ∈ starts tr ∧ ∀ i ∈ starts tr, i ≤ c
  held : ∀ i, a.stage i = .held → i ∈ starts tr

section Step
variable {a a' : Chains} {tr ev : List Event} {act : Act} {i : ℕ} {st : Stage}

theorem StartOrder.silent (h : StartOrder tr) (hstarts : starts ev = [])
    (htakes : ∀ c t sc st, .take c t sc st ∉ ev) : StartOrder (tr ++ ev) := by
  have hmem (j : ℕ) : .start j ∈ tr ++ ev ↔ .start j ∈ tr := by
    rw [← mem_starts, ← mem_starts, starts_append, hstarts, List.append_nil]
  refine ⟨?_, AtEach.append (fun pre pre' e hQ c t sc st he => ?_)
    (h.takes.imp fun pre e post _ hQ c t sc st he => ?_) (fun e he c t sc st hec => ?_)⟩
  · rw [starts_append, hstarts, List.append_nil]
    exact h.sorted
  · obtain ⟨hc, ht⟩ := hQ c t sc st he
    refine ⟨List.mem_append_left _ hc, ht.imp_left fun ht => ⟨ht.1, List.mem_append_left _ ht.2⟩⟩
  · rw [hmem]
    exact hQ c t sc st he
  · exact absurd (hec ▸ he) (htakes c t sc st)

/-- A step that starts nothing and takes nothing. -/
theorem Chains.Ordered.silent (h : a.Ordered tr) (hstarts : starts ev = [])
    (htakes : ∀ c t sc st, .take c t sc st ∉ ev) (hn : a'.n = a.n)
    (hqueue : ∀ x ∈ a'.queue, x ∈ a.queue)
    (hrunning : ∀ j, a'.stage j = .running → a.stage j = .running)
    (hheld : ∀ j, a'.stage j = .held → a.stage j = .held ∨ a.stage j = .running) :
    a'.Ordered (tr ++ ev) := by
  have hsame : starts (tr ++ ev) = starts tr := by rw [starts_append, hstarts, List.append_nil]
  refine ⟨h.toStartOrder.silent hstarts htakes, ?_, ?_, ?_, ?_⟩ <;> rw [hsame]
  · rw [hn]
    exact h.born
  · exact fun i hi x hx => h.front i hi x (hqueue x hx)
  · exact fun c hc => h.running c (hrunning c hc)
  · exact fun j hj => (hheld j hj).elim (h.held j) fun hr => (h.running j hr).1

/-- The head of the queue is started: it is younger than all that were. -/
theorem Chains.Ordered.starts_head {rest : List ℕ} (h : a.Ordered tr) (hw : a.WellFormed)
    (hacc : ∀ j, a.Accounts tr j (a.stage j)) (hc : a.current = none) (hq : a.queue = i :: rest)
    (hstarts : starts ev = [i]) (htakes : ∀ c t sc st, .take c t sc st ∉ ev) (hn : a'.n = a.n)
    (hqueue : a'.queue = rest) (hstage : ∀ j, a'.stage j = if j = i then st else a.stage j)
    (hst : st ≠ .held) : a'.Ordered (tr ++ ev) := by
  obtain ⟨hi, -, hlt, hmem⟩ := hw.pop hq
  have hfront := h.front
  rw [hq] at hfront
  have hnew (j : ℕ) : j ∈ starts (tr ++ ev) ↔ j ∈ starts tr ∨ j = i := by
    rw [starts_append, hstarts, List.mem_append, List.mem_singleton]
  have hborn : i < a.n := by
    by_contra hn
    cases hi.symm.trans ((hw.born i).mpr (not_lt.mp hn))
  refine ⟨⟨?_, AtEach.append (fun pre pre' e hQ c t sc st he => ?_)
    (h.takes.imp fun pre e post htr hQ c t sc st he => ?_) (fun e he c t sc st hec => ?_)⟩, ?_, ?_, ?_, ?_⟩
  · rw [starts_append, hstarts, List.pairwise_append]
    refine ⟨h.sorted, List.pairwise_singleton _ _, fun j hj k hk => ?_⟩
    rw [List.mem_singleton.mp hk]
    exact hfront j hj i List.mem_cons_self
  · obtain ⟨hc, ht⟩ := hQ c t sc st he
    exact ⟨List.mem_append_left _ hc, ht.imp_left fun ht => ⟨ht.1, List.mem_append_left _ ht.2⟩⟩
  · obtain ⟨hc, ht⟩ := hQ c t sc st he
    refine ⟨hc, ht.imp_right fun ⟨hct, hnot⟩ => ⟨hct, ?_⟩⟩
    rw [← mem_starts, hnew, mem_starts]
    rintro (hold | rfl)
    · exact hnot hold
    · -- what was taken has ended, and is in no queue
      have ht := hacc t
      rw [hi] at ht
      have hfin : some (-ecanceled) ∈ finishes tr t :=
        List.mem_filterMap.mpr ⟨e, by rw [htr]; simp, by simp [he, finishOf]⟩
      rw [ht.1] at hfin
      cases hfin
  · exact absurd (hec ▸ he) (htakes c t sc st)
  · intro j hj
    rw [hn]
    obtain hj | rfl := (hnew j).mp hj
    · exact h.born j hj
    · exact hborn
  · intro j hj x hx
    rw [hqueue] at hx
    obtain hj | rfl := (hnew j).mp hj
    · exact hfront j hj x (List.mem_cons_of_mem _ hx)
    · exact hlt x hx
  · intro c hcr
    rw [hstage] at hcr
    split at hcr
    · next hci =>
      subst hci
      refine ⟨(hnew c).mpr (.inr rfl), fun j hj => ?_⟩
      obtain hj | rfl := (hnew j).mp hj
      · exact (hfront j hj c List.mem_cons_self).le
      · exact le_rfl
    · cases hc.symm.trans (hw.running c hcr).1
  · intro j hj
    rw [hstage] at hj
    split at hj
    · exact absurd hj hst
    · exact (hnew j).mpr (.inl (h.held j hj))

/-- A cancel takes `t`: one it has behind it in the queue, or one that was started in front of it. -/
theorem Chains.Ordered.takes_one {c t : ℕ} {g : Option Cqe} {sc sqe : Sqe} (h : a.Ordered tr)
    (hr : a.stage c = .running) (ht : t < c ∧ t ∈ starts tr ∨ c < t ∧ t ∉ starts tr)
    (hn : a'.n = a.n) (hqueue : ∀ x ∈ a'.queue, x ∈ a.queue)
    (hstage : ∀ j, a'.stage j = if j = t then .closed else a.stage j) :
    a'.Ordered (tr ++ [.take c t sc sqe, .give t g]) := by
  have hsame : starts (tr ++ [.take c t sc sqe, .give t g]) = starts tr := by
    rw [starts_append]
    exact List.append_nil _
  have hmem (j : ℕ) : .start j ∈ tr ++ [.take c t sc sqe, .give t g] ↔ .start j ∈ tr := by
    rw [← mem_starts, ← mem_starts, hsame]
  refine ⟨⟨?_, AtEach.append (fun pre pre' e hQ c t sc st he => ?_)
    (h.takes.imp fun pre e post _ hQ c t sc st he => ?_) (fun e he c' t' sc st hec => ?_)⟩, ?_, ?_, ?_, ?_⟩
  · rw [hsame]
    exact h.sorted
  · obtain ⟨hc, ht⟩ := hQ c t sc st he
    exact ⟨List.mem_append_left _ hc, ht.imp_left fun ht => ⟨ht.1, List.mem_append_left _ ht.2⟩⟩
  · rw [hmem]
    exact hQ c t sc st he
  · subst hec
    simp only [List.mem_cons, Event.take.injEq, reduceCtorEq, List.not_mem_nil, or_false] at he
    obtain ⟨rfl, rfl, rfl, rfl⟩ := he
    rw [hmem, ← mem_starts, ← mem_starts]
    exact ⟨(h.running c' hr).1, ht⟩
  all_goals rw [hsame]
  · rw [hn]
    exact h.born
  · exact fun i hi x hx => h.front i hi x (hqueue x hx)
  · intro j hj
    rw [hstage] at hj
    split at hj
    · cases hj
    · exact h.running j hj
  · intro j hj
    rw [hstage] at hj
    split at hj
    · cases hj
    · exact h.held j hj

theorem Act.Step.ordered (h : a.Ordered tr) (hw : a.WellFormed)
    (hacc : ∀ j, a.Accounts tr j (a.stage j)) (hs : act.Step a ev a') : a'.Ordered (tr ++ ev) := by
  -- the one op that moves is neither in hand nor held afterwards
  have hmoved {k : ℕ} {st st' : Stage} (hne : st ≠ st') {j : ℕ}
      (hj : (if j = k then st else a.stage j) = st') : a.stage j = st' := by
    split at hj
    · exact absurd hj hne
    · exact hj
  cases hs with
  | accept sqe =>
    have hquiet : a.Ordered (tr ++ [.accept a.n sqe]) :=
      h.silent rfl (by simp) rfl (fun _ hx => hx) (fun _ hj => hj) (fun _ hj => .inl hj)
    have hlt (i : ℕ) (hi : i ∈ starts (tr ++ [.accept a.n sqe])) : i < a.n := hquiet.born i hi
    refine ⟨hquiet.toStartOrder, fun i hi => Nat.lt_succ_of_lt (hlt i hi), fun i hi x hx => ?_,
      fun c hc => hquiet.running c (hmoved (by rintro ⟨⟩) hc),
      fun j hj => hquiet.held j (hmoved (by rintro ⟨⟩) hj)⟩
    rcases List.mem_append.mp hx with hx | hx
    · exact hquiet.front i hi x hx
    · rw [List.mem_singleton.mp hx]
      exact hlt i hi
  | cancelLoud hc hb hq | cancelQuiet hc hb hq =>
    refine h.silent rfl (by simp) rfl (fun x hx => ?_) (fun j hj => hmoved (by rintro ⟨⟩) hj)
      (fun j hj => .inl (hmoved (by rintro ⟨⟩) hj))
    rw [hq]
    exact List.mem_cons_of_mem _ hx
  | fail hc hb hq | message hc hb hq | begin hc hb hq =>
    exact h.starts_head hw hacc hc hq rfl (by simp) rfl rfl (fun _ => rfl) (by rintro ⟨⟩)
  | answer | post | handBack | complete | finish | offPost =>
    exact h.silent rfl (by simp) rfl (fun _ hx => hx) (fun j hj => hmoved (by rintro ⟨⟩) hj)
      (fun j hj => .inl (hmoved (by rintro ⟨⟩) hj))
  | @hold i hc hs =>
    refine h.silent rfl (by simp) rfl (fun _ hx => hx) (fun j hj => hmoved (by rintro ⟨⟩) hj) (fun j hj => ?_)
    by_cases hji : j = i
    · rw [hji]
      exact .inr hs
    · exact .inl ((if_neg hji).symm.trans hj)
  | pend | settle =>
    exact h.silent rfl (by simp) rfl (fun _ hx => hx) (fun _ hj => hj) (fun _ hj => .inl hj)
  | @takeHeld c t g sc st hc hr hs =>
    have ht := h.held t hs
    have hne : t ≠ c := by
      rintro rfl
      cases hs.symm.trans hr
    have hle := (h.running c hr).2 t ht
    exact h.takes_one hr (.inl ⟨by omega, ht⟩) rfl (fun _ hx => hx) (fun _ => rfl)
  | @takeQueued c t pre suf g sc st hc hr hq =>
    have htq : t ∈ a.queue := by simp [hq]
    refine h.takes_one hr (.inr ⟨(hw.current c hc).2 t htq, fun ht => ?_⟩) rfl (fun x hx => ?_) (fun _ => rfl)
    · exact absurd (h.front t ht t htq) (lt_irrefl t)
    · rw [hq]
      rcases List.mem_append.mp hx with hx | hx
      · exact List.mem_append_left _ hx
      · exact List.mem_append_right _ (List.mem_cons_of_mem _ hx)

theorem History.ordered {C : Chains → Act → Prop} (h : History C tr a) : a.Ordered tr := by
  refine h.invariant (fun tr a => a.Ordered tr) ?_ ?_
  · have hnone (i : ℕ) : i ∉ starts [] := List.not_mem_nil
    refine ⟨⟨.nil, fun pre e post he => ?_⟩, fun i hi => absurd hi (hnone i),
      fun i hi => absurd hi (hnone i), fun c hc => ?_, fun j hj => ?_⟩
    · simp at he
    · cases hc
    · cases hj
  · rintro tr a ev a' hist ho ⟨act, -, hs⟩
    obtain ⟨hw, hacc, -⟩ := History.accounts hist
    exact hs.ordered ho hw hacc

end Step

/-- Over any backend that keeps its contract, ops are started in the order of their SQEs, each once, and a
cancel takes older ops that were started and younger ones that then never are. -/
theorem ops_start_in_order {n : ℕ} {e : UInt32} {tr : List Event} {s : Core}
    (hr : Run coreMachine Keeps (setupCore n e) tr s) : StartOrder tr := by
  obtain ⟨a, _, _, _, _, _, hist, -⟩ :=
    core_run_refines (C := fun _ _ => True) (fun _ _ h => h) (fun _ _ _ _ _ _ _ _ _ _ _ _ => trivial) hr
  exact hist.ordered.toStartOrder

/-- A cancel of all takes the parked RECV in front of it and the NOP behind it. -/
theorem ops_start_in_order_all : ∃ tr s, Run coreMachine Keeps (setupCore 4 8) tr s ∧
    starts tr = [0, 1] ∧ takenBy tr 1 = [0, 2] ∧ StartOrder tr := by
  obtain ⟨tr, s, hr, hstarts, htakes⟩ := Run.of_exec posixMachine Posix.Spares
    (setupPosix 4 8 false 1 Nat.one_pos)
    (fun tr _ => starts (coreEvents tr) = [0, 1] ∧ takenBy (coreEvents tr) 1 = [0, 2])
    [.engine (.enter { entries := [some { opcode := .recv, userData := 9 },
        some { opcode := .asyncCancel, addr := 9, opFlags := 1 }, some { userData := 9 }] }),
      .engine .takeSqe, .engine .takeSqe, .engine .takeSqe, .engine .append, .engine (.queueStep .own []),
      .tries .again true [] [], .engine (.queueStep .own []), .cancel [] [], .cancel [] [], .cancel [] [],
      .cancel [] [], .cancel [] [], .cancel [] [], .cancel [] []] (by decide +kernel)
  obtain ⟨hcore, -⟩ := posix_refines hr
  exact ⟨_, _, hcore, hstarts, htakes, ops_start_in_order hcore⟩

end SlipstreamIO.Engine
