import SlipstreamIO.Bystanders

/-! The members of a chain give their completions in the order of the chain, also when one of them runs on
the worker, as long as no ticket is settled in front of the CQE it stands for and no cancel takes a member
out of turn. -/
namespace SlipstreamIO.Engine

open ThreadedList Runs

/-- A ticket is settled behind its CQE, and an op comes off the queue for a cancel when the members of its
chain in front of it have ended. -/
def InTurn (a : Chains) : Act → Prop
  | .settle => ∀ i, a.blocking = some i → a.stage i = .closed
  | .takeQueued t _ _ _ => ∀ j, a.Precedes j t → a.stage j = .closed
  | _ => True

/-- Of a chain only one member is under way, and those in front of it have ended. -/
structure Chains.InOrder (a : Chains) : Prop where
  off : ∀ i res, a.stage i = .off res → a.linked i = true → a.blocking = some i
  alone : ∀ i, a.stage i ≠ .unborn → a.stage i ≠ .queued → ∀ j, a.Precedes j i → a.stage j = .closed

section Step
variable {a a' : Chains} {tr ev : List Event} {act : Act} {i j t : ℕ}

theorem Chains.WellFormed.lt_of_born (hw : a.WellFormed) (hi : a.stage i ≠ .unborn) : i < a.n := by
  by_contra hn
  exact hi ((hw.born i).mpr (not_lt.mp hn))

theorem Chains.WellFormed.gone (hw : a.WellFormed) (hn : i < a.n) (hq : i ∉ a.queue) :
    a.stage i ≠ .unborn ∧ a.stage i ≠ .queued := by
  refine ⟨fun h => ?_, fun h => hq ((hw.queued i).mpr h)⟩
  have hle := (hw.born i).mp h
  omega

/-- With nothing in hand and nothing pending, only what has ended stands in front of the queue in a chain. -/
theorem Chains.InOrder.ended (h : a.InOrder) (hw : a.WellFormed) (hb : a.blocking = none)
    (hj : a.linked j = true) (hn : j < a.n) (hq : j ∉ a.queue) (hc : a.current ≠ some j) :
    a.stage j = .closed := by
  obtain ⟨hborn, hqueued⟩ := hw.gone hn hq
  cases hst : a.stage j with
  | unborn => exact absurd hst hborn
  | queued => exact absurd hst hqueued
  | running => exact absurd (hw.running j hst).1 hc
  | posting res => exact absurd (hw.posting j res hst).1 hc
  | held => cases hb.symm.trans (hw.held j hst hj)
  | returned res => cases hb.symm.trans (hw.returned j res hst hj)
  | off res => cases hb.symm.trans (h.off j res hst hj)
  | closed => rfl

theorem Chains.InOrder.front_alone {rest : List ℕ} (h : a.InOrder) (hw : a.WellFormed)
    (hc : a.current = none) (hb : a.blocking = none) (hq : a.queue = i :: rest)
    (hji : a.Precedes j i) : a.stage j = .closed := by
  obtain ⟨hi, -, hlt, -⟩ := hw.pop hq
  have hin := hw.lt_of_born (i := i) (by rw [hi]; rintro ⟨⟩)
  have hlt' := hji.1
  apply h.ended hw hb hji.linked (by omega)
  · rw [hq, List.mem_cons]
    rintro (rfl | hj)
    · omega
    · have := hlt j hj
      omega
  · rw [hc]
    rintro ⟨⟩

/-- One SQE that is under way goes on to another stage. -/
theorem Chains.InOrder.move (st : Stage) (h : a.InOrder) (hlive : a.stage i ≠ .closed)
    (halone : ∀ j, a.Precedes j i → a.stage j = .closed)
    (hstage : ∀ j, a'.stage j = if j = i then st else a.stage j) (hsqe : a'.sqe = a.sqe)
    (hoff : ∀ j res, a'.stage j = .off res → a.linked j = true → a'.blocking = some j) : a'.InOrder := by
  have hprec (j k : ℕ) : a'.Precedes j k ↔ a.Precedes j k := by
    simp only [Chains.Precedes, Chains.linked, hsqe]
  refine ⟨fun k res hk hl => ?_, fun k hk hk' j hji => ?_⟩
  · rw [Chains.linked, hsqe] at hl
    exact hoff k res hk hl
  · rw [hprec] at hji
    rw [hstage] at hk hk' ⊢
    have hclosed : a.stage j = .closed := by
      by_cases hki : k = i
      · exact halone j (hki ▸ hji)
      · rw [if_neg hki] at hk hk'
        exact h.alone k hk hk' j hji
    have hji' : j ≠ i := by
      rintro rfl
      exact hlive hclosed
    rw [if_neg hji']
    exact hclosed

theorem Chains.InOrder.accept (h : a.InOrder) (hw : a.WellFormed) (sqe : Sqe) : Chains.InOrder { a with
      n := a.n + 1
      sqe := fun j => if j = a.n then sqe else a.sqe j
      stage := fun j => if j = a.n then .queued else a.stage j
      queue := a.queue ++ [a.n] } := by
  generalize ha' : ({ a with
    n := a.n + 1
    sqe := fun j => if j = a.n then sqe else a.sqe j
    stage := fun j => if j = a.n then .queued else a.stage j
    queue := a.queue ++ [a.n] } : Chains) = a'
  have hlinked (j : ℕ) (hj : j < a.n) : a'.linked j = a.linked j := by
    rw [← ha', Chains.linked, Chains.linked]
    dsimp only
    rw [if_neg hj.ne]
  have hstage (j : ℕ) : a'.stage j = if j = a.n then .queued else a.stage j := by rw [← ha']
  have hb : a'.blocking = a.blocking := by rw [← ha']
  have hold {k : ℕ} (hk : a'.stage k ≠ .unborn) (hk' : a'.stage k ≠ .queued) :
      a'.stage k = a.stage k ∧ k < a.n := by
    have hkn : k ≠ a.n := by
      rintro rfl
      exact hk' (by rw [hstage, if_pos rfl])
    rw [hstage, if_neg hkn] at hk ⊢
    exact ⟨rfl, hw.lt_of_born hk⟩
  refine ⟨fun k res hk hl => ?_, fun k hk hk' j hji => ?_⟩
  · obtain ⟨hsame, hlt⟩ := hold (k := k) (by rw [hk]; rintro ⟨⟩) (by rw [hk]; rintro ⟨⟩)
    rw [hb]
    exact h.off k res (hsame.symm.trans hk) (hlinked k hlt ▸ hl)
  · obtain ⟨hsame, hlt⟩ := hold hk hk'
    rw [hsame] at hk hk'
    have hclosed := h.alone k hk hk' j ⟨hji.1, fun m hm hmk => by
      rw [← hlinked m (by omega)]
      exact hji.2 m hm hmk⟩
    rw [hstage, if_neg (by have := hji.1; omega)]
    exact hclosed

/-- One SQE that has left the queue goes on to another stage. -/
theorem Chains.InOrder.goesOn (st : Stage) (h : a.InOrder) (hborn : a.stage i ≠ .unborn)
    (hqueued : a.stage i ≠ .queued) (hlive : a.stage i ≠ .closed)
    (hstage : ∀ j, a'.stage j = if j = i then st else a.stage j) (hsqe : a'.sqe = a.sqe)
    (hoff : ∀ j res, a'.stage j = .off res → a.linked j = true → a'.blocking = some j) : a'.InOrder :=
  h.move st hlive (h.alone i hborn hqueued) hstage hsqe hoff

/-- The head leaves the queue. -/
theorem Chains.InOrder.popped (st : Stage) {rest : List ℕ} (h : a.InOrder) (hw : a.WellFormed)
    (hc : a.current = none) (hb : a.blocking = none) (hq : a.queue = i :: rest)
    (hst : ∀ res, st ≠ .off res) (hstage : ∀ j, a'.stage j = if j = i then st else a.stage j)
    (hsqe : a'.sqe = a.sqe) (hb' : a'.blocking = a.blocking) : a'.InOrder := by
  obtain ⟨hi, -⟩ := hw.pop hq
  refine h.move st (by rw [hi]; rintro ⟨⟩) (fun j hji => h.front_alone hw hc hb hq hji) hstage hsqe
    (fun j res hj hl => ?_)
  rw [hstage] at hj
  split at hj
  · exact absurd hj (hst res)
  · rw [hb']
    exact h.off j res hj hl

/-- Nothing moves. -/
theorem Chains.InOrder.still (h : a.InOrder) (hstage : a'.stage = a.stage) (hsqe : a'.sqe = a.sqe)
    (hoff : ∀ j res, a.stage j = .off res → a.linked j = true → a'.blocking = some j) : a'.InOrder := by
  have hlinked : a'.linked = a.linked := funext fun j => by rw [Chains.linked, hsqe]; rfl
  refine ⟨fun k res hk hl => ?_, fun k hk hk' j hji => ?_⟩
  · rw [hstage] at hk
    rw [hlinked] at hl
    exact hoff k res hk hl
  · rw [hstage] at hk hk' ⊢
    apply h.alone k hk hk' j
    rwa [Chains.Precedes, hlinked] at hji

theorem Act.Step.inOrder (h : a.InOrder) (hw : a.WellFormed) (hC : InTurn a act)
    (hs : act.Step a ev a') : a'.InOrder := by
  -- an op off the engine thread stays what blocks, whoever else goes on
  have hoff {k : ℕ} {st : Stage} (hst : ∀ res, st ≠ .off res) {j : ℕ} {res : Int32}
      (hj : (if j = k then st else a.stage j) = .off res) (hl : a.linked j = true) :
      j ≠ k ∧ a.blocking = some j := by
    split at hj
    · exact absurd hj (hst res)
    · next hjk => exact ⟨hjk, h.off j res hj hl⟩
  have hunblock {k j : ℕ} (hj : j ≠ k ∧ a.blocking = some j) :
      (if a.blocking = some k then none else a.blocking) = some j := by
    rw [if_neg]
    · exact hj.2
    · rw [hj.2, Option.some.injEq]
      exact hj.1
  cases hs with
  | accept sqe => exact h.accept hw sqe
  | cancelLoud hc hb hq | message hc hb hq | fail hc hb hq =>
    exact h.popped (.posting _) hw hc hb hq (fun _ he => by cases he) (fun _ => rfl) rfl rfl
  | cancelQuiet hc hb hq =>
    exact h.popped .closed hw hc hb hq (fun _ he => by cases he) (fun _ => rfl) rfl rfl
  | begin hc hb hq =>
    exact h.popped .running hw hc hb hq (fun _ he => by cases he) (fun _ => rfl) rfl rfl
  | answer hc hst =>
    exact h.goesOn (.posting _) (by rw [hst]; rintro ⟨⟩) (by rw [hst]; rintro ⟨⟩) (by rw [hst]; rintro ⟨⟩)
      (fun _ => rfl) rfl (fun j res hj hl => (hoff (fun _ he => by cases he) hj hl).2)
  | post hc hst | offPost hst =>
    exact h.goesOn .closed (by rw [hst]; rintro ⟨⟩) (by rw [hst]; rintro ⟨⟩) (by rw [hst]; rintro ⟨⟩)
      (fun _ => rfl) rfl (fun j res hj hl => (hoff (fun _ he => by cases he) hj hl).2)
  | handBack hc hst =>
    exact h.goesOn (.returned _) (by rw [hst]; rintro ⟨⟩) (by rw [hst]; rintro ⟨⟩) (by rw [hst]; rintro ⟨⟩)
      (fun _ => rfl) rfl (fun j res hj hl => (hoff (fun _ he => by cases he) hj hl).2)
  | @hold i hc hst =>
    refine h.goesOn .held (by rw [hst]; rintro ⟨⟩) (by rw [hst]; rintro ⟨⟩) (by rw [hst]; rintro ⟨⟩)
      (fun _ => rfl) rfl (fun j res hj hl => ?_)
    -- while an op runs nothing blocks, so nothing linked is off
    cases (hw.running i hst).2.symm.trans (hoff (fun _ he => by cases he) hj hl).2
  | complete hc hst | takeHeld hc hr hst =>
    exact h.goesOn .closed (by rw [hst]; rintro ⟨⟩) (by rw [hst]; rintro ⟨⟩) (by rw [hst]; rintro ⟨⟩)
      (fun _ => rfl) rfl (fun j res hj hl => hunblock (hoff (fun _ he => by cases he) hj hl))
  | @finish i res hst =>
    refine h.goesOn (.off res) (by rw [hst]; rintro ⟨⟩) (by rw [hst]; rintro ⟨⟩) (by rw [hst]; rintro ⟨⟩)
      (fun _ => rfl) rfl (fun j res' hj hl => ?_)
    by_cases hji : j = i
    · exact hw.held j (hji ▸ hst) hl
    · exact h.off j res' ((if_neg hji).symm.trans hj) hl
  | pend => exact h.still rfl rfl h.off
  | @settle i v hc ht hb =>
    refine h.still rfl rfl fun j res hj hl => ?_
    have hclosed := hC j (h.off j res hj hl)
    cases hj.symm.trans hclosed
  | @takeQueued c t pre suf g sc st hc hr hq =>
    exact h.move .closed (by rw [(hw.unlink hq).1]; rintro ⟨⟩) hC (fun _ => rfl) rfl
      (fun j res hj hl => (hoff (fun _ he => by cases he) hj hl).2)

theorem History.inOrder (h : History InTurn tr a) : a.InOrder := by
  refine h.invariant (fun _ a => a.InOrder) ⟨fun i res h => (by cases h), fun i h => absurd rfl h⟩ ?_
  rintro tr a ev a' hist ho ⟨act, hC, hs⟩
  obtain ⟨hw, -⟩ := History.accounts hist
  exact hs.inOrder ho hw hC

/-- What is started or gives its completion in a step has only ended members in front of it. -/
theorem Act.Step.behind_ended (h : a.InOrder) (hw : a.WellFormed) (hC : InTurn a act)
    (hs : act.Step a ev a') {e : Event} (he : e ∈ ev) (hi : e = .start i ∨ ∃ g, e = .give i g) :
    i < a.n ∧ ∀ j, a.Precedes j i → a.stage j = .closed := by
  have hfront {k : ℕ} {rest : List ℕ} (hc : a.current = none) (hb : a.blocking = none)
      (hq : a.queue = k :: rest) (hk : k = i) : i < a.n ∧ ∀ j, a.Precedes j i → a.stage j = .closed := by
    subst hk
    exact ⟨hw.lt_of_born (by rw [(hw.pop hq).1]; rintro ⟨⟩), fun j hji => h.front_alone hw hc hb hq hji⟩
  have hunder {k : ℕ} {st : Stage} (hst : a.stage k = st) (hborn : st ≠ .unborn) (hqueued : st ≠ .queued)
      (hk : k = i) : i < a.n ∧ ∀ j, a.Precedes j i → a.stage j = .closed := by
    subst hk hst
    exact ⟨hw.lt_of_born hborn, h.alone k hborn hqueued⟩
  cases hs with
  | cancelLoud hc hb hq | cancelQuiet hc hb hq | fail hc hb hq | message hc hb hq | begin hc hb hq =>
    apply hfront hc hb hq
    grind
  | post hc hst | complete hc hst | offPost hst | takeHeld hc hr hst =>
    apply hunder hst (by rintro ⟨⟩) (by rintro ⟨⟩)
    grind
  | @takeQueued c t pre suf g sc st hc hr hq =>
    obtain rfl : t = i := by grind
    exact ⟨hw.lt_of_born (by rw [(hw.unlink hq).1]; rintro ⟨⟩), hC⟩
  | _ => grind

theorem Act.Step.precedes (hs : act.Step a ev a') (hi : i ≤ a.n) : a'.Precedes j i ↔ a.Precedes j i := by
  have hlinked {k : ℕ} (hk : k < i) : a'.linked k = a.linked k := by
    cases hs with
    | accept sqe => exact congrArg (fun x : Sqe => x.flags.ioLink) (if_neg (by omega))
    | _ => rfl
  refine and_congr_right (fun _ => forall_congr' (fun k => forall_congr' (fun _ =>
    forall_congr' (fun hk => ?_))))
  rw [hlinked hk]

/-- A member of a chain is started, and gives its completion, behind the completions of those in front. -/
theorem History.gives_in_order (h : History InTurn tr a) :
    AtEach (fun pre e => ∀ i, (e = .start i ∨ ∃ g, e = .give i g) →
      i < a.n ∧ ∀ j, a.Precedes j i → ∃ g, .give j g ∈ pre) tr := by
  refine h.invariant (fun tr a => AtEach (fun pre e => ∀ i, (e = .start i ∨ ∃ g, e = .give i g) →
    i < a.n ∧ ∀ j, a.Precedes j i → ∃ g, .give j g ∈ pre) tr) ?_ ?_
  · exact fun pre e post he => by simp at he
  · rintro tr a ev a' hist hord ⟨act, hC, hs⟩
    obtain ⟨hw, hacc, -⟩ := History.accounts hist
    have hn : a.n ≤ a'.n := by
      cases hs with
      | accept sqe => exact Nat.le_succ a.n
      | _ => exact le_rfl
    refine AtEach.append (fun pre pre' e hQ i hi => ?_) (hord.imp fun pre e post _ hQ i hi => ?_)
      (fun e he i hi => ?_)
    · obtain ⟨hlt, hgave⟩ := hQ i hi
      refine ⟨hlt, fun j hji => ?_⟩
      obtain ⟨g, hg⟩ := hgave j hji
      exact ⟨g, List.mem_append_left _ hg⟩
    · obtain ⟨hlt, hgave⟩ := hQ i hi
      exact ⟨hlt.trans_le hn, fun j hji => hgave j ((hs.precedes hlt.le).mp hji)⟩
    · obtain ⟨hlt, hended⟩ := hs.behind_ended (History.inOrder hist) hw hC he hi
      refine ⟨hlt.trans_le hn, fun j hji => ?_⟩
      have haj := hacc j
      rw [hended j ((hs.precedes hlt.le).mp hji)] at haj
      obtain ⟨-, g, -, hg, -⟩ := haj
      have hmem : g ∈ gives tr j := by simp [hg]
      obtain ⟨e', he', hof⟩ := List.mem_filterMap.mp hmem
      cases e' with
      | give k g' =>
        simp only [giveOf, Option.ite_none_right_eq_some, Option.some.injEq] at hof
        obtain ⟨rfl, rfl⟩ := hof
        exact ⟨g', he'⟩
      | _ => simp [giveOf] at hof

end Step

/-- Each member of a chain is started, and completes, when those in front of it have given their completions. -/
def ChainOrdered (tr : List Event) : Prop :=
  ∀ pre e post i, tr = pre ++ e :: post → (e = .start i ∨ ∃ g, e = .give i g) →
    ∀ j, Earlier tr j i → ∃ g, .give j g ∈ pre

/-- The worker is at no linked op whose ticket is up and whose CQE it has yet to post. -/
def Posix.TicketPosted (s : Posix) : WorkerPc → Prop
  | .finished op _ => s.core.ring.linked op = false
  | _ => True

instance (s : Posix) : (w : WorkerPc) → Decidable (s.TicketPosted w)
  | .finished _ _ => inferInstanceAs (Decidable (_ = _))
  | .idle | .running _ | .posted => isTrue trivial

/-- What is taken out of the queue stands behind the end of a chain. -/
def Posix.BehindEnd (s : Posix) : Option (Link Slot × Slot) → Prop
  | some (.head, _) => ∀ c ∈ s.core.pc.executing, s.core.ring.linked c = false
  | some (.nextOf x, _) => s.core.ring.linked x = false
  | none => True

instance (s : Posix) : (found : Option (Link Slot × Slot)) → Decidable (s.BehindEnd found)
  | some (.head, _) => inferInstanceAs (Decidable (∀ c ∈ s.core.pc.executing, _))
  | some (.nextOf _, _) => inferInstanceAs (Decidable (_ = _))
  | none => isTrue trivial

/-- The ticket that is settled stands for no linked op whose CQE the worker has yet to post, and an op a
cancel takes out of the queue stands behind the end of a chain. -/
def Posix.InTurn (s : Posix) : PosixLabel → Prop
  | .engine (.settle _) => s.TicketPosted s.worker
  | .cancel _ _ => s.BehindEnd s.takesQueued
  | _ => True

instance (s : Posix) : (l : PosixLabel) → Decidable (s.InTurn l)
  | .engine l => match l with
    | .settle _ => inferInstanceAs (Decidable (s.TicketPosted _))
    | .enter _ | .takeSqe | .append | .queueStep _ _ | .post _ | .check _ | .complete _ | .write _
    | .execDone _ | .execTake | .execPending | .cancelHeld _ _ | .cancelQueued _ _ | .handBack _ _
    | .waitReturn | .waitFail | .offFinish _ _ _ | .offPost _ _ | .emit _ _ _ _ | .read _ => isTrue trivial
  | .cancel _ _ => inferInstanceAs (Decidable (s.BehindEnd _))
  | .tries _ _ _ _ | .pending | .wake _ _ | .drain | .ready _ | .cameBack _ _ | .back | .fail
  | .workerTake | .workerFinish _ | .workerPost _ | .workerPoke | .senderEmit _ _ _ | .senderPoke
  | .interrupted _ | .table _ => isTrue trivial

section Made
variable {tr : List Event} {wq : List Slot} {s : Posix} {l : PosixLabel} {c : Core} {a : Chains}
  {free backlog queue batch : List Slot} {l' : CoreLabel} {act : Act}

/-- Two neighbours in the queue have nothing that waits between them. -/
theorem not_mem_between {pre suf : List ℕ} {y t j : ℕ} (hs : (pre ++ t :: suf).Pairwise (· < ·))
    (hy : pre.getLast? = some y) (hyj : y < j) (hjt : j < t) : j ∉ pre ++ t :: suf := by
  obtain ⟨pre', rfl⟩ := List.getLast?_eq_some_iff.mp hy
  rw [List.append_assoc, List.pairwise_append] at hs
  obtain ⟨-, hback, hfront⟩ := hs
  rw [List.append_assoc, List.mem_append, not_or]
  refine ⟨fun hj => ?_, fun hj => ?_⟩
  · have := hfront j hj y (by simp)
    omega
  · simp only [List.cons_append, List.nil_append, List.pairwise_cons, List.mem_cons] at hback hj
    rcases hj with rfl | rfl | hj
    · omega
    · omega
    · have := hback.2.1 j hj
      omega

theorem inTurn_of_made (h : s.Inv wq) (hd : s.InTurn l) (hist : History InTurn tr a)
    (hrep : Rep c a free backlog queue batch) (hm : s.Makes l c l') (hmatch : Matches c a l' act)
    (hact : ∃ ev' a', act.Step a ev' a') : InTurn a act := by
  obtain ⟨hw, -⟩ := History.accounts hist
  obtain ⟨_, _, hstep⟩ := hact
  cases act with
  | settle =>
    cases l' with
    | settle reads =>
      obtain ⟨-, rfl, rfl⟩ := hm
      intro i hi
      obtain ⟨hlinked, -⟩ := hw.blocking i hi
      cases hstep with
      | @settle i' v hc ht hb =>
        obtain rfl := Option.some.inj (hb.symm.trans hi)
        obtain ⟨-, ⟨res, hoff⟩ | hclosed⟩ := hw.ticket i' v ht
        · -- the worker stands between the ticket and the CQE
          obtain ⟨x, hx, hix⟩ := hrep.placed.tracks.slot i' (by rw [hoff]; rfl)
          obtain ⟨j, hj, -, hcopy⟩ := hrep.placed.tracks.owner x _ hx
          rw [hoff] at hx
          obtain rfl := Option.some.inj (hj.symm.trans hix)
          have hworker := (h.off x res).mp hx
          rw [Posix.InTurn, hworker, Posix.TicketPosted] at hd
          rw [← linked_eq hcopy] at hlinked
          cases hd.symm.trans hlinked
        · exact hclosed
    | _ => exact hmatch.elim
  | takeQueued t g sc st =>
    cases l' with
    | cancelQueued p reads =>
      obtain ⟨x, pre, suf, rfl, hthreads, hqueue, hi, -⟩ := hmatch
      obtain ⟨-, rfl, ⟨links, reads', rfl⟩, y, z, hfinds⟩ := hm
      rw [Posix.InTurn, hfinds.takesQueued, Posix.BehindEnd.eq_def] at hd
      cases hstep with
      | @takeQueued cc _ pre' suf' _ _ _ hc hr hq =>
      have hnd : (pre' ++ t :: suf').Nodup := hq ▸ hw.sorted.imp fun hlt => hlt.ne
      have hpre := split_eq hnd hi (hq ▸ hqueue)
      have hsorted := hq ▸ hw.sorted
      have hlt := hw.lt_of_born (i := t) (by rw [(hw.unlink hq).1]; rintro ⟨⟩)
      intro j hji
      have hjt := hji.1
      suffices hout : j ∉ a.queue ∧ a.current ≠ some j from
        Chains.InOrder.ended (History.inOrder hist) hw (hw.running cc hr).2 hji.linked (by omega) hout.1 hout.2
      rw [hq]
      cases hlast : pre'.getLast? with
      | none =>
        obtain rfl := List.getLast?_eq_none_iff.mp hlast
        obtain rfl := List.map_eq_nil_iff.mp hpre.symm
        refine ⟨fun hj => ?_, fun hj => ?_⟩
        · rcases List.mem_cons.mp hj with rfl | hj
          · omega
          · have := List.rel_of_pairwise_cons hsorted hj
            omega
        · -- the op in hand is the cancel, and it is no link
          obtain ⟨i, -, hst, hcopy⟩ := hrep.placed.tracks.owner y .running hfinds.2.1
          obtain rfl := Option.some.inj ((hw.running i hst).1.symm.trans hj)
          have hunlinked := hd y hfinds.2.1
          rw [linked_eq hcopy, hji.linked] at hunlinked
          cases hunlinked
      | some y' =>
        have hmap := congrArg List.getLast? hpre
        rw [List.getLast?_map, List.getLast?_map, hlast, Option.map_some] at hmap
        obtain ⟨v, hv, hvi⟩ := Option.map_eq_some_iff.mp hmap.symm
        have hmem : y' ∈ pre' := List.mem_of_getLast? hlast
        have hfront := (List.pairwise_append.mp hsorted).2.2 y' hmem t List.mem_cons_self
        simp only [Link.after, hv] at hd
        obtain rfl := threads_unique hthreads hrep.placed.queueList.threads
        rw [hrep.queue_linked (List.mem_append_left _ (List.mem_of_getLast? hv)) hvi] at hd
        have hyj : y' < j := by
          by_contra hle
          have hlinked := hji.2 y' (not_lt.mp hle) hfront
          cases hd.symm.trans hlinked
        refine ⟨not_mem_between hsorted hlast hyj hjt, fun hj => ?_⟩
        have := (hw.current j hj).2 y' (by simp [hq, hmem])
        omega
    | _ => exact hmatch.elim
  | _ => trivial

end Made

/-- In every run in which no ticket is settled in front of its CQE and no cancel takes an op out of turn,
chains complete in order, the ops on the worker included. -/
theorem chains_complete_in_order {n : ℕ} {e : UInt32} {b : Bool} {k : ℕ} {hk : 0 < k}
    {tr : List PosixEvent} {s : Posix}
    (hr : Run posixMachine (fun s l => s.Spares l ∧ s.InTurn l) (setupPosix n e b k hk) tr s) :
    ChainOrdered (coreEvents tr) := by
  obtain ⟨a, hist, -⟩ := posix_history (C := InTurn) (fun _ _ h => h.1)
    (fun tr s _ l ev c a l' act _ _ _ _ _ hinv hd _ hist hrep hm hmatch hact =>
      inTurn_of_made hinv hd.2 hist hrep hm hmatch hact) hr
  intro pre e post i htr hi j hji
  obtain ⟨hlt, hgave⟩ := History.gives_in_order hist pre e post htr i hi
  exact hgave j ((History.earlier_iff hist hlt.le).mp hji)

/-- A linked `openat` on the worker: the op behind it waits for the ticket, and is run when the CQE is posted. -/
theorem chains_complete_in_order_worker : ∃ tr s,
    Run posixMachine (fun s l => s.Spares l ∧ s.InTurn l) (setupPosix 2 4 false 1 Nat.one_pos) tr s ∧
      .start 1 ∈ coreEvents tr ∧ Earlier (coreEvents tr) 0 1 ∧ ChainOrdered (coreEvents tr) := by
  obtain ⟨tr, s, hr, hstart, haccept⟩ := Run.of_exec posixMachine
    (fun s l => s.Spares l ∧ s.InTurn l) (setupPosix 2 4 false 1 Nat.one_pos)
    (fun tr _ => .start 1 ∈ coreEvents tr ∧
      .accept 0 { opcode := .openat, flags := { ioLink := true } } ∈ coreEvents tr)
    [.engine (.enter { entries := [some { opcode := .openat, flags := { ioLink := true } },
        some { opcode := .nop }], minComplete := 2, getevents := true }),
      .engine .takeSqe, .engine .takeSqe, .engine .append, .engine (.queueStep .own []),
      .tries .again false [] [], .workerTake, .workerFinish 3, .workerPost [], .pending,
      .engine (.queueStep .own []), .engine (.settle []), .engine (.check 0), .workerPoke, .wake true [],
      .drain, .drain, .back, .engine (.complete []), .engine (.queueStep .own [])] (by decide +kernel)
  refine ⟨tr, s, hr, hstart, ⟨Nat.one_pos, fun m _ hm => ?_⟩, chains_complete_in_order hr⟩
  obtain rfl : m = 0 := by omega
  exact ⟨_, haccept, rfl⟩

end SlipstreamIO.Engine
