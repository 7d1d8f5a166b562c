import SlipstreamIO.CancelAnswers
import SlipstreamIO.LinkChains
import SlipstreamIO.PosixLabels

/-! Who ends with -ECANCELED: the ops a cancel names, and what stands behind a failed or taken member of
its own chain. -/
namespace SlipstreamIO.Engine

open ThreadedList Runs

/-- An op that ends cancelled was taken, or stands behind a member of its chain that failed or was taken,
or has -ECANCELED for its own result; and nothing behind a taken member is run. -/
structure CancelRules (tr : List Event) : Prop where
  takes : ∀ c t sc st, .take c t sc st ∈ tr → cancelNames sc st = true ∧
    ∃ sqe, .accept c sqe ∈ tr ∧ sqe.opcode.cancels = true
  ends : ∀ i how, how ∈ finishes tr i → how = none ∨ how = some (-ecanceled) → Taken tr i ∨
    (∃ j, Earlier tr j i ∧ (Taken tr j ∨ ∃ res, .result j res ∈ tr ∧ res < 0)) ∨
      .start i ∈ tr ∧ .result i (-ecanceled) ∈ tr
  chain : ∀ j i, Taken tr j → Earlier tr j i →
    .start i ∉ tr ∧ ∀ how ∈ finishes tr i, how = none ∨ how = some (-ecanceled)

/-- The op in hand is a cancel when it takes another. -/
def TakenByCancel (a : Chains) : Act → Prop
  | .takeHeld _ _ _ _ | .takeQueued _ _ _ _ => ∃ c, a.current = some c ∧ (a.sqe c).opcode.cancels = true
  | _ => True

/-- Chains stay apart, and cancels do the taking. -/
def Apart (a : Chains) (act : Act) : Prop := Clean (fun _ => True) a act ∧ TakenByCancel a act

section Acts
variable {C : Chains → Act → Prop} {a : Chains} {tr : List Event}

/-- An op that `took` another has its take in the trace. -/
theorem History.took_takes (h : History C tr a) :
    a.took = true → ∀ c, a.current = some c → takenBy tr c ≠ [] := by
  refine h.invariant (fun tr a => a.took = true → ∀ c, a.current = some c → takenBy tr c ≠ [])
    (fun ht => by cases ht) ?_
  rintro tr a ev a' - htook ⟨act, -, hs⟩
  cases hs with
  | cancelLoud | fail | message | begin =>
    intro ht
    cases ht
  | cancelQuiet hc =>
    intro _ c hc'
    cases hc.symm.trans hc'
  | post | pend =>
    intro _ c hc
    cases hc
  | takeHeld hc | takeQueued hc =>
    intro _ c hc'
    obtain rfl := Option.some.inj (hc.symm.trans hc')
    rw [takenBy_append]
    apply List.append_ne_nil_of_right_ne_nil
    simp [takenBy, takenOf]
  | _ =>
    intro ht c hc
    rw [takenBy_append]
    exact List.append_ne_nil_of_left_ne_nil (htook ht c hc) _

/-- What takes is an accepted cancel. -/
theorem History.takers (hC : ∀ a act, C a act → TakenByCancel a act) (h : History C tr a) :
    ∀ c t sc st, .take c t sc st ∈ tr → c < a.n ∧ (a.sqe c).opcode.cancels = true := by
  refine h.invariant (fun tr a => ∀ c t sc st, .take c t sc st ∈ tr →
    c < a.n ∧ (a.sqe c).opcode.cancels = true) (fun _ _ _ _ he => absurd he List.not_mem_nil) ?_
  rintro tr a ev a' hist htakes ⟨act, hact, hs⟩ c t sc st he
  obtain ⟨hw, -⟩ := History.accounts hist
  have htaker := hC a act hact
  have hnow {x : ℕ} (hc : a.current = some x) (hx : ∃ c, a.current = some c ∧
      (a.sqe c).opcode.cancels = true) : x < a.n ∧ (a.sqe x).opcode.cancels = true := by
    obtain ⟨y, hy, hcode⟩ := hx
    obtain rfl := Option.some.inj (hc.symm.trans hy)
    refine ⟨?_, hcode⟩
    by_contra hn
    exact (hw.current x hc).1 ((hw.born x).mpr (by omega))
  cases hs with
  | accept sqe =>
    obtain ⟨hlt, hcode⟩ := htakes c t sc st (by simpa using he)
    refine ⟨Nat.lt_succ_of_lt hlt, ?_⟩
    rw [show Chains.sqe _ c = a.sqe c from if_neg hlt.ne]
    exact hcode
  | takeHeld hc | takeQueued hc =>
    rcases List.mem_append.mp he with he | he
    · exact htakes c t sc st he
    · simp only [List.mem_cons, Event.take.injEq, reduceCtorEq, List.not_mem_nil, or_false] at he
      obtain ⟨rfl, rfl, rfl, rfl⟩ := he
      exact hnow hc htaker
  | _ => exact htakes c t sc st (by simpa using he)

/-- No op but a cancel has taken another. -/
theorem History.took_cancels (hC : ∀ a act, C a act → TakenByCancel a act) (h : History C tr a)
    (ht : a.took = true) {c : ℕ} (hc : a.current = some c) : (a.sqe c).opcode.cancels = true := by
  obtain ⟨t, htaken⟩ := List.exists_mem_of_ne_nil _ (h.took_takes ht c hc)
  obtain ⟨e, he, hof⟩ := List.mem_filterMap.mp htaken
  cases e with
  | take x t sc st =>
    simp only [takenOf, Option.ite_none_right_eq_some] at hof
    obtain ⟨rfl, -⟩ := hof
    exact (h.takers hC x t sc st he).2
  | _ => cases hof

theorem Earlier.le {i j : ℕ} (h : History C tr a) (hji : Earlier tr j i) : i ≤ a.n := by
  obtain ⟨hlt, hlinked⟩ := hji
  obtain ⟨-, -, haccept⟩ := History.accounts h
  obtain ⟨sqe, hs, -⟩ := hlinked (i - 1) (by omega) (by omega)
  have hborn := ((haccept (i - 1) sqe).mp hs).1
  omega

/-- The rules of cancelling, from a history that keeps chains apart. -/
theorem History.cancelRules (h : History Apart tr a) (hnamed : TakesNamed tr) : CancelRules tr := by
  obtain ⟨hw, hacc, haccept⟩ := History.accounts h
  have hclean : History (Clean fun _ => True) tr a :=
    Path.mono (fun _ _ _ ⟨act, hC, hs⟩ => ⟨act, hC.1, hs⟩) h
  have hj := History.judged hclean
  have hl := History.lawful hclean
  have hfront := hw.front_le
  have hended {i : ℕ} {how : Option Int32} (hi : how ∈ finishes tr i) :
      (∃ res, how = some res ∧ .result i res ∈ tr) ∨ Taken tr i ∧ how = some (-ecanceled) ∨
        ∃ q, .cancel i q ∈ tr ∧ how = if q then none else some (-ecanceled) := by
    obtain ⟨e, he, hei⟩ := List.mem_filterMap.mp hi
    cases e with
    | result k res =>
      simp only [finishOf, Option.ite_none_right_eq_some, Option.some.injEq] at hei
      obtain ⟨rfl, rfl⟩ := hei
      exact .inl ⟨res, rfl, he⟩
    | cancel k q =>
      simp only [finishOf, Option.ite_none_right_eq_some, Option.some.injEq] at hei
      obtain ⟨rfl, rfl⟩ := hei
      exact .inr (.inr ⟨q, he, rfl⟩)
    | take c k sc st =>
      simp only [finishOf, Option.ite_none_right_eq_some, Option.some.injEq] at hei
      obtain ⟨rfl, rfl⟩ := hei
      exact .inr (.inl ⟨⟨c, sc, st, he⟩, rfl⟩)
    | _ => cases hei
  refine ⟨fun c t sc st he => ⟨hnamed c t sc st he, ?_⟩, fun i how hi hhow => ?_, fun j i hjt hji => ?_⟩
  · obtain ⟨hlt, hcode⟩ := h.takers (fun _ _ hC => hC.2) c t sc st he
    exact ⟨a.sqe c, (haccept c _).mpr ⟨hlt, rfl⟩, hcode⟩
  · rcases hended hi with ⟨res, rfl, hr⟩ | ⟨ht, -⟩ | ⟨q, hq, -⟩
    · obtain hres | hres := hhow
      · cases hres
      · cases hres
        exact .inr (.inr ⟨hj.answered i _ hr, hr⟩)
    · exact .inl ht
    · obtain ⟨j, hji, -, hbad⟩ := hl.drops i q hq
      have hlt := hj.dropped i q hq
      exact .inr (.inl ⟨j, (History.earlier_iff h (by omega)).mpr hji, hbad⟩)
  · have hnot : .start i ∉ tr :=
      hl.stops j i ((History.earlier_iff h (hji.le h)).mp hji) (.inl hjt)
    refine ⟨hnot, fun how hi => ?_⟩
    rcases hended hi with ⟨res, -, hr⟩ | ⟨-, rfl⟩ | ⟨q, -, rfl⟩
    · exact absurd (hj.answered i res hr) hnot
    · exact .inr rfl
    · cases q with
      | true => exact .inl rfl
      | false => exact .inr rfl

end Acts

namespace Posix
variable {s : Posix} {l : PosixLabel} {c : Core} {ev : List Event} {t x : Slot} {p : Link Slot}

/-- The op in the queue that the cancel inside execute takes next, with the link to it. -/
def takesQueued (s : Posix) : Option (Link Slot × Slot) :=
  match s.back, s.core.pc.executing with
  | .cancelQueue p _, some c =>
    (p.read s.core.ring.next s.core.ring.queueHead).bind fun t =>
      if cancelNames (s.core.ring.opPool c).sqe (s.core.ring.opPool t).sqe then some (p, t) else none
  | _, _ => none

/-- What is taken stands at the front of the queue and takes the rest of its chain along, or ends no chain
that is being cancelled; or it stands alone, behind the end of a chain. -/
def StandsApart (s : Posix) : Option (Link Slot × Slot) → Prop
  | some (.head, t) => s.core.ring.linked t = true ∨ s.core.ring.chainFailed = .holds
  | some (.nextOf x, t) => s.core.ring.linked x = false ∧ s.core.ring.linked t = false
  | none => True

instance (s : Posix) : (found : Option (Link Slot × Slot)) → Decidable (s.StandsApart found)
  | some (.head, _) => inferInstanceAs (Decidable (_ ∨ _))
  | some (.nextOf _, _) => inferInstanceAs (Decidable (_ ∧ _))
  | none => isTrue trivial

/-- An op taken out of the queue stands apart. -/
def TakesApart (s : Posix) : PosixLabel → Prop
  | .cancel _ _ => s.StandsApart s.takesQueued
  | _ => True

instance (s : Posix) : (l : PosixLabel) → Decidable (s.TakesApart l)
  | .cancel _ _ => inferInstanceAs (Decidable (s.StandsApart _))
  | .engine _ | .tries _ _ _ _ | .pending | .wake _ _ | .drain | .ready _ | .cameBack _ _ | .back | .fail
  | .workerTake | .workerFinish _ | .workerPost _ | .workerPoke | .senderEmit _ _ _ | .senderPoke
  | .interrupted _ | .table _ => isTrue trivial

theorem FindsQueued.takesQueued {k : Slot} (h : s.FindsQueued p k t) : s.takesQueued = some (p, t) := by
  obtain ⟨⟨count, hback⟩, hexec, hread, hname⟩ := h
  simp only [Posix.takesQueued, hback, hexec, hread, hname, Option.bind_some, if_true]

/-- The step with a cancel's answer takes nothing. -/
theorem takeless_made {count : ℕ} (hback : s.back = .cancelAnswer count)
    (hr : Run coreMachine (s.Makes l) s.core ev c) : Takeless ev := by
  refine hr.invariant (fun ev _ => Takeless ev) (fun _ _ _ _ he => absurd he List.not_mem_nil) ?_
  rintro ev c l' c' - hev hm hs
  refine hev.append (takeless_events c ?_ ?_)
  · rintro t reads rfl
    obtain ⟨-, hnot, -⟩ := hm
    exact hnot count hback
  · rintro p reads rfl
    obtain ⟨-, -, -, x, t, ⟨n, hq⟩, -⟩ := hm
    cases hback.symm.trans hq

end Posix

section Steps
variable {c : Core} {a : Chains} {free backlog queue batch : List Slot} {x : Slot}

/-- The op inside execute is the one in hand. -/
theorem Rep.inHand (h : Rep c a free backlog queue batch) (hw : a.WellFormed)
    (hx : c.pc.executing = some x) : ∃ i, a.current = some i ∧ (c.ring.opPool x).seq = some i ∧
      (c.ring.opPool x).sqe.opcode = (a.sqe i).opcode := by
  obtain ⟨i, hi, hst, hcopy⟩ := h.placed.tracks.owner x .running hx
  exact ⟨i, (hw.running i hst).1, hi, hcopy.opcode⟩

theorem Rep.cancelling (h : Rep c a free backlog queue batch) (hw : a.WellFormed) (hc : c.cancelling) :
    ∃ i, a.current = some i ∧ (a.sqe i).opcode.cancels = true := by
  obtain ⟨x, hx, hcode⟩ := hc
  obtain ⟨i, hi, -, hop⟩ := h.inHand hw hx
  exact ⟨i, hi, hop ▸ hcode⟩

/-- An op in the queue is linked in the ring as in its SQE. -/
theorem Rep.queue_linked (h : Rep c a free backlog queue batch) {i : ℕ} (hx : x ∈ queue)
    (hi : (c.ring.opPool x).seq = some i) : c.ring.linked x = a.linked i := by
  obtain ⟨j, hj, -, hcopy⟩ := h.placed.tracks.owner x .queued (List.mem_append_left _ hx)
  obtain rfl := Option.some.inj (hj.symm.trans hi)
  exact linked_eq hcopy

/-- The split of the ring's queue and that of the abstract one are the same. -/
theorem split_eq {pre suf : List Slot} {pre' suf' : List ℕ} {seq : Slot → Option ℕ} {i : ℕ}
    (hnd : (pre' ++ i :: suf').Nodup) (hi : seq x = some i)
    (hq : (pre' ++ i :: suf').map some = (pre ++ x :: suf).map seq) : pre'.map some = pre.map seq := by
  have hnd' : ((pre' ++ i :: suf').map some).Nodup := hnd.map (Option.some_injective ℕ)
  simp only [List.map_append, List.map_cons, hi] at hq hnd'
  have hnot := List.nodup_middle.mp hnd'
  rw [List.nodup_cons, List.mem_append, not_or] at hnot
  exact ((List.append_cons_inj_of_notMem hnot.1.1 hnot.1.2).mp hq).1

/-- An op that comes off the queue as `TakesApart` has it leaves chains apart. -/
theorem clean_takeQueued {pre suf : List Slot} {i : ℕ} {g : Option Cqe} {sc st : Sqe}
    (h : Rep c a free backlog queue batch) (hw : a.WellFormed)
    (hthreads : Threads c.ring.next c.ring.queueHead (pre ++ x :: suf))
    (hqueue : a.queue.map some = (pre ++ x :: suf).map (fun x => (c.ring.opPool x).seq))
    (hi : (c.ring.opPool x).seq = some i)
    (hhead : pre = [] → c.ring.linked x = true ∨ c.ring.chainFailed = .holds)
    (hbehind : ∀ y, pre.getLast? = some y → c.ring.linked y = false ∧ c.ring.linked x = false) :
    Clean (fun _ => True) a (.takeQueued i g sc st) := by
  obtain rfl := threads_unique hthreads h.placed.queueList.threads
  have hx := h.queue_linked (by simp) hi
  intro pre' suf' hq
  have hnd : (pre' ++ i :: suf').Nodup := hq ▸ hw.sorted.imp fun hlt => hlt.ne
  rw [hq] at hqueue
  have hpre := split_eq hnd hi hqueue
  refine ⟨fun hnil => ?_, fun y' hy' => ?_⟩
  · rw [hnil, List.map_nil] at hpre
    rw [← hx, ← h.governs.failed]
    exact hhead (List.map_eq_nil_iff.mp hpre.symm)
  · have hlast := congrArg List.getLast? hpre
    rw [List.getLast?_map, List.getLast?_map, hy', Option.map_some] at hlast
    obtain ⟨y, hy, hyi⟩ := Option.map_eq_some_iff.mp hlast.symm
    have hmem : y ∈ pre ++ x :: suf := List.mem_append_left _ (List.mem_of_getLast? hy)
    obtain ⟨hly, hlx⟩ := hbehind y hy
    rw [← h.queue_linked hmem hyi, ← hx]
    exact ⟨hly, hlx⟩

end Steps

section Made
variable {n : ℕ} {e : UInt32} {b : Bool} {k : ℕ} {hk : 0 < k} {tr : List PosixEvent} {s : Posix}
  {l : PosixLabel} {ev : List Event} {c : Core} {a : Chains} {free backlog queue batch : List Slot}
  {l' : CoreLabel} {act : Act}

theorem cancels_inline {o : Opcode} (h : o.cancels = true) : o.inline = true := by
  cases o <;> first | rfl | cases h

/-- A cancel that took something answers that. -/
theorem cancel_answer_nonneg (hn : n ≤ 2 ^ 31) (hr : Run posixMachine Posix.Spares (setupPosix n e b k hk) tr s)
    {count : ℕ} {x : Slot} {i : ℕ} (hback : s.back = .cancelAnswer count)
    (hx : s.core.pc.executing = some x) (hi : (s.core.ring.opPool x).seq = some i)
    (htook : takenBy (coreEvents tr) i ≠ []) :
    0 ≤ Engine.cancelAnswer s.core.ring (s.core.ring.opPool x).sqe count := by
  obtain ⟨hcore, wq, hinv⟩ := posix_refines hr
  have hpool : s.core.ring.opPoolN = n :=
    hcore.invariant (fun _ s => s.ring.opPoolN = n) rfl
      (fun _ _ _ _ _ h hk hs => (core_step_opPoolN hk hs).trans h)
  have hlen := (Posix.counts_run hr).2 x i hx hi
  rw [hback] at hlen
  have hpos : 0 < count := by
    have hlt := List.length_pos_iff.mpr htook
    rwa [hlen] at hlt
  have hlt := (hinv.answer_cases hback hx).1
  rw [Posix.cancelAnswer_eq hcore hx, if_pos hpos]
  split
  · apply Int32.le_iff_toInt_le.mpr
    rw [Int32.toInt_ofNat_of_lt (by omega)]
    exact Int.natCast_nonneg count
  · exact Int32.le_refl 0

theorem apart_of_made (hn : n ≤ 2 ^ 31) (hr : Run posixMachine Posix.Spares (setupPosix n e b k hk) tr s)
    (hd : s.TakesApart l) (hrun : Run coreMachine (s.Makes l) s.core ev c)
    (hist : History Apart (coreEvents tr ++ ev) a) (hrep : Rep c a free backlog queue batch)
    (hm : s.Makes l c l') (hmatch : Matches c a l' act) (hact : ∃ ev' a', act.Step a ev' a') :
    Apart a act := by
  obtain ⟨hw, -⟩ := History.accounts hist
  have hcancels := fun ht i hi => hist.took_cancels (fun _ _ hC => hC.2) ht (c := i) hi
  cases act with
  | takeHeld t g sc st =>
    cases l' with
    | cancelHeld y reads => exact ⟨trivial, hrep.cancelling hw hm.1.2⟩
    | _ => exact hmatch.elim
  | takeQueued t g sc st =>
    cases l' with
    | cancelQueued p reads =>
      refine ⟨?_, hrep.cancelling hw hm.1.2⟩
      obtain ⟨x, pre, suf, rfl, hthreads, hqueue, hi, -⟩ := hmatch
      obtain ⟨-, rfl, ⟨links, reads', rfl⟩, y, z, hfinds⟩ := hm
      -- the link leads to the op that is taken
      obtain rfl : z = x := by
        obtain ⟨q, hq, hrest⟩ := seg_append.mp hthreads
        exact Option.some.inj (hfinds.2.2.1.symm.trans (hq.read_after.trans hrest.1))
      rw [Posix.TakesApart, hfinds.takesQueued, Posix.StandsApart.eq_def] at hd
      refine clean_takeQueued hrep hw hthreads hqueue hi (fun hnil => ?_) (fun y hy => ?_)
      · subst hnil
        exact hd
      · simp only [Link.after, hy] at hd
        exact hd
    | _ => exact hmatch.elim
  | answer res =>
    refine ⟨fun ht => ?_, trivial⟩
    obtain ⟨_, _, hstep⟩ := hact
    cases hstep with
    | @answer i _ hc hs =>
    cases l' with
    | execDone res' =>
      obtain rfl : res = res' := hmatch
      obtain ⟨x, hx, hi⟩ := hrep.placed.tracks.slot i (by rw [hs]; rfl)
      rw [hs] at hx
      obtain ⟨j, hj, hij, hop⟩ := hrep.inHand hw hx
      obtain rfl := Option.some.inj (hj.symm.trans hc)
      rcases hm.2 with hnot | ⟨rfl, count, y, hback, hy, rfl⟩
      · have hcode := hcancels ht j hc
        rw [← hop, hnot x hx] at hcode
        cases hcode
      · obtain rfl := Option.some.inj (hx.symm.trans hy)
        apply cancel_answer_nonneg hn hr hback hx hi
        have htaken := hist.took_takes ht j hc
        rwa [takenBy_append, (Posix.takeless_made hback hrun).takenBy, List.append_nil] at htaken
    | _ => exact hmatch.elim
  | hold =>
    refine ⟨?_, trivial⟩
    obtain ⟨_, _, hstep⟩ := hact
    cases hstep with
    | @hold i hc hs =>
    cases l' with
    | execTake =>
      obtain ⟨x, hx, hi⟩ := hrep.placed.tracks.slot i (by rw [hs]; rfl)
      rw [hs] at hx
      obtain ⟨j, hj, -, hop⟩ := hrep.inHand hw hx
      show a.took = false
      by_contra ht
      rw [Bool.not_eq_false] at ht
      have hcode := hcancels ht j hj
      have hinline := hm.2 x hx
      rw [← hop] at hcode
      cases (cancels_inline hcode).symm.trans hinline
    | _ => exact hmatch.elim
  | message res => exact ⟨fun _ _ _ _ => trivial, trivial⟩
  | _ => exact ⟨trivial, trivial⟩

end Made

/-- In every run in which the ops that cancels find in the queue stand apart, nobody is cancelled for
another chain's sake, and nothing behind a cancelled member runs. -/
theorem cancels_spare_bystanders {n : ℕ} {e : UInt32} {b : Bool} {k : ℕ} {hk : 0 < k} (hn : n ≤ 2 ^ 31)
    {tr : List PosixEvent} {s : Posix}
    (hr : Run posixMachine (fun s l => s.Spares l ∧ s.TakesApart l) (setupPosix n e b k hk) tr s) :
    CancelRules (coreEvents tr) := by
  obtain ⟨a, hist, -⟩ := posix_history (C := Apart) (fun _ _ h => h.1)
    (fun tr s _ l ev c a l' act _ _ _ _ hr _ hd hrun hist hrep hm hmatch hact =>
      apart_of_made hn (hr.mono fun _ _ h => h.1) hd.2 hrun hist hrep hm hmatch hact) hr
  exact hist.cancelRules (Posix.counts_run (hr.mono fun _ _ h => h.1)).1

/-- A cancel takes the first op of the chain behind it: the other member goes with it, and the next op runs. -/
theorem cancels_spare_bystanders_chain : ∃ tr s,
    Run posixMachine (fun s l => s.Spares l ∧ s.TakesApart l) (setupPosix 4 8 false 1 Nat.one_pos) tr s ∧
      takenBy (coreEvents tr) 0 = [1] ∧ .cancel 2 false ∈ coreEvents tr ∧ .start 3 ∈ coreEvents tr ∧
      CancelRules (coreEvents tr) := by
  obtain ⟨tr, s, hr, htaken, hcancel, hstart⟩ := Run.of_exec posixMachine
    (fun s l => s.Spares l ∧ s.TakesApart l) (setupPosix 4 8 false 1 Nat.one_pos)
    (fun tr _ => takenBy (coreEvents tr) 0 = [1] ∧ .cancel 2 false ∈ coreEvents tr ∧
      .start 3 ∈ coreEvents tr)
    [.engine (.enter { entries := [some { opcode := .asyncCancel, addr := 9 },
        some { userData := 9, flags := { ioLink := true } }, some {}, some {}] }),
      .engine .takeSqe, .engine .takeSqe, .engine .takeSqe, .engine .takeSqe, .engine .append,
      .engine (.queueStep .own []), .cancel [] [], .cancel [] [], .cancel [] [], .cancel [] [],
      .engine (.post []), .engine (.queueStep .own []), .engine (.post []),
      .engine (.queueStep .own [])] (by decide +kernel)
  exact ⟨tr, s, hr, htaken, hcancel, hstart, cancels_spare_bystanders (by decide) hr⟩

end SlipstreamIO.Engine
