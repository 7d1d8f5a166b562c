import SlipstreamIO.IocpVoice

/-! Where the sockets are that the completion port backend makes for accepts: with the caller and in the
fixed table are those that an answer has told of. -/
namespace SlipstreamIO.Engine

open Runs

/-- What an event answers for SQE `i`. -/
def answerOf (i : ℕ) : PosixEvent → Option Int32
  | .emits j q => if j = i then some q.res else none
  | .core (.result j res) => if j = i then some res else none
  | _ => none

/-- What SQE `i` was answered, in order. -/
def answersOf (tr : List PosixEvent) (i : ℕ) : List Int32 := tr.filterMap (answerOf i)

@[simp] theorem answersOf_append (tr ev : List PosixEvent) (i : ℕ) :
    answersOf (tr ++ ev) i = answersOf tr i ++ answersOf ev i := List.filterMap_append

/-- The answers that gave sockets to SQE `i`. -/
def givenTo (given : List Gift) (i : ℕ) : List Int32 := (given.filter fun g => g.owner = some i).map Gift.res

/-- The answer says where the socket is: its descriptor, or for an accept with a `file_index` its slot, for
which 0 stands where the caller chose it. -/
structure Gift.Fits (g : Gift) : Prop where
  plain : g.fileIndex = 0 → g.slot = none ∧ g.res = g.fd.1
  allocates : g.fileIndex = ioringFileIndexAlloc → ∃ slot, g.slot = some slot ∧ g.res = Int32.ofNat slot
  chosen : g.fileIndex ≠ 0 → g.fileIndex ≠ ioringFileIndexAlloc →
    g.slot = some (g.fileIndex - 1).toNat ∧ g.res = 0

/-- What is in the table are the sockets that were given to it, each in its slot. -/
structure Ring.Holds (r : Ring) (given : List Gift) : Prop where
  cells : ∀ (slot : ℕ) (fd : NonNeg), (r.fixed.getD [])[slot]? = some fd.1 ↔
    ∃ g ∈ given, g.slot = some slot ∧ g.fd = fd
  once : (given.filterMap Gift.slot).Nodup

section Table
variable {r r' : Ring} {given : List Gift} {g : Gift} {slot : ℕ}

theorem Ring.fileTable_fixed (h : r'.fileTable = r.fileTable) : r'.fixed = r.fixed := congrArg Prod.fst h

theorem Ring.HintHolds.congr (h : r.HintHolds) (ht : r'.fileTable = r.fileTable) : r'.HintHolds := by
  simp only [Ring.fileTable, Prod.mk.injEq] at ht
  obtain ⟨hfixed, hoff, hlen, hhint⟩ := ht
  have hn : r'.fixedN = r.fixedN := by rw [Ring.fixedN, hfixed, Ring.fixedN]
  have hheld (j : ℕ) : r'.held j = r.held j := by rw [Ring.held, hfixed, Ring.held]
  refine ⟨hn ▸ h.small, ?_, ?_, ?_, ?_⟩
  · rw [hn, hoff, hlen]
    exact h.range
  · rw [hoff, hhint]
    exact h.hintLow
  · rw [hoff, hlen, hhint]
    exact h.hintHigh
  · rw [hoff, hhint]
    intro j hlow hj
    rw [hheld]
    exact h.below j hlow hj

theorem Ring.Holds.congr (h : r.Holds given) (hfixed : r'.fixed = r.fixed) : r'.Holds given := by
  refine ⟨?_, h.once⟩
  rw [hfixed]
  exact h.cells

/-- Without a table nothing is in a slot. -/
theorem Ring.Holds.slotless (h : r.Holds given) (hfixed : r.fixed = none) (hg : g ∈ given) : g.slot = none := by
  by_contra hsome
  obtain ⟨slot, hslot⟩ := Option.ne_none_iff_exists'.mp hsome
  have hcell := (h.cells slot g.fd).mpr ⟨g, hg, hslot, rfl⟩
  rw [hfixed] at hcell
  cases hcell

/-- A table with no descriptor, and no gift in a slot. -/
theorem Ring.Holds.empty (hfixed : ∀ (slot : ℕ) (fd : NonNeg), (r.fixed.getD [])[slot]? ≠ some fd.1)
    (hnone : ∀ g ∈ given, g.slot = none) : r.Holds given := by
  refine ⟨fun slot fd => iff_of_false (hfixed slot fd) ?_, ?_⟩
  · rintro ⟨g, hg, hslot, -⟩
    cases (hnone g hg).symm.trans hslot
  · have hnil : given.filterMap Gift.slot = [] := List.filterMap_eq_nil_iff.mpr hnone
    rw [hnil]
    exact List.nodup_nil

/-- A socket for the caller. -/
theorem Ring.Holds.hands (h : r.Holds given) (hslot : g.slot = none) : r.Holds (given ++ [g]) := by
  refine ⟨fun slot fd => ?_, ?_⟩
  · rw [h.cells]
    constructor
    · rintro ⟨g', hg', hat⟩
      exact ⟨g', List.mem_append_left _ hg', hat⟩
    · rintro ⟨g', hg', hat⟩
      rcases List.mem_append.mp hg' with hold | hnew
      · exact ⟨g', hold, hat⟩
      · rw [List.mem_singleton.mp hnew, hslot] at hat
        cases hat.1
  · rw [List.filterMap_append, List.filterMap_cons, hslot, List.filterMap_nil, List.append_nil]
    exact h.once

/-- A socket for an empty slot. -/
theorem Ring.Holds.installs {table : List Int32} (h : r.Holds given) (htable : r.fixed = some table)
    (hfree : table.getD slot 0 < 0) (hslot : g.slot = some slot)
    (hfixed : r'.fixed = some (table.set slot g.fd.1)) : r'.Holds (given ++ [g]) := by
  have hlt : slot < table.length := lt_length_of_getD hfree
  have hcells := h.cells
  rw [htable, Option.getD_some] at hcells
  -- so far nothing was given to the slot
  have hnew (g' : Gift) (hg' : g' ∈ given) : g'.slot ≠ some slot := by
    intro hat
    have hcell := (hcells slot g'.fd).mpr ⟨g', hg', hat, rfl⟩
    rw [List.getD_eq_getElem?_getD, hcell, Option.getD_some] at hfree
    exact absurd g'.fd.2 (Int32.not_le.mpr hfree)
  refine ⟨fun j fd => ?_, ?_⟩
  · rw [hfixed, Option.getD_some, List.getElem?_set]
    constructor
    · intro hcell
      split at hcell
      · next hj =>
        subst hj
        have hfd := Option.some.inj hcell
        exact ⟨g, List.mem_append_right _ List.mem_cons_self, hslot, Subtype.ext hfd⟩
      · obtain ⟨g', hg', hat⟩ := (hcells j fd).mp hcell
        exact ⟨g', List.mem_append_left _ hg', hat⟩
    · rintro ⟨g', hg', hat, rfl⟩
      rcases List.mem_append.mp hg' with hold | hnow
      · have hne : slot ≠ j := by
          rintro rfl
          exact hnew g' hold hat
        rw [if_neg hne]
        exact (hcells j g'.fd).mpr ⟨g', hold, hat, rfl⟩
      · rw [List.mem_singleton.mp hnow] at hat ⊢
        obtain rfl := Option.some.inj (hslot.symm.trans hat)
        rw [if_pos rfl, if_pos hlt]
  · rw [List.filterMap_append, List.filterMap_cons, hslot, List.filterMap_nil]
    refine List.nodup_append.mpr ⟨h.once, List.nodup_singleton _, ?_⟩
    rintro j hj j' hj' rfl
    obtain ⟨g', hg', hat⟩ := List.mem_filterMap.mp hj
    rw [List.mem_singleton.mp hj'] at hat
    exact hnew g' hg' hat

/-- A registration makes a table with no descriptor, or leaves what is in it. -/
theorem Ring.Holds.registers (h : r.Holds given) {l : TableLabel} (hl : l.registers = true)
    (hne : l ≠ .unregister) : (r.tableStep l).1.Holds given := by
  cases l with
  | files2 arg table =>
    simp only [Ring.tableStep, Ring.registerFiles2]
    (repeat' split) <;> try exact h
    next hnone _ =>
    rw [Bool.not_eq_true, Option.isSome_eq_false_iff, Option.isNone_iff_eq_none] at hnone
    refine .empty (fun slot fd hcell => ?_) fun g hg => h.slotless hnone hg
    have hmem := List.mem_of_getElem? hcell
    rw [Option.getD_some, List.mem_replicate] at hmem
    have hneg : ¬ (0 : Int32) ≤ -1 := by decide
    exact hneg (hmem.2 ▸ fd.2)
  | allocRange arg =>
    simp only [Ring.tableStep, Ring.registerFileAllocRange]
    (repeat' split) <;> exact h.congr rfl
  | unregister => exact absurd rfl hne
  | install fileIndex fd | clear slot => cases hl

end Table

namespace IocpState
section Given
variable (st : IocpState) {r : Ring}

/-- What `iocp_wait` makes of the socket of an accept: nobody new has it, or it is given away with the answer,
to the caller or into an empty slot. -/
theorem answer_gives (h : r.HintHolds) (o : IocpOp) (answer : Except UInt32 UInt32) :
    ((st.iocpAnswer r o answer).2.1.given = st.given ∧ (st.iocpAnswer r o answer).1 = r) ∨
      ∃ g : Gift, g.owner = (r.opPool o.op).seq ∧ g.res = (st.iocpAnswer r o answer).2.2 ∧ g.Fits ∧
        (st.iocpAnswer r o answer).2.1.given = st.given ++ [g] ∧
        (g.slot = none ∧ (st.iocpAnswer r o answer).1 = r ∨
          ∃ table slot fileIndex, r.fixed = some table ∧ table.getD slot 0 < 0 ∧ g.slot = some slot ∧
            (st.iocpAnswer r o answer).1 = (r.slipFixedInstall fileIndex g.fd.1).1 ∧
            (st.iocpAnswer r o answer).1.fixed = some (table.set slot g.fd.1)) := by
  unfold iocpAnswer
  cases answer with
  | error e => cases o.kind <;> exact .inl ⟨rfl, rfl⟩
  | ok bytes =>
    cases o.kind with
    | io | connect | poll => exact .inl ⟨rfl, rfl⟩
    | accept accepted multishot fileIndex =>
      dsimp only
      by_cases hplain : fileIndex = 0
      · rw [if_neg (not_not_intro hplain)]
        refine .inr ⟨_, rfl, rfl, ⟨fun _ => ⟨rfl, rfl⟩, fun halloc => ?_, fun hne => absurd hplain hne⟩, rfl,
          .inl ⟨rfl, rfl⟩⟩
        rw [hplain] at halloc
        exact absurd halloc (show (0 : UInt32) ≠ ioringFileIndexAlloc by decide)
      rw [if_pos hplain]
      obtain ⟨hneg, hsame⟩ | ⟨table, slot, htable, hfree, hsmall, hfixed, hanswer, hchosen⟩ :=
        h.install_cases fileIndex accepted.fd.1
      · rw [if_pos hneg]
        exact .inl ⟨rfl, hsame⟩
      · have hpos : ¬ (r.slipFixedInstall fileIndex accepted.fd.1).2 < 0 := by
          rw [hanswer]
          exact ofNat_nonneg hsmall
        rw [if_neg hpos]
        have hslot : (Int32.ofNat slot).toInt.toNat = slot := by
          rw [Int32.toInt_ofNat_of_lt hsmall, Int.toNat_natCast]
        refine .inr ⟨_, rfl, rfl, ⟨fun hzero => absurd hzero hplain, fun halloc => ?_, fun _ hne => ?_⟩, rfl,
          .inr ⟨table, slot, fileIndex, htable, hfree, ?_, rfl, hfixed⟩⟩
        · refine ⟨slot, ?_, ?_⟩
          · rw [hanswer, hslot]
          · show (if fileIndex = ioringFileIndexAlloc then _ else _) = _
            rw [if_pos halloc, hanswer]
        · refine ⟨?_, ?_⟩
          · rw [hanswer, hslot, hchosen hne]
          · show (if fileIndex = ioringFileIndexAlloc then _ else _) = _
            exact if_neg hne
        · rw [hanswer, hslot]

end Given
end IocpState

/-- Every socket that was made for an accept was closed again, was given to the caller or the fixed table, or
goes with one wrapper in flight, and none is in two of these places; only a ring that closes loses any. In the
table are those that were given to it, each in its slot. Each socket that was given away was told to the op it
was accepted for, by an answer of its own that says where it is, and the answers come into the CQ. -/
structure Iocp.SocketsKept (s : Iocp) (tr : List PosixEvent) : Prop where
  accounted : (s.be.closed ++ s.be.given.map Gift.number ++ s.be.lost ++
    s.be.inFlight.filterMap s.be.childAt).Perm (List.range s.be.sockets)
  kept : s.phase = .running → s.be.lost = []
  table : s.core.ring.Holds s.be.given
  fits : ∀ g ∈ s.be.given, g.Fits
  owned : ∀ g ∈ s.be.given, ∃ i, g.owner = some i
  answered : ∀ i, (givenTo s.be.given i).Sublist (answersOf tr i)
  heard : s.Heard tr
  conserves : ∃ free backlog queue batch, Conserves s.core (coreEvents tr) free backlog queue batch

namespace Iocp

/-- What was given away is in order. -/
structure Gives (s : Iocp) (tr : List PosixEvent) : Prop where
  hint : s.core.ring.HintHolds
  table : s.core.ring.Holds s.be.given
  fits : ∀ g ∈ s.be.given, g.Fits
  owned : ∀ g ∈ s.be.given, ∃ i, g.owner = some i
  answered : ∀ i, (givenTo s.be.given i).Sublist (answersOf tr i)

section Gives
variable {s s' s₀ : Iocp} {tr ev : List PosixEvent} {p : List PosixEvent × Iocp} {g : Gift} {op : Slot}

theorem Gives.keep (h : s.Gives tr) (hs : s.SameSockets s') : s'.Gives (tr ++ ev) := by
  refine ⟨h.hint.congr hs.fileTable, ?_, ?_, ?_, fun i => ?_⟩
  · rw [hs.given]
    exact h.table.congr (Ring.fileTable_fixed hs.fileTable)
  · rw [hs.given]
    exact h.fits
  · rw [hs.given]
    exact h.owned
  · rw [hs.given, answersOf_append]
    exact (h.answered i).trans (List.sublist_append_left _ _)

/-- One more socket is given away, and the op it was accepted for is told. -/
theorem Gives.gives (h : s.Gives tr) (hgiven : s'.be.given = s.be.given ++ [g])
    (hhint : s'.core.ring.HintHolds) (htable : s'.core.ring.Holds (s.be.given ++ [g])) (hfits : g.Fits)
    {i : ℕ} (hi : g.owner = some i) (hres : g.res ∈ answersOf ev i) : s'.Gives (tr ++ ev) := by
  refine ⟨hhint, hgiven ▸ htable, ?_, ?_, fun j => ?_⟩
  · rw [hgiven]
    intro g' hg'
    rcases List.mem_append.mp hg' with hold | hnew
    · exact h.fits g' hold
    · rw [List.mem_singleton.mp hnew]
      exact hfits
  · rw [hgiven]
    intro g' hg'
    rcases List.mem_append.mp hg' with hold | hnew
    · exact h.owned g' hold
    · rw [List.mem_singleton.mp hnew]
      exact ⟨i, hi⟩
  · rw [hgiven, givenTo, List.filter_append, List.map_append, answersOf_append]
    apply (h.answered j).append
    by_cases hj : g.owner = some j
    · obtain rfl := Option.some.inj (hi.symm.trans hj)
      rw [List.filter_singleton, decide_eq_true hj, cond_true]
      exact List.singleton_sublist.mpr hres
    · rw [List.filter_singleton, decide_eq_false hj, cond_false]
      exact List.nil_sublist _

theorem handBack_tells {i : ℕ} {res : Int32} (hi : (s.core.ring.opPool op).seq = some i)
    (hs : s.inCore (.handBack op res) = some p) : s.SameSockets p.2 ∧ res ∈ answersOf p.1 i := by
  refine ⟨(leaves_calm hs (.refl s) rfl).same, ?_⟩
  obtain ⟨c, -, rfl⟩ := inCore_eq hs
  simp [answersOf, Core.events, Core.about, hi, answerOf]

theorem rearm_tells {i : ℕ} {res : Int32} {a : WinAnswers} {reads : List ℕ}
    (hi : (s.core.ring.opPool op).seq = some i) (hs : s.rearm op res a reads = some p) :
    s.SameSockets p.2 ∧ res ∈ answersOf p.1 i := by
  unfold Iocp.rearm at hs
  obtain ⟨q, t, hq, ht, rfl⟩ := andThen_eq hs
  obtain rfl := (Option.some.inj hq).symm
  have hnext := (armNext_calm ht).same
  refine ⟨⟨hnext.given, hnext.fileTable⟩, ?_⟩
  simp [answersOf, Iocp.emits, hi, answerOf]

/-- A packet that is taken gives its socket away with an answer, or closes it. -/
theorem Gives.take (h : s.Gives tr) (hinv : s.Inv) (hg : s.core.Sound) (hr : s.phase = .running)
    {a : WinAnswers} {reads : List ℕ} (hs : s.take a reads = some p) : p.2.Gives (tr ++ p.1) := by
  unfold Iocp.take at hs
  split at hs
  swap
  · cases hs
  next f forever done packet port hpc hport =>
  split at hs
  · cases hs
  split at hs
  · cases hs
    exact h.keep ⟨rfl, rfl⟩
  next w answer =>
  obtain ⟨o, ho, hs⟩ := Option.bind_eq_some_iff.mp hs
  obtain ⟨fixed, allocHint, hfixed⟩ := iocpAnswer_fixed
    { s.be with port, inFlight := s.be.inFlight.erase w } s.core.ring o answer
  have hcases := IocpState.answer_gives { s.be with port, inFlight := s.be.inFlight.erase w } h.hint o answer
  have hheld : s.core.hands o.op = .held := by
    rw [hinv.held hr, (hinv.sourced hr o.op w).mpr ⟨o, ho, rfl⟩]
    rfl
  obtain ⟨i, hi⟩ := hg.has_seq (x := o.op) (.inl (by rw [hheld]; rintro ⟨⟩))
  dsimp only at hs
  generalize hA : IocpState.iocpAnswer { s.be with port, inFlight := s.be.inFlight.erase w } s.core.ring o
    answer = A at hs hcases hfixed
  obtain ⟨r, be, res⟩ := A
  dsimp only at hs hcases hfixed
  have hseq : (r.opPool o.op).seq = some i := by
    rw [hfixed]
    exact hi
  -- the op is told, and what is told leaves the sockets alone
  obtain ⟨hsame, htold⟩ : Iocp.SameSockets
      ({ s with be := (be.setSource o.op none).free w, draining := true }.setRing r) p.2 ∧
      res ∈ answersOf p.1 i := by
    split at hs
    · exact rearm_tells hseq hs
    · exact handBack_tells hseq hs
  obtain ⟨hgiven, rfl⟩ | ⟨g, howner, hres, hfits, hgiven, hwhere⟩ := hcases
  · exact h.keep ⟨hsame.given.trans hgiven, hsame.fileTable⟩
  · have hhint : r.HintHolds ∧ r.Holds (s.be.given ++ [g]) := by
      obtain ⟨hslot, rfl⟩ | ⟨table, slot, fileIndex, htable, hfree, hslot, hring, hset⟩ := hwhere
      · exact ⟨h.hint, h.table.hands hslot⟩
      · refine ⟨?_, h.table.installs htable hfree hslot hset⟩
        rw [hring]
        exact h.hint.install fileIndex g.fd.2
    refine h.gives (hsame.given.trans hgiven) (hhint.1.congr hsame.fileTable)
      (hhint.2.congr (Ring.fileTable_fixed hsame.fileTable)) hfits (howner.trans hi) ?_
    rw [hres]
    exact htold

theorem Gives.registers (h : s.Gives tr) {l : TableLabel} (hl : l.registers = true) :
    (s.registers l).Gives (tr ++ ev) := by
  have hanswered (i : ℕ) : (givenTo s.be.given i).Sublist (answersOf (tr ++ ev) i) := by
    rw [answersOf_append]
    exact (h.answered i).trans (List.sublist_append_left _ _)
  have hhint : (s.core.ring.tableStep l).1.HintHolds := by
    apply h.hint.step
    cases l with
    | install fileIndex fd | clear slot => cases hl
    | _ => trivial
  by_cases hne : l = .unregister
  · -- the sockets in the table go with it
    rw [Iocp.registers, if_pos hne]
    refine ⟨hhint, ?_, fun g hg => h.fits g (List.mem_filter.mp hg).1,
      fun g hg => h.owned g (List.mem_filter.mp hg).1, fun i => ?_⟩
    · refine .empty (fun slot fd hcell => ?_) fun g hg => ?_
      · have hnone : (s.core.ring.tableStep l).1.fixed = none := by
          rw [hne]
          simp only [Ring.tableStep, Ring.unregisterFiles]
          split
          · assumption
          · rfl
        change ((s.core.ring.tableStep l).1.fixed.getD [])[slot]? = _ at hcell
        rw [hnone] at hcell
        cases hcell
      · exact Option.isNone_iff_eq_none.mp (List.mem_filter.mp hg).2
    · exact ((List.filter_sublist.filter _).map _).trans (hanswered i)
  · rw [Iocp.registers, if_neg hne]
    exact ⟨hhint, h.table.registers hl hne, h.fits, h.owned, hanswered⟩

theorem Gives.step (h : s.Gives tr) (hinv : s.Inv) (hg : s.core.Sound) {l : IocpLabel}
    (hs : s.out l = some p) : p.2.Gives (tr ++ p.1) := by
  cases moves_of_out hs with
  | takes a reads hr hs => exact h.take hinv hg hr hs
  | registers s₀ l hl hsame hp =>
    rw [hp]
    have hkept : s₀.Gives (tr ++ []) := h.keep hsame
    rw [List.append_nil] at hkept
    exact hkept.registers hl
  | calm hcalm => exact h.keep hcalm.same

end Gives
end Iocp

section Runs
variable {n : ℕ} {e : UInt32} {tr : List PosixEvent} {s : Iocp}

theorem iocp_gives (hr : Run iocpMachine (fun _ _ => True) (setupIocp n e) tr s) : s.Gives tr := by
  refine hr.invariant (fun tr s => s.Gives tr) ?_ ?_
  · refine ⟨.fresh (Nat.zero_le _) (Nat.zero_le _) rfl, ?_, ?_, ?_, fun i => List.nil_sublist _⟩
    · refine .empty (fun slot fd hcell => ?_) fun g hg => absurd hg List.not_mem_nil
      cases hcell
    · exact fun g hg => absurd hg List.not_mem_nil
    · exact fun g hg => absurd hg List.not_mem_nil
  · intro tr s l s' hr h _ hs
    obtain ⟨hcore, hinv⟩ := iocp_runs hr
    exact h.step hinv ((setupCore_sound n e).run (hcore.mono fun _ _ h => h.1)) (Iocp.step_out hs)

end Runs

end SlipstreamIO.Engine
