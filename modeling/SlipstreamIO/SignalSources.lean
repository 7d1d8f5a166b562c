import SlipstreamIO.ReadyBackends
import SlipstreamIO.SyscallSwitch

/-! Signals as a descriptor, on macOS: one dispatch source for each signal of the instance, in a table of
32. -/
namespace SlipstreamIO.Signal
open Engine Runs Syscall

/-- A dispatch source; `made` is ghost, the number of the create that made it. -/
structure Source where
  made : ℕ
  signum : Int32
  deriving DecidableEq, Repr

/-- `g_src`, `g_nsrc` and `g_write` (none is -1), and the sources that are not cancelled. The last three
are ghost: how many sources were made, whether a cell outside `g_src` was named, and the signals of the
instance that is open. -/
structure Sources where
  src : ℕ → Option Source := fun _ => none
  nsrc : ℕ := 0
  write : Option Int32 := none
  live : List Source := []
  made : ℕ := 0
  wild : Bool := false
  inst : Option (List Int32) := none

def srcMax : ℕ := 32

namespace Sources

/-- The source is resumed, and `g_src[g_nsrc++] = s`. -/
def install (s : Sources) (signum : Int32) : Sources :=
  let source : Source := ⟨s.made, signum⟩
  { s with
    src := if s.nsrc < srcMax then fun i => if i = s.nsrc then some source else s.src i else s.src
    nsrc := s.nsrc + 1
    live := s.live ++ [source]
    made := s.made + 1
    wild := s.wild || !decide (s.nsrc < srcMax) }

/-- The loop of the open; `creates i` is whether the source of the i-th signal is made. -/
def installAll (creates : ℕ → Bool) : ℕ → Sources → List Int32 → Sources × Bool
  | _, s, [] => (s, true)
  | i, s, sig :: rest =>
    if creates i then installAll creates (i + 1) (s.install sig) rest else (s, false)

/-- slipstream_signal_open; `pipe` gives the two descriptors, and an error is answered negated. -/
def signalOpen (s : Sources) (signums : Option (List Int32)) (pipe : Except Int32 (Int32 × Int32))
    (creates : ℕ → Bool) : Sources × Except Int32 Int32 :=
  match signums with
  | none => (s, .error einval)
  | some signums =>
    if signums.length = 0 ∨ srcMax < signums.length then (s, .error einval)
    else if s.write.isSome then (s, .error eexist)
    else
      match pipe with
      | .error errno => (s, .error errno)
      | .ok (rd, wr) =>
        match installAll creates 0 { s with write := some wr } signums with
        | (s, true) => ({ s with inst := some signums }, .ok rd)
        | (s, false) => ({ s with write := none }, .error enomem)

/-- The source is in `g_src`, below `g_nsrc`. -/
def holds (s : Sources) (source : Source) : Bool := (List.range s.nsrc).any fun i => s.src i = some source

/-- slipstream_signal_close, without the answer of the close of the descriptor. -/
def signalClose (s : Sources) : Sources :=
  { s with
    live := s.live.filter (!s.holds ·)
    nsrc := 0
    write := none
    wild := s.wild || decide (srcMax < s.nsrc)
    inst := none }

end Sources

inductive SignalLabel where
  | opens (signums : Option (List Int32)) (pipe : Except Int32 (Int32 × Int32)) (creates : ℕ → Bool)
  | close

/-- An open that answered an error: what was in front of it, and what it leaves. -/
inductive SignalEvent where
  | refused (before after : Sources)

/-- Any sequence of opens and closes. -/
def signalMachine : Machine Sources SignalLabel SignalEvent where
  step s
    | .opens signums pipe creates => some (s.signalOpen signums pipe creates).1
    | .close => some s.signalClose
  events s
    | .opens signums pipe creates =>
      match (s.signalOpen signums pipe creates).2 with
      | .error _ => [.refused s (s.signalOpen signums pipe creates).1]
      | .ok _ => []
    | .close => []

/-- When an open comes to make sources, the one it cannot make is its first. -/
def FailsFirst (s : Sources) : SignalLabel → Prop
  | .opens (some signums) (.ok _) creates => s.write = none → signums.length ≤ srcMax →
      creates 0 = false ∨ ∀ i < signums.length, creates i = true
  | _ => True

/-- The sources of the instance: one for each signal, and these are the live ones and those in
`g_src`. -/
structure Sources.Serves (s : Sources) (signums : List Int32) (sources : List Source) : Prop where
  signals : sources.map Source.signum = signums
  distinct : sources.Nodup
  live : s.live = sources
  counted : s.nsrc = sources.length
  cells : ∀ i < s.nsrc, s.src i = sources[i]?

/-- What a failed open leaves is what was there, and nothing that it made. -/
structure LeavesNothing (before after : Sources) : Prop where
  nsrc : after.nsrc = before.nsrc
  write : after.write = before.write
  live : ∀ source ∈ after.live, source.made < before.made

/-- The sources and the history of the opens: nothing outside `g_src` is named, failed opens leave
nothing, and an instance that is open is served. -/
structure SignalSound (tr : List SignalEvent) (s : Sources) : Prop where
  tame : s.wild = false
  bound : s.nsrc ≤ srcMax
  refused : ∀ before after, .refused before after ∈ tr → LeavesNothing before after
  served : ∀ signums, s.inst = some signums → ∃ sources, s.Serves signums sources

namespace Sources
variable {s : Sources}

/-- The invariant: an instance is open and served, or there is no source at all. -/
structure Inv (s : Sources) : Prop where
  tame : s.wild = false
  old : ∀ source ∈ s.live, source.made < s.made
  opened : s.write.isSome = s.inst.isSome
  served : ∀ signums, s.inst = some signums → signums.length ≤ srcMax ∧ ∃ sources, s.Serves signums sources
  idle : s.inst = none → s.nsrc = 0 ∧ s.live = []

/-- In the loop of an open: `sources` were made, of an instance that had none. -/
structure Filling (s : Sources) (sources : List Source) : Prop where
  tame : s.wild = false
  old : ∀ source ∈ sources, source.made < s.made
  distinct : sources.Nodup
  live : s.live = sources
  counted : s.nsrc = sources.length
  cells : ∀ i < s.nsrc, s.src i = sources[i]?

theorem Filling.install {sources : List Source} (h : s.Filling sources) (hroom : sources.length < srcMax)
    (signum : Int32) : (s.install signum).Filling (sources ++ [⟨s.made, signum⟩]) := by
  have hlt : s.nsrc < srcMax := h.counted.trans_lt hroom
  refine ⟨?_, ?_, ?_, ?_, ?_, ?_⟩
  · simp [Sources.install, h.tame, hlt]
  · intro source hsource
    show source.made < s.made + 1
    rcases List.mem_append.mp hsource with hold | hnew
    · have := h.old source hold
      omega
    · rw [List.mem_singleton.mp hnew]
      exact Nat.lt_succ_self _
  · rw [List.nodup_append]
    refine ⟨h.distinct, List.nodup_singleton _, ?_⟩
    intro a ha b hb he
    have hlt := h.old a ha
    rw [he, List.mem_singleton.mp hb] at hlt
    exact Nat.lt_irrefl _ hlt
  · exact congrArg (· ++ _) h.live
  · show s.nsrc + 1 = _
    rw [List.length_append, h.counted]
    rfl
  · intro i hi
    have hi : i < s.nsrc + 1 := hi
    have hcell : (s.install signum).src i = if i = s.nsrc then some ⟨s.made, signum⟩ else s.src i := by
      simp only [Sources.install, if_pos hlt]
    rw [hcell]
    by_cases hlast : i = s.nsrc
    · rw [if_pos hlast, hlast, h.counted, List.getElem?_concat_length]
    · rw [if_neg hlast, h.cells i (by omega), List.getElem?_append_left]
      rw [← h.counted]
      omega

/-- The loop, when every source is made. -/
theorem Filling.installAll {sources : List Source} {creates : ℕ → Bool} {i : ℕ} {signums : List Int32}
    (h : s.Filling sources) (hroom : sources.length + signums.length ≤ srcMax)
    (hall : ∀ j < signums.length, creates (i + j) = true) :
    ∃ s' more, Sources.installAll creates i s signums = (s', true) ∧ s'.Filling (sources ++ more) ∧
      more.map Source.signum = signums ∧ s'.write = s.write ∧ s'.inst = s.inst := by
  induction signums generalizing s sources i with
  | nil => exact ⟨s, [], rfl, by rwa [List.append_nil], rfl, rfl, rfl⟩
  | cons sig rest ih =>
    rw [List.length_cons] at hroom hall
    have hnext : ∀ j < rest.length, creates (i + 1 + j) = true := by
      intro j hj
      have hj' := hall (j + 1) (by omega)
      rwa [Nat.add_assoc, Nat.add_comm 1 j]
    obtain ⟨s', more, hrun, hfilling, hmap, hwrite, hinst⟩ :=
      ih (h.install (by omega) sig) (by rw [List.length_append, List.length_singleton]; omega) hnext
    refine ⟨s', ⟨s.made, sig⟩ :: more, ?_, ?_, ?_, hwrite, hinst⟩
    · rw [Sources.installAll, if_pos (by simpa using hall 0 (by omega)), hrun]
    · rwa [List.append_cons]
    · rw [List.map_cons, hmap]

/-- An instance that is open is served, within the table. -/
theorem Inv.bound (h : s.Inv) : s.nsrc ≤ srcMax := by
  cases hinst : s.inst with
  | none =>
    rw [(h.idle hinst).1]
    decide
  | some signums =>
    obtain ⟨hle, sources, hserves⟩ := h.served signums hinst
    rw [hserves.counted, ← List.length_map Source.signum, hserves.signals]
    exact hle

/-- A close cancels every source that is live. -/
theorem Inv.closed (h : s.Inv) : s.signalClose.Inv := by
  have hlive : s.signalClose.live = [] := by
    show s.live.filter _ = []
    rw [List.filter_eq_nil_iff]
    intro source hsource
    cases hinst : s.inst with
    | none =>
      rw [(h.idle hinst).2] at hsource
      cases hsource
    | some signums =>
      obtain ⟨-, sources, hserves⟩ := h.served signums hinst
      rw [hserves.live] at hsource
      obtain ⟨i, hi, hsource⟩ := List.mem_iff_getElem.mp hsource
      have hcell : s.src i = some source := by
        rw [hserves.cells i (hserves.counted ▸ hi), List.getElem?_eq_getElem hi, hsource]
      have hholds : s.holds source = true := by
        rw [holds, List.any_eq_true]
        exact ⟨i, List.mem_range.mpr (hserves.counted ▸ hi), decide_eq_true hcell⟩
      simp [hholds]
  refine ⟨?_, ?_, rfl, fun signums hinst => (by cases hinst), fun _ => ⟨rfl, hlive⟩⟩
  · have hbound : ¬ srcMax < s.nsrc := Nat.not_lt.mpr h.bound
    show (s.wild || decide (srcMax < s.nsrc)) = false
    rw [h.tame, decide_eq_false hbound]
    rfl
  · rw [hlive]
    exact fun source hsource => absurd hsource List.not_mem_nil

/-- An open that comes to make its sources. -/
theorem signalOpen_comes {signums : List Int32} (hpos : signums.length ≠ 0) (hle : signums.length ≤ srcMax)
    (hwrite : s.write = none) (rd wr : Int32) (creates : ℕ → Bool) :
    s.signalOpen (some signums) (.ok (rd, wr)) creates =
      match installAll creates 0 { s with write := some wr } signums with
      | (s, true) => ({ s with inst := some signums }, .ok rd)
      | (s, false) => ({ s with write := none }, .error enomem) := by
  have hrange : ¬ (signums.length = 0 ∨ srcMax < signums.length) := by omega
  simp only [signalOpen, if_neg hrange, hwrite, Option.isSome_none, Bool.false_eq_true, if_false]

/-- An open that does not come to make its sources leaves the state and answers an error. -/
theorem signalOpen_stays (signums : Option (List Int32)) (pipe : Except Int32 (Int32 × Int32))
    (creates : ℕ → Bool) :
    (∃ errno, s.signalOpen signums pipe creates = (s, .error errno)) ∨
    ∃ sigs rd wr, signums = some sigs ∧ pipe = .ok (rd, wr) ∧ sigs.length ≠ 0 ∧ sigs.length ≤ srcMax ∧
      s.write = none := by
  cases signums with
  | none => exact Or.inl ⟨einval, rfl⟩
  | some sigs =>
    by_cases hrange : sigs.length = 0 ∨ srcMax < sigs.length
    · exact Or.inl ⟨einval, by simp only [signalOpen, if_pos hrange]⟩
    by_cases hbusy : s.write.isSome = true
    · exact Or.inl ⟨eexist, by simp only [signalOpen, if_neg hrange, if_pos hbusy]⟩
    cases pipe with
    | error errno => exact Or.inl ⟨errno, by simp only [signalOpen, if_neg hrange, if_neg hbusy]⟩
    | ok fds =>
      refine Or.inr ⟨sigs, fds.1, fds.2, rfl, rfl, by omega, by omega, ?_⟩
      simpa using hbusy

/-- Every create succeeds: the instance is open. -/
theorem Inv.instanced (h : s.Inv) {signums : List Int32} {creates : ℕ → Bool} (hpos : signums.length ≠ 0)
    (hle : signums.length ≤ srcMax) (hwrite : s.write = none) (rd wr : Int32)
    (hall : ∀ i < signums.length, creates i = true) :
    ∃ s', s.signalOpen (some signums) (.ok (rd, wr)) creates = (s', .ok rd) ∧ s'.Inv := by
  have hinst : s.inst = none := by
    have hopened := h.opened
    rw [hwrite] at hopened
    simpa using hopened.symm
  obtain ⟨hn, hlive⟩ := h.idle hinst
  have hempty : Filling { s with write := some wr } [] := by
    refine ⟨h.tame, fun _ hs => absurd hs List.not_mem_nil, List.nodup_nil, hlive, hn, ?_⟩
    intro i hi
    have hi : i < s.nsrc := hi
    omega
  have hroom : ([] : List Source).length + signums.length ≤ srcMax := by
    rw [List.length_nil, Nat.zero_add]
    exact hle
  have hcreates : ∀ j < signums.length, creates (0 + j) = true := by
    intro j hj
    rw [Nat.zero_add]
    exact hall j hj
  obtain ⟨s', sources, hrun, hfilling, hmap, hwrite', -⟩ := hempty.installAll hroom hcreates
  rw [List.nil_append] at hfilling
  refine ⟨{ s' with inst := some signums }, ?_, hfilling.tame, ?_, ?_, ?_, fun hnone => by cases hnone⟩
  · rw [signalOpen_comes hpos hle hwrite, hrun]
  · intro source hsource
    have hsource : source ∈ s'.live := hsource
    rw [hfilling.live] at hsource
    exact hfilling.old source hsource
  · show s'.write.isSome = true
    rw [hwrite']
    rfl
  · intro signums' hsignums
    obtain rfl := Option.some.inj hsignums
    exact ⟨hle, sources, hmap, hfilling.distinct, hfilling.live, hfilling.counted, hfilling.cells⟩

/-- What an open does, when no create but its first fails: nothing, or it opens an instance. -/
theorem Inv.opens (h : s.Inv) {signums : Option (List Int32)} {pipe : Except Int32 (Int32 × Int32)}
    {creates : ℕ → Bool} (hfirst : FailsFirst s (.opens signums pipe creates)) :
    (∃ errno, s.signalOpen signums pipe creates = (s, .error errno)) ∨
    ∃ s' fd, s.signalOpen signums pipe creates = (s', .ok fd) ∧ s'.Inv := by
  rcases s.signalOpen_stays signums pipe creates with hstays | ⟨sigs, rd, wr, rfl, rfl, hpos, hle, hwrite⟩
  · exact Or.inl hstays
  rcases hfirst hwrite hle with hfail | hall
  · -- the first source is not made
    obtain ⟨sig, rest, rfl⟩ := List.exists_cons_of_length_pos (Nat.pos_of_ne_zero hpos)
    refine Or.inl ⟨enomem, ?_⟩
    rw [signalOpen_comes hpos hle hwrite]
    simp only [installAll, hfail, Bool.false_eq_true, if_false, ← hwrite]
  · obtain ⟨s', hopen, hinv⟩ := h.instanced hpos hle hwrite rd wr hall
    exact Or.inr ⟨s', rd, hopen, hinv⟩

theorem inv_start : ({} : Sources).Inv := by
  refine ⟨rfl, ?_, rfl, ?_, fun _ => ⟨rfl, rfl⟩⟩
  · exact fun _ h => absurd h List.not_mem_nil
  · exact fun _ h => absurd h (Option.some_ne_none _).symm

theorem Inv.step (h : s.Inv) {l : SignalLabel} {s' : Sources} (hfirst : FailsFirst s l)
    (hs : signalMachine.step s l = some s') :
    s'.Inv ∧ ∀ before after, .refused before after ∈ signalMachine.events s l →
      LeavesNothing before after := by
  cases l with
  | close =>
    obtain rfl := Option.some.inj hs
    exact ⟨h.closed, fun _ _ hevent => absurd hevent List.not_mem_nil⟩
  | opens signums pipe creates =>
    obtain rfl := Option.some.inj hs
    rcases h.opens hfirst with ⟨errno, hstays⟩ | ⟨s', fd, hopen, hinv⟩
    · rw [hstays]
      refine ⟨h, ?_⟩
      intro before after hevent
      simp only [signalMachine, hstays, List.mem_singleton, SignalEvent.refused.injEq] at hevent
      obtain ⟨rfl, rfl⟩ := hevent
      exact ⟨rfl, rfl, h.old⟩
    · rw [hopen]
      refine ⟨hinv, ?_⟩
      intro before after hevent
      simp only [signalMachine, hopen] at hevent
      exact absurd hevent List.not_mem_nil

end Sources

/-- Every sequence of opens and closes in which no open stops behind its first source. -/
theorem signal_sound {tr : List SignalEvent} {s : Sources} (hr : Run signalMachine FailsFirst {} tr s) :
    SignalSound tr s := by
  have hinv : s.Inv ∧ ∀ before after, .refused before after ∈ tr → LeavesNothing before after := by
    apply hr.invariant fun tr s =>
      s.Inv ∧ ∀ before after, .refused before after ∈ tr → LeavesNothing before after
    · exact ⟨Sources.inv_start, fun _ _ h => absurd h List.not_mem_nil⟩
    · intro tr s l s' _ ih hfirst hs
      obtain ⟨hinv, hrefused⟩ := ih.1.step hfirst hs
      refine ⟨hinv, ?_⟩
      intro before after hevent
      rcases List.mem_append.mp hevent with hold | hnew
      · exact ih.2 before after hold
      · exact hrefused before after hnew
  obtain ⟨h, hrefused⟩ := hinv
  exact ⟨h.tame, h.bound, hrefused, fun signums hinst => (h.served signums hinst).2⟩

/-- SIGUSR1 and SIGUSR2 of macOS. -/
def userSignals : List Int32 := [30, 31]

/-- An open whose first source fails, and one that opens an instance with two. -/
theorem signal_sound_two : ∃ tr s, SignalSound tr s ∧ tr.length = 1 ∧ s.nsrc = 2 := by
  have h : Run signalMachine FailsFirst {} [] _ := .start
  have h := h.next (l := .opens (some userSignals) (.ok (3, 4)) fun _ => false)
    (by exact fun _ _ => Or.inl rfl) rfl
  have h := h.next (l := .opens (some userSignals) (.ok (3, 4)) fun _ => true)
    (by exact fun _ _ => Or.inr fun _ _ => rfl) rfl
  exact ⟨_, _, signal_sound h, rfl, rfl⟩

/-- The second source fails: the first stays live, and stays in the table. -/
theorem signal_leaves_source :
    ¬ ∀ tr s, Run signalMachine (fun _ _ => True) {} tr s → SignalSound tr s := by
  intro h
  have hr : Run signalMachine (fun _ _ => True) {} [] _ := .start
  have hr := hr.next (l := .opens (some userSignals) (.ok (3, 4)) fun i => decide (i = 0)) trivial rfl
  have hleaves := (h _ _ hr).refused _ _ List.mem_cons_self
  exact absurd hleaves.nsrc (by decide)

end SlipstreamIO.Signal
