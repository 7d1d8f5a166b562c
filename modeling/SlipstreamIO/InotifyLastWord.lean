import SlipstreamIO.InotifyVoices

/-! IGNORED as a watch's last word, over whole runs of an instance. The kqueue arm keeps to it; the
Windows arm does as long as no completed chain ends a watch in the middle of what is said of it. -/
namespace SlipstreamIO.Inotify
open Runs LastWords

/-- The records an event puts in the queue. -/
def InstEvent.puts : InstEvent → List Record
  | .queue e => e.puts
  | .gave _ => []

def InstEvent.gives : InstEvent → List Int32
  | .queue _ => []
  | .gave wd => [wd]

/-- Each wd has at most one IGNORED, with no record of that wd after it, and none is given twice. -/
structure IgnoredIsLast (tr : List InstEvent) : Prop where
  last : (tr.flatMap InstEvent.puts).Pairwise fun r r' => r.mask = inIgnored → r'.wd ≠ r.wd
  given : (tr.flatMap InstEvent.gives).Nodup

instance (tr : List InstEvent) : Decidable (IgnoredIsLast tr) :=
  decidable_of_iff (_ ∧ _) ⟨fun h => ⟨h.1, h.2⟩, fun h => ⟨h.last, h.given⟩⟩

section Heard
variable {queueMax : ℕ} {grown : ℕ → Bool} {q : Queue} {rs : List Record}

/-- What the queue takes of some records, but for its own overflow records. -/
theorem emitsEvents_heard : (((q.emitsEvents queueMax grown rs).flatMap QueueEvent.puts).filter
    (· ≠ Record.overflow)).Sublist rs := by
  induction rs generalizing q grown with
  | nil => exact List.Sublist.refl _
  | cons r rs ih =>
    have hrest := @ih (fun i => grown (i + 1)) (q.emit queueMax (grown 0) r)
    rw [Queue.emitsEvents, List.flatMap_append, List.filter_append]
    rcases q.emit_cases queueMax (grown 0) r with ⟨hev, -⟩ | ⟨hev, -⟩ | ⟨hev, -⟩ | ⟨hev, -⟩
    · rw [hev]
      exact hrest.cons _
    · rw [hev]
      exact (List.filter_sublist (l := [r])).append hrest
    · rw [hev]
      exact hrest.cons _
    · rw [hev]
      exact hrest.cons _

end Heard

/-- The state of a run: who lives, what was said and which wds were given. -/
structure Roll (live : List Int32) (next : Int32) (tr : List InstEvent) : Prop where
  ledger : Ledger Record.wd Record.Bye live (tr.flatMap InstEvent.puts)
  nodup : live.Nodup
  below : ∀ wd ∈ live, 1 ≤ wd.toInt ∧ wd.toInt < next.toInt
  byes : ∀ r ∈ tr.flatMap InstEvent.puts, r.Bye → 1 ≤ r.wd.toInt ∧ r.wd.toInt < next.toInt
  given : (tr.flatMap InstEvent.gives).Nodup
  givenBelow : ∀ wd ∈ tr.flatMap InstEvent.gives, wd.toInt < next.toInt
  pos : 1 ≤ next.toInt

namespace Roll
variable {live live' : List Int32} {next : Int32} {tr : List InstEvent}

theorem start : Roll [] 1 [] :=
  ⟨⟨List.Pairwise.nil, by simp⟩, List.nodup_nil, by simp, by simp, List.nodup_nil, by simp, by decide⟩

theorem ignoredIsLast (h : Roll live next tr) : IgnoredIsLast tr := ⟨h.ledger.last, h.given⟩

theorem quiet (h : Roll live next tr) {e : InstEvent} (hp : e.puts = []) (hg : e.gives = []) :
    Roll live next (tr ++ [e]) := by
  have hputs : (tr ++ [e]).flatMap InstEvent.puts = tr.flatMap InstEvent.puts := by simp [hp]
  have hgives : (tr ++ [e]).flatMap InstEvent.gives = tr.flatMap InstEvent.gives := by simp [hg]
  exact ⟨hputs ▸ h.ledger, h.nodup, h.below, hputs ▸ h.byes, hgives ▸ h.given, hgives ▸ h.givenBelow, h.pos⟩

/-- The watches say something, and the queue takes what it has room and memory for. -/
theorem speech (h : Roll live next tr) {rs : List Record} (hs : Says live live' rs) (queueMax : ℕ)
    (grown : ℕ → Bool) (q : Queue) :
    Roll live' next (tr ++ (q.emitsEvents queueMax grown rs).map .queue) := by
  have hputs : (tr ++ (q.emitsEvents queueMax grown rs).map InstEvent.queue).flatMap InstEvent.puts =
      tr.flatMap InstEvent.puts ++ (q.emitsEvents queueMax grown rs).flatMap QueueEvent.puts := by
    rw [List.flatMap_append, List.flatMap_map]
    rfl
  have hgives : (tr ++ (q.emitsEvents queueMax grown rs).map InstEvent.queue).flatMap InstEvent.gives =
      tr.flatMap InstEvent.gives := by
    rw [List.flatMap_append, List.flatMap_map]
    simp [InstEvent.gives]
  have hheard := @emitsEvents_heard queueMax grown q rs
  have hminus : (-1 : Int32).toInt = -1 := by decide
  refine ⟨?_, h.nodup.sublist hs.sub, fun wd hwd => h.below wd (hs.sub.subset hwd), ?_, hgives ▸ h.given,
    hgives ▸ h.givenBelow, h.pos⟩
  · rw [hputs]
    refine h.ledger.overhear hs hheard fun r hr hover => ?_
    -- an overflow record is nobody's: its wd is -1
    have hr : r = Record.overflow := by simpa using hover
    subst hr
    refine ⟨by decide, fun hin => ?_, fun x hx hb he => ?_⟩
    · have := h.below _ hin
      simp only [Record.overflow, hminus] at this
      omega
    · have := h.byes x hx hb
      rw [he] at this
      simp only [Record.overflow, hminus] at this
      omega
  · rw [hputs]
    intro r hr hb
    rcases List.mem_append.mp hr with hr | hr
    · exact h.byes r hr hb
    · have hne : r ≠ Record.overflow := fun he => absurd (he ▸ hb) (by decide)
      exact h.below _ (hs.spoke r (hheard.subset (List.mem_filter.mpr ⟨hr, by simpa using hne⟩)))

/-- A new watch takes the next wd, as long as there is one after it. -/
theorem join (h : Roll live next tr) (hroom : next.toInt < 2147483647) :
    Roll (live ++ [next]) (next + 1) (tr ++ [.gave next]) := by
  have hpos := h.pos
  have hone : (1 : Int32).toInt = 1 := by decide
  have hnext : (next + 1).toInt = next.toInt + 1 := by
    rw [Int32.toInt_add, hone, Int.bmod_eq_of_le (by omega) (by omega)]
  have hputs : (tr ++ [InstEvent.gave next]).flatMap InstEvent.puts = tr.flatMap InstEvent.puts := by
    simp [InstEvent.puts]
  have hgives : (tr ++ [InstEvent.gave next]).flatMap InstEvent.gives =
      tr.flatMap InstEvent.gives ++ [next] := by
    simp [InstEvent.gives]
  have hfresh {l : List Int32} (hl : ∀ wd ∈ l, wd.toInt < next.toInt) : ∀ wd ∈ l, wd ≠ next := by
    intro wd hwd he
    have := hl wd hwd
    rw [he] at this
    omega
  refine ⟨?_, ?_, ?_, ?_, ?_, ?_, by omega⟩
  · rw [hputs]
    refine h.ledger.join fun r hr hb he => ?_
    have := (h.byes r hr hb).2
    rw [he] at this
    omega
  · exact List.Nodup.append h.nodup (List.nodup_singleton _)
      (List.disjoint_singleton.mpr fun hin => hfresh (fun wd hwd => (h.below wd hwd).2) _ hin rfl)
  · intro wd hwd
    rcases List.mem_append.mp hwd with hwd | hwd
    · have := h.below wd hwd
      omega
    · rw [List.eq_of_mem_singleton hwd]
      omega
  · rw [hputs]
    intro r hr hb
    have := h.byes r hr hb
    omega
  · rw [hgives]
    exact List.Nodup.append h.given (List.nodup_singleton _)
      (List.disjoint_singleton.mpr fun hin => hfresh h.givenBelow _ hin rfl)
  · rw [hgives]
    intro wd hwd
    rcases List.mem_append.mp hwd with hwd | hwd
    · have := h.givenBelow wd hwd
      omega
    · rw [List.eq_of_mem_singleton hwd]
      omega

end Roll

section Kqueue
variable {queueMax : ℕ} {inst inst' : Inst} {tr : List InstEvent} {l : KqLabel}

/-- There is a wd for another watch. -/
def KqRoomForWd (inst : Inst) : KqLabel → Prop
  | .addWatch _ _ _ => inst.nextWd.toInt < 2147483647
  | _ => True

instance (inst : Inst) (l : KqLabel) : Decidable (KqRoomForWd inst l) :=
  match l with
  | .addWatch _ _ _ => inferInstanceAs (Decidable (inst.nextWd.toInt < 2147483647))
  | .rmWatch _ _ | .read _ _ _ => isTrue trivial

theorem Inst.say_roll (h : Roll inst.live inst.nextWd tr) {live' : List Int32} {rs : List Record}
    (hs : Says inst.live live' rs) (grown : ℕ → Bool) :
    Roll live' inst.nextWd (tr ++ (inst.say queueMax grown rs).2) :=
  h.speech hs queueMax grown inst.queue

theorem addWatch_roll (h : Roll inst.live inst.nextWd tr) (hroom : inst.nextWd.toInt < 2147483647)
    (path : Option Name) (mask : UInt32) (os : AddAnswers) :
    Roll (inst.addWatch path mask os).2.1.live (inst.addWatch path mask os).2.1.nextWd
      (tr ++ (inst.addWatch path mask os).2.2) := by
  have hsame : Roll inst.live inst.nextWd (tr ++ []) := by rwa [List.append_nil]
  unfold Inst.addWatch
  split
  · exact hsame
  split
  · exact hsame
  split
  · exact hsame
  split
  · split
    · exact hsame
    · next w hi =>
      have hlive := map_set_same (f := Watch.wd) (b := { w with mask }) hi rfl
      rw [Inst.live, hlive]
      exact hsame
  split
  · exact hsame
  split
  · exact hsame
  dsimp only
  split
  · exact hsame
  split
  · exact hsame
  · rw [Inst.live, List.map_append]
    exact h.join hroom

theorem rmWatch_roll (h : Roll inst.live inst.nextWd tr) (wd : Int32) (grown : ℕ → Bool) :
    Roll (inst.rmWatch queueMax grown wd).2.1.live (inst.rmWatch queueMax grown wd).2.1.nextWd
      (tr ++ (inst.rmWatch queueMax grown wd).2.2) := by
  unfold Inst.rmWatch
  split
  · rwa [List.append_nil]
  · next i hfind =>
    obtain ⟨hlt, hp, -⟩ := List.findIdx?_eq_some_iff_getElem.mp hfind
    have hi : inst.live[i]? = some wd := by
      rw [Inst.live, List.getElem?_map, List.getElem?_eq_getElem hlt, Option.map_some, beq_iff_eq.mp hp]
    have hgone := speech_forget h.nodup hi (quiet_nil : Quiet wd [])
    rw [Inst.live, ← map_eraseIdx] at hgone
    exact Inst.say_roll h hgone grown

theorem read_roll (h : Roll inst.live inst.nextWd tr) (len : ℕ) (evs : List KEvent) (grown : ℕ → Bool) :
    Roll (inst.read queueMax grown len evs).2.1.live (inst.read queueMax grown len evs).2.1.nextWd
      (tr ++ (inst.read queueMax grown len evs).2.2) := by
  unfold Inst.read
  split
  · rwa [List.append_nil]
  dsimp only
  rw [← List.append_assoc]
  split
  · obtain ⟨hspeaks, hwithin⟩ := takeEvents_speaks h.nodup evs
    have hsaid := h.speech hspeaks queueMax grown (inst.takeEvents evs).1.queue
    rw [← hwithin.nextWd] at hsaid
    exact hsaid.quiet rfl rfl
  · rw [List.append_nil]
    exact h.quiet rfl rfl

theorem kq_step_roll (h : Roll inst.live inst.nextWd tr) (hc : KqRoomForWd inst l)
    (hs : (kqMachine queueMax).step inst l = some inst') :
    Roll inst'.live inst'.nextWd (tr ++ (kqMachine queueMax).events inst l) := by
  cases l with
  | addWatch path mask os =>
    cases hs
    exact addWatch_roll h hc path mask os
  | rmWatch wd grown =>
    cases hs
    exact rmWatch_roll h wd grown
  | read len evs grown =>
    cases hs
    exact read_roll h len evs grown

end Kqueue

section Windows
variable {queueMax : ℕ} {inst inst' : WinInst} {tr : List InstEvent} {l : WinLabel}

/-- There is a wd for another watch, and no completion of a read ends a watch in the middle of what is
said of it. -/
def WinCalm (inst : WinInst) : WinLabel → Prop
  | .addWatch _ _ _ => inst.nextWd.toInt < 2147483647
  | .rmWatch _ _ => True
  | .read _ rs => ∀ r ∈ rs, ∀ c ∈ r.completions, Calm inst c

instance (inst : WinInst) (l : WinLabel) : Decidable (WinCalm inst l) :=
  match l with
  | .addWatch _ _ _ => inferInstanceAs (Decidable (inst.nextWd.toInt < 2147483647))
  | .rmWatch _ _ => isTrue trivial
  | .read _ rs => inferInstanceAs (Decidable (∀ r ∈ rs, ∀ c ∈ r.completions, Calm inst c))

theorem openWatch_given {path : Name} {only : Option Name} {mask : UInt32} {isDir : Bool} {os : WinAnswers}
    {w : WinWatch} (h : inst.openWatch path only mask isDir os = .ok w) :
    w.wd = inst.nextWd ∧ w.mask = mask := by
  unfold WinInst.openWatch at h
  split at h
  · cases h
  split at h
  · cases h
  split at h
  · cases h
  split at h
  · cases h
  · cases h
    exact ⟨rfl, rfl⟩

theorem newWatch_given {path : Name} {mask : UInt32} {isDir : Bool} {os : WinAnswers} {w : WinWatch}
    (h : inst.newWatch path mask isDir os = .ok w) : w.wd = inst.nextWd ∧ w.mask = mask := by
  unfold WinInst.newWatch at h
  split at h
  · cases h
  split at h
  · exact openWatch_given h
  split at h
  · cases h
  split at h
  · cases h
  · exact openWatch_given h

theorem win_addWatch_roll (h : Roll inst.live inst.nextWd tr) (hroom : inst.nextWd.toInt < 2147483647)
    (path : Option Name) (mask : UInt32) (os : WinAnswers) :
    Roll (inst.addWatch path mask os).2.1.live (inst.addWatch path mask os).2.1.nextWd
      (tr ++ (inst.addWatch path mask os).2.2) := by
  have hsame : Roll inst.live inst.nextWd (tr ++ []) := by rwa [List.append_nil]
  unfold WinInst.addWatch
  split
  · exact hsame
  split
  · exact hsame
  split
  · exact hsame
  split
  · split
    · exact hsame
    · next w hi =>
      have hlive := map_set_same (f := WinWatch.wd) (b := { w with mask }) hi rfl
      rw [WinInst.live, hlive]
      exact hsame
  split
  · exact hsame
  · next w hw =>
    rw [WinInst.live, List.map_append]
    dsimp only
    rw [List.map_singleton, (newWatch_given hw).1]
    exact h.join hroom

theorem win_rmWatch_roll (h : Roll inst.live inst.nextWd tr) (wd : Int32) (grown : ℕ → Bool) :
    Roll (inst.rmWatch queueMax grown wd).2.1.live (inst.rmWatch queueMax grown wd).2.1.nextWd
      (tr ++ (inst.rmWatch queueMax grown wd).2.2) := by
  unfold WinInst.rmWatch
  split
  · rwa [List.append_nil]
  · next i hfind =>
    obtain ⟨hlt, hp, -⟩ := List.findIdx?_eq_some_iff_getElem.mp hfind
    have hi : inst.live[i]? = some wd := by
      rw [WinInst.live, List.getElem?_map, List.getElem?_eq_getElem hlt, Option.map_some,
        beq_iff_eq.mp hp]
    have hgone := speech_forget h.nodup hi (quiet_nil : Quiet wd [])
    rw [WinInst.live, ← map_eraseIdx] at hgone
    exact h.speech hgone queueMax grown inst.queue

/-- One round of a read, in which watches end and speak. -/
theorem round_roll (h : Roll inst.live inst.nextWd tr) {r : WinInst.Round}
    (hc : ∀ c ∈ r.completions, Calm inst c) :
    Roll (inst.round queueMax r).1.live (inst.round queueMax r).1.nextWd
      (tr ++ (inst.round queueMax r).2) ∧
    ((inst.round queueMax r).1.watches.map WinWatch.face).Sublist (inst.watches.map WinWatch.face) := by
  obtain ⟨hspeaks, hwithin⟩ := win_takeEvents_speaks h.nodup hc
  have htaken := h.speech hspeaks queueMax r.grown (inst.takeEvents r.completions).1.queue
  rw [← hwithin.nextWd] at htaken
  unfold WinInst.round
  dsimp only
  split
  · set inst₁ := ((inst.takeEvents r.completions).1.say queueMax r.grown (inst.takeEvents r.completions).2).1
    obtain ⟨hidle, hidleWithin⟩ := @checkGone_speaks inst₁ htaken.nodup r.there inst₁.watches.length
    have hchecked := htaken.speech hidle queueMax r.grownIdle
      (inst₁.checkGone r.there inst₁.watches.length).1.queue
    have hnext : (inst₁.checkGone r.there inst₁.watches.length).1.nextWd =
        (inst.takeEvents r.completions).1.nextWd := hidleWithin.nextWd
    rw [← hnext] at hchecked
    rw [← List.append_assoc]
    exact ⟨hchecked, hidleWithin.faces.trans hwithin.faces⟩
  · exact ⟨htaken, hwithin.faces⟩

theorem rounds_roll (h : Roll inst.live inst.nextWd tr) {rs : List WinInst.Round}
    (hc : ∀ r ∈ rs, ∀ c ∈ r.completions, Calm inst c) {told : List InstEvent}
    (hr : inst.rounds queueMax rs = some (inst', told)) :
    Roll inst'.live inst'.nextWd (tr ++ told) := by
  induction rs generalizing inst tr told with
  | nil =>
    unfold WinInst.rounds at hr
    split at hr
    · cases hr
    · cases hr
      rwa [List.append_nil]
  | cons r rs ih =>
    obtain ⟨hround, hfaces⟩ := @round_roll queueMax _ _ h _ (hc r List.mem_cons_self)
    unfold WinInst.rounds at hr
    split at hr
    · cases hr
      rwa [List.append_nil]
    dsimp only at hr
    split at hr
    · cases hr
      exact hround
    split at hr
    · cases hr
    · next inst₁ told' hrest =>
      cases hr
      rw [← List.append_assoc]
      exact ih hround (fun x hx c hxc => (hc x (List.mem_cons_of_mem _ hx) c hxc).of_faces hfaces) hrest

theorem win_read_roll (h : Roll inst.live inst.nextWd tr) {len : ℕ} {rs : List WinInst.Round}
    (hc : ∀ r ∈ rs, ∀ c ∈ r.completions, Calm inst c) {out : Int} {told : List InstEvent}
    (hr : inst.read queueMax len rs = some (out, inst', told)) :
    Roll inst'.live inst'.nextWd (tr ++ told) := by
  unfold WinInst.read at hr
  split at hr
  · cases hr
    rwa [List.append_nil]
  split at hr
  · cases hr
  · next inst₁ told₁ hrounds =>
    cases hr
    have h₁ := rounds_roll h hc hrounds
    rw [← List.append_assoc]
    exact h₁.quiet rfl rfl

theorem win_step_roll (h : Roll inst.live inst.nextWd tr) (hc : WinCalm inst l)
    (hs : (winMachine queueMax).step inst l = some inst') :
    Roll inst'.live inst'.nextWd (tr ++ (winMachine queueMax).events inst l) := by
  cases l with
  | addWatch path mask os =>
    cases hs
    exact win_addWatch_roll h hc path mask os
  | rmWatch wd grown =>
    cases hs
    exact win_rmWatch_roll h wd grown
  | read len rs =>
    obtain ⟨⟨out, inst₁, told⟩, hread, heq⟩ := Option.map_eq_some_iff.mp hs
    cases heq
    have htold : (winMachine queueMax).events inst (.read len rs) = told := by
      simp [winMachine, hread]
    rw [htold]
    exact win_read_roll h hc hread

end Windows

/-- IGNORED is a watch's last word: in every run of the kqueue arm, and in every run of the Windows arm
whose completions are calm. -/
theorem ignored_is_last (queueMax : ℕ) :
    (∀ {tr inst}, Run (kqMachine queueMax) KqRoomForWd {} tr inst → IgnoredIsLast tr) ∧
    ∀ {nonblock tr inst}, Run (winMachine queueMax) WinCalm { nonblock } tr inst → IgnoredIsLast tr := by
  constructor
  · intro tr inst hr
    have h := hr.invariant (fun tr inst => Roll inst.live inst.nextWd tr) Roll.start
      fun _ _ _ _ _ h hc hs => kq_step_roll h hc hs
    exact h.ignoredIsLast
  · intro nonblock tr inst hr
    have h := hr.invariant (fun tr inst => Roll inst.live inst.nextWd tr) Roll.start
      fun _ _ _ _ _ h hc hs => win_step_roll h hc hs
    exact h.ignoredIsLast

/-- A directory that is deleted, in either arm: its watch ends, and so does the wd. -/
theorem ignored_is_last_of_deleted :
    (∃ tr : List InstEvent, .queue (.kept { wd := 1, mask := inIgnored }) ∈ tr ∧ IgnoredIsLast tr) ∧
    ∃ tr : List InstEvent, .queue (.kept { wd := 1, mask := inIgnored }) ∈ tr ∧ .gave 2 ∈ tr ∧
      IgnoredIsLast tr := by
  obtain ⟨tr, inst, hr, hbye⟩ := Run.of_exec (kqMachine inotifyQueueMax) KqRoomForWd {}
    (fun tr _ => InstEvent.queue (.kept { wd := 1, mask := inIgnored }) ∈ tr)
    [.addWatch (some [100]) inAllEvents { stat := .ok 0o040000, wfd := .ok 5, look := { dir := some [] } },
      .read 64 [{ ident := 5, fflags := noteDelete }] fun _ => true] (by decide +kernel)
  obtain ⟨tr', inst', hr', hbye', hgave⟩ := Run.of_exec (winMachine inotifyQueueMax) WinCalm {}
    (fun tr _ => InstEvent.queue (.kept { wd := 1, mask := inIgnored }) ∈ tr ∧ InstEvent.gave 2 ∈ tr)
    [.addWatch (some [99, 92, 100]) inAllEvents { attrs := some true },
      .read 64 [{ completions := [{ key := upKey 1, chain := [{ action := 2, name := [68] }] }] }],
      .addWatch (some [99, 92, 100]) inAllEvents { attrs := some true }] (by decide +kernel)
  exact ⟨⟨tr, hbye, (ignored_is_last inotifyQueueMax).1 hr⟩,
    ⟨tr', hbye', hgave, (ignored_is_last inotifyQueueMax).2 hr'⟩⟩

/-- A watched file that is deleted, and its watch removed: IGNORED twice. -/
theorem deleted_file_ignored_twice :
    ∃ tr inst, Run (winMachine inotifyQueueMax) (fun _ _ => True) {} tr inst ∧ ¬ IgnoredIsLast tr :=
  Run.of_exec (winMachine inotifyQueueMax) (fun _ _ => True) {} (fun tr _ => ¬ IgnoredIsLast tr)
    [.addWatch (some [99, 92, 100]) inAllEvents { attrs := some false },
      .read 64 [{ completions := [{ key := 1, chain := [{ action := 2, name := [100] }] }] }],
      .rmWatch 1 fun _ => true] (by decide +kernel)

end SlipstreamIO.Inotify
