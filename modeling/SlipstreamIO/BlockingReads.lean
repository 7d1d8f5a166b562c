import SlipstreamIO.InotifyFraming

/-! A read of an instance that was made to wait. The kqueue arm waits for an event, the Windows arm for
a record. -/
namespace SlipstreamIO.Inotify
open Runs

/-- What kevent answers one pass of take_events: an error, or up to 32 events. -/
abbrev Pass := Option (List KEvent)

namespace Inst

/-- The passes of take_events; `none` while kevent has not answered. -/
def takePasses (inst : Inst) : List Pass → Option (Inst × List Record)
  | [] => none
  | none :: _ => some (inst, [])
  | some evs :: passes =>
    let (inst, rs) := inst.takeEvents evs
    if evs.length = 32 then
      match inst.takePasses passes with
      | none => none
      | some (inst, rs') => some (inst, rs ++ rs')
    else some (inst, rs)

/-- slipstream_inotify_read with the passes it makes; `none` while it waits. -/
def readPasses (queueMax : ℕ) (grown : ℕ → Bool) (inst : Inst) (len : ℕ) (passes : List Pass) :
    Option (Int × Inst × List InstEvent) :=
  if len < eventSize then some (einval, inst, [])
  else
    let copy (inst : Inst) (told : List InstEvent) :=
      let (out, buf, q) := inst.queue.read len
      (out, { inst with queue := q }, told ++ [.queue (.took buf)])
    if inst.queue.qlen = 0 then
      match inst.takePasses passes with
      | none => none
      | some (inst, rs) =>
        let (inst, told) := inst.say queueMax grown rs
        some (copy inst told)
    else some (copy inst [])

/-- The watch asks for the event, or gets it unasked. -/
def asks (w : Watch) (mask : UInt32) : Prop :=
  mask &&& (w.mask ||| (inIgnored ||| inQOverflow ||| inUnmount)) ≠ 0

/-- The event is about a watch that is there, and says something the watch asks for. -/
def Speaks (inst : Inst) (ke : KEvent) : Prop :=
  ∃ i w, (inst.watches.findIdx? fun w => w.fd == ke.ident) = some i ∧ inst.watches[i]? = some w ∧
    (ke.fflags &&& (noteDelete ||| noteRevoke) ≠ 0 ∨
      ke.fflags &&& noteAttrib ≠ 0 ∧ asks w inAttrib ∨
      ke.fflags &&& noteRename ≠ 0 ∧ asks w inMoveSelf ∨
      ke.fflags &&& (noteWrite ||| noteExtend ||| noteLink) ≠ 0 ∧
        (if w.isDir then
          (directoryChanged w (ke.look.scan w.path) inst.nextCookie).2.2 ≠ []
        else asks w inModify))

variable {inst : Inst} {w : Watch}

theorem emitMasked_ne_nil {mask cookie : UInt32} {name : Option Name} {isdir : Bool} :
    emitMasked w mask cookie name isdir ≠ [] ↔ asks w mask := by
  unfold emitMasked asks
  split
  · next h => simp [h]
  · next h => simp [h]

/-- What a note has to say of a watch, but for its going. -/
theorem noted_records (i : ℕ) (ke : KEvent) : (inst.noted i w ke).2 =
    (if ke.fflags &&& (noteWrite ||| noteExtend ||| noteLink) ≠ 0 then
      (if w.isDir then (directoryChanged w (ke.look.scan w.path) inst.nextCookie).2.2
      else emitMasked w inModify 0 none false) else []) ++
    (if ke.fflags &&& noteAttrib ≠ 0 then emitMasked w inAttrib 0 none w.isDir else []) ++
    (if ke.fflags &&& noteRename ≠ 0 then emitMasked w inMoveSelf 0 none w.isDir else []) := by
  unfold noted
  by_cases hnote : ke.fflags &&& (noteWrite ||| noteExtend ||| noteLink) ≠ 0
  · rw [if_pos hnote, if_pos hnote]
    by_cases hdir : w.isDir = true
    · rw [if_pos hdir, if_pos hdir]
    · rw [if_neg hdir, if_neg hdir]
  · rw [if_neg hnote, if_neg hnote]

theorem append_ne_nil {rs rs' : List Record} : rs ++ rs' ≠ [] ↔ rs ≠ [] ∨ rs' ≠ [] := by
  rw [Ne, List.append_eq_nil_iff, not_and_or]

theorem ite_ne_nil {p : Prop} [Decidable p] {rs : List Record} :
    (if p then rs else []) ≠ [] ↔ p ∧ rs ≠ [] := by
  split
  · next h => simp [h]
  · next h => simp [h]

/-- An event has a record if and only if it speaks. -/
theorem translate_speaks_iff (ke : KEvent) : (inst.translate ke).2 ≠ [] ↔ inst.Speaks ke := by
  unfold translate Speaks
  cases hi : inst.watches.findIdx? fun w => w.fd == ke.ident with
  | none => simp
  | some i =>
    cases hw : inst.watches[i]? with
    | none => simp [hw]
    | some w =>
      have hnoted : (inst.noted i w ke).2 ≠ [] ↔
          ke.fflags &&& noteAttrib ≠ 0 ∧ asks w inAttrib ∨
          ke.fflags &&& noteRename ≠ 0 ∧ asks w inMoveSelf ∨
          ke.fflags &&& (noteWrite ||| noteExtend ||| noteLink) ≠ 0 ∧
            (if w.isDir then
              (directoryChanged w (ke.look.scan w.path) inst.nextCookie).2.2 ≠ []
            else asks w inModify) := by
        rw [noted_records, append_ne_nil, append_ne_nil, ite_ne_nil, ite_ne_nil, ite_ne_nil,
          emitMasked_ne_nil, emitMasked_ne_nil]
        by_cases hdir : w.isDir = true
        · rw [if_pos hdir, if_pos hdir]
          tauto
        · rw [if_neg hdir, if_neg hdir, emitMasked_ne_nil]
          tauto
      by_cases hgone : ke.fflags &&& (noteDelete ||| noteRevoke) ≠ 0
      · simp [hw, hgone]
      · simp only [hw, if_neg hgone, hnoted]
        simp [hgone, hw]

/-- Events have a record if and only if one of them speaks in its turn. -/
theorem takeEvents_speaks_iff (evs : List KEvent) : (inst.takeEvents evs).2 ≠ [] ↔
    ∃ pre ke post, evs = pre ++ ke :: post ∧ (inst.takeEvents pre).1.Speaks ke := by
  induction evs generalizing inst with
  | nil => simp [takeEvents]
  | cons ke evs ih =>
    show (inst.translate ke).2 ++ ((inst.translate ke).1.takeEvents evs).2 ≠ [] ↔ _
    rw [append_ne_nil, translate_speaks_iff, ih]
    constructor
    · rintro (h | ⟨pre, ke', post, rfl, h⟩)
      · exact ⟨[], ke, evs, rfl, h⟩
      · exact ⟨ke :: pre, ke', post, rfl, h⟩
    · rintro ⟨pre, ke', post, heq, h⟩
      cases pre with
      | nil =>
        cases heq
        exact Or.inl h
      | cons ke'' pre =>
        cases heq
        exact Or.inr ⟨pre, ke', post, rfl, h⟩

/-- The events of the passes. -/
def passed : List Pass → List KEvent
  | [] => []
  | none :: _ => []
  | some evs :: passes => if evs.length = 32 then evs ++ passed passes else evs

theorem takeEvents_append (inst : Inst) (evs evs' : List KEvent) :
    inst.takeEvents (evs ++ evs') = (((inst.takeEvents evs).1.takeEvents evs').1,
      (inst.takeEvents evs).2 ++ ((inst.takeEvents evs).1.takeEvents evs').2) := by
  induction evs generalizing inst with
  | nil => rfl
  | cons ke evs ih =>
    have hrest := ih (inst.translate ke).1
    show (((inst.translate ke).1.takeEvents (evs ++ evs')).1,
      (inst.translate ke).2 ++ ((inst.translate ke).1.takeEvents (evs ++ evs')).2) = _
    rw [hrest, ← List.append_assoc]
    rfl

theorem takePasses_eq {passes : List Pass} {r : Inst × List Record}
    (h : inst.takePasses passes = some r) : r = inst.takeEvents (passed passes) := by
  induction passes generalizing inst r with
  | nil => cases h
  | cons pass passes ih =>
    cases pass with
    | none =>
      cases h
      rfl
    | some evs =>
      simp only [takePasses, passed] at h ⊢
      split at h
      · next hfull =>
        cases hrest : (inst.takeEvents evs).1.takePasses passes with
        | none =>
          rw [hrest] at h
          cases h
        | some r' =>
          rw [hrest] at h
          cases h
          rw [if_pos hfull, takeEvents_append, ← ih hrest]
      · next hfew =>
        cases h
        rw [if_neg hfew]

end Inst

section Queues
variable {queueMax : ℕ} {q : Queue} {grown : ℕ → Bool} {rs : List Record}

/-- An empty queue takes the record, or an overflow record for it. -/
def Queue.Accepts (queueMax : ℕ) (q : Queue) (grown : Bool) (r : Record) : Prop :=
  if queueMax < r.total then q.overflowed = false ∧ eventSize ≤ queueMax
  else q.qcap < r.total → grown = true

theorem emit_refused {g : Bool} {r : Record} (hq : q.queue = []) (h : ¬ q.Accepts queueMax g r) :
    q.emit queueMax g r = q := by
  have hlen : q.qlen = 0 := by rw [Queue.qlen, hq]; rfl
  unfold Queue.Accepts at h
  unfold Queue.emit
  rw [hlen, Nat.zero_add, Nat.zero_add]
  by_cases hfull : queueMax < r.total
  · rw [if_pos hfull] at h ⊢
    by_cases hover : q.overflowed = true
    · rw [if_pos hover]
    · rw [if_neg hover, if_pos]
      have hfresh : q.overflowed = false := by simpa using hover
      exact Nat.lt_of_not_le fun hroom => h ⟨hfresh, hroom⟩
  · rw [if_neg hfull] at h ⊢
    obtain ⟨hcap, hno⟩ := Classical.not_imp.mp h
    rw [if_pos hcap, if_neg hno]

theorem emit_accepted {g : Bool} {r : Record} (hq : q.queue = []) (h : q.Accepts queueMax g r) :
    (q.emit queueMax g r).queue ≠ [] := by
  have hlen : q.qlen = 0 := by rw [Queue.qlen, hq]; rfl
  have hbytes (r : Record) : r.bytes ≠ [] := by
    intro hnil
    have hlen := r.length_bytes
    rw [hnil, Record.total] at hlen
    exact absurd hlen (by simp [eventSize]; omega)
  unfold Queue.Accepts at h
  unfold Queue.emit
  rw [hlen, Nat.zero_add, Nat.zero_add]
  by_cases hfull : queueMax < r.total
  · rw [if_pos hfull] at h ⊢
    rw [if_neg (by simp [h.1]), if_neg (Nat.not_lt.mpr h.2), hq, List.nil_append]
    exact hbytes _
  · rw [if_neg hfull] at h ⊢
    by_cases hcap : q.qcap < r.total
    · rw [if_pos hcap, if_pos (h hcap), hq, List.nil_append]
      exact hbytes r
    · rw [if_neg hcap, hq, List.nil_append]
      exact hbytes r

theorem emit_keeps {g : Bool} {r : Record} (hq : q.queue ≠ []) : (q.emit queueMax g r).queue ≠ [] := by
  unfold Queue.emit
  split_ifs <;> simp [hq]

theorem emits_keeps (hq : q.queue ≠ []) : (q.emits queueMax grown rs).queue ≠ [] := by
  induction rs generalizing q grown with
  | nil => exact hq
  | cons r rs ih => exact ih (emit_keeps hq)

/-- An empty queue is not empty after the emits if and only if it took one of the records. -/
theorem emits_ne_nil_iff (hq : q.queue = []) : (q.emits queueMax grown rs).queue ≠ [] ↔
    ∃ i r, rs[i]? = some r ∧ q.Accepts queueMax (grown i) r := by
  induction rs generalizing grown with
  | nil => simp [Queue.emits, hq]
  | cons r rs ih =>
    rw [Queue.emits]
    by_cases hr : q.Accepts queueMax (grown 0) r
    · constructor
      · exact fun _ => ⟨0, r, rfl, hr⟩
      · exact fun _ => emits_keeps (emit_accepted hq hr)
    · rw [emit_refused hq hr, ih]
      constructor
      · rintro ⟨i, r', hget, hacc⟩
        exact ⟨i + 1, r', hget, hacc⟩
      · rintro ⟨i, r', hget, hacc⟩
        cases i with
        | zero =>
          cases hget
          exact absurd hacc hr
        | succ i => exact ⟨i, r', hget, hacc⟩

end Queues

/-- A read answers an error, or one whole record or more, which it puts into the buffer. -/
def Answers (out : Int) (told : List InstEvent) : Prop :=
  out < 0 ∨ ∃ rs, rs ≠ [] ∧ out = (rs.flatMap Record.bytes).length ∧
    .queue (.took (rs.flatMap Record.bytes)) ∈ told

theorem answers_ne_zero {out : Int} {told : List InstEvent} (h : Answers out told) : out ≠ 0 := by
  rcases h with hneg | ⟨rs, hne, hout, -⟩
  · omega
  · have hcount := count_le_stream rs
    have hpos := List.length_pos_of_ne_nil hne
    rw [hout]
    intro hzero
    have hlen : (recordFrames.stream rs).length = 0 := Int.ofNat_eq_zero.mp hzero
    omega

/-- The copying half of a read answers so when the queue has a record, and 0 when it has none. -/
theorem read_answers_iff {queueMax : ℕ} {q : Queue} {tr : List QueueEvent}
    (h : QueueRun queueMax tr q) {len : ℕ} (hlen : eventSize ≤ len) (told : List InstEvent) :
    (Answers (q.read len).1 (told ++ [.queue (.took (q.read len).2.1)]) ↔ q.queue ≠ []) ∧
      ((q.read len).1 = 0 ↔ q.queue = []) := by
  have hcut : Cut tr q :=
    h.invariant (fun tr q => Cut tr q) ⟨[], [], rfl, rfl, rfl⟩ fun _ _ _ _ _ h _ hs => cut_step h hs
  obtain ⟨-, pending, -, -, hpending⟩ := hcut
  have hreads := readsWhole hpending hlen
  have hsome : q.queue ≠ [] →
      Answers (q.read len).1 (told ++ [.queue (.took (q.read len).2.1)]) := by
    intro hne
    cases pending with
    | nil => exact absurd hpending hne
    | cons r rest =>
      by_cases hshort : len < r.total
      · rw [hreads.tooShort r rest rfl hshort]
        left
        show einval < 0
        decide
      · obtain ⟨taken, left, -, htaken, -, -, hread⟩ := hreads.whole r rest rfl (Nat.not_lt.mp hshort)
        rw [hread]
        right
        exact ⟨taken, htaken, rfl, List.mem_append_right _ List.mem_cons_self⟩
  have hnone : q.queue = [] → (q.read len).1 = 0 := by
    intro hnil
    rw [Queue.read, if_neg (Nat.not_lt.mpr hlen), if_pos (by rw [Queue.qlen, hnil]; rfl)]
  refine ⟨⟨fun ha hnil => ?_, hsome⟩, fun hzero => ?_, hnone⟩
  · exact answers_ne_zero ha (hnone hnil)
  · by_contra hne
    exact answers_ne_zero (hsome hne) hzero

section Kqueue
variable {queueMax : ℕ} {grown : ℕ → Bool} {inst inst' : Inst} {len : ℕ} {passes : List Pass}
  {out : Int} {told : List InstEvent}

/-- The read is refused at once, the queue has a record, or one of the records of the events that it
takes gets into the queue. -/
def Inst.Hears (queueMax : ℕ) (grown : ℕ → Bool) (inst : Inst) (len : ℕ) (passes : List Pass) : Prop :=
  len < eventSize ∨ inst.queue.qlen ≠ 0 ∨
    ∃ i r, (inst.takeEvents (Inst.passed passes)).2[i]? = some r ∧
      inst.queue.Accepts queueMax (grown i) r

/-- With memory and room for every record it comes down to the events: one of them speaks. -/
theorem hears_iff_speaks (hmemory : ∀ i, grown i = true)
    (hroom : ∀ r ∈ (inst.takeEvents (Inst.passed passes)).2, r.total ≤ queueMax) :
    inst.Hears queueMax grown len passes ↔ len < eventSize ∨ inst.queue.qlen ≠ 0 ∨
      ∃ pre ke post, Inst.passed passes = pre ++ ke :: post ∧
        (inst.takeEvents pre).1.Speaks ke := by
  rw [Inst.Hears, ← Inst.takeEvents_speaks_iff]
  generalize (inst.takeEvents (Inst.passed passes)).2 = rs at *
  apply or_congr_right
  apply or_congr_right
  constructor
  · rintro ⟨i, r, hget, -⟩ hnil
    rw [hnil] at hget
    cases hget
  · intro hne
    obtain ⟨r, rest, rfl⟩ := List.exists_cons_of_ne_nil hne
    refine ⟨0, r, rfl, ?_⟩
    rw [Queue.Accepts, if_neg (Nat.not_lt.mpr (hroom r List.mem_cons_self))]
    exact fun _ => hmemory 0

/-- A read with passes is a read with their events. -/
theorem readPasses_eq (h : inst.readPasses queueMax grown len passes = some (out, inst', told)) :
    inst.read queueMax grown len (Inst.passed passes) = (out, inst', told) := by
  unfold Inst.readPasses at h
  unfold Inst.read
  by_cases hlen : len < eventSize
  · rw [if_pos hlen] at h ⊢
    exact Option.some.inj h
  · rw [if_neg hlen] at h ⊢
    by_cases hq : inst.queue.qlen = 0
    · simp only [if_pos hq] at h ⊢
      cases htake : inst.takePasses passes with
      | none =>
        rw [htake] at h
        cases h
      | some r =>
        rw [htake] at h
        rw [← Inst.takePasses_eq htake]
        exact Option.some.inj h
    · simp only [if_neg hq] at h ⊢
      exact Option.some.inj h

theorem kq_read_iff {tr : List InstEvent}
    (hr : Run (kqMachine queueMax) (fun _ _ => True) {} tr inst)
    (hread : inst.readPasses queueMax grown len passes = some (out, inst', told)) :
    (Answers out told ↔ inst.Hears queueMax grown len passes) ∧
      (out = 0 ↔ ¬ inst.Hears queueMax grown len passes) := by
  have hrun := kq_queueRun hr
  have heq := readPasses_eq hread
  unfold Inst.Hears
  unfold Inst.read at heq
  by_cases hlen : len < eventSize
  · rw [if_pos hlen] at heq
    cases heq
    have hneg : Answers einval [] := by
      left
      show einval < 0
      decide
    exact ⟨⟨fun _ => Or.inl hlen, fun _ => hneg⟩,
      ⟨fun hzero => absurd hzero (answers_ne_zero hneg), fun hno => absurd (Or.inl hlen) hno⟩⟩
  rw [if_neg hlen] at heq
  have hmin : eventSize ≤ len := Nat.not_lt.mp hlen
  by_cases hq : inst.queue.qlen = 0
  · simp only [if_pos hq, Inst.say] at heq
    have hnil : inst.queue.queue = [] := List.length_eq_zero_iff.mp hq
    rw [takeEvents_queue] at heq
    cases heq
    let rs := (inst.takeEvents (Inst.passed passes)).2
    have hhears : (len < eventSize ∨ inst.queue.qlen ≠ 0 ∨ ∃ i r, rs[i]? = some r ∧
        inst.queue.Accepts queueMax (grown i) r) ↔
        (inst.queue.emits queueMax grown rs).queue ≠ [] := by
      rw [emits_ne_nil_iff hnil]
      simp only [hlen, hq, ne_eq, not_true_eq_false, false_or]
    obtain ⟨hanswers, hzero⟩ := read_answers_iff (hrun.emits grown rs) hmin
      ((inst.queue.emitsEvents queueMax grown rs).map .queue)
    rw [hhears, not_not]
    exact ⟨hanswers, hzero⟩
  · simp only [if_neg hq] at heq
    cases heq
    have hne : inst.queue.queue ≠ [] := fun hnil => hq (by rw [Queue.qlen, hnil]; rfl)
    obtain ⟨hanswers, hzero⟩ := read_answers_iff hrun hmin []
    exact ⟨⟨fun _ => Or.inr (Or.inl hq), fun _ => hanswers.mpr hne⟩,
      ⟨fun h => absurd (hzero.mp h) hne, fun hno => absurd (Or.inr (Or.inl hq)) hno⟩⟩

end Kqueue

section Windows
variable {queueMax : ℕ} {inst inst' : WinInst} {told : List InstEvent}

theorem win_takeEvents_nonblock (inst : WinInst) (cs : List Completion) :
    (inst.takeEvents cs).1.nonblock = inst.nonblock := by
  have hone (inst : WinInst) (c : Completion) : (inst.takeOne c).1.nonblock = inst.nonblock := by
    unfold WinInst.takeOne
    repeat' split
    all_goals rfl
  induction cs generalizing inst with
  | nil => rfl
  | cons c cs ih => exact (ih _).trans (hone inst c)

theorem win_checkGone_nonblock (inst : WinInst) (there : ℕ → Presence) (n : ℕ) :
    (inst.checkGone there n).1.nonblock = inst.nonblock := by
  induction n generalizing inst with
  | zero => rfl
  | succ n ih =>
    unfold WinInst.checkGone
    split
    · exact ih inst
    · split
      · exact ih inst
      · exact ih (inst.forget n)

theorem win_round_nonblock (queueMax : ℕ) (inst : WinInst) (r : WinInst.Round) :
    (inst.round queueMax r).1.nonblock = inst.nonblock := by
  have htaken := win_takeEvents_nonblock inst r.completions
  unfold WinInst.round
  dsimp only [WinInst.say]
  split
  · exact (win_checkGone_nonblock _ _ _).trans htaken
  · exact htaken

/-- The rounds of an instance that waits end with a record in the queue. -/
theorem win_rounds_record {rs : List WinInst.Round} (hb : inst.nonblock = false)
    (hr : inst.rounds queueMax rs = some (inst', told)) :
    inst'.nonblock = false ∧ inst'.queue.queue ≠ [] := by
  have hne {inst : WinInst} (hq : inst.queue.qlen ≠ 0) : inst.queue.queue ≠ [] := by
    intro hnil
    exact hq (by rw [Queue.qlen, hnil]; rfl)
  induction rs generalizing inst told with
  | nil =>
    unfold WinInst.rounds at hr
    split at hr
    · cases hr
    · next hq =>
      cases hr
      exact ⟨hb, hne hq⟩
  | cons r rs ih =>
    have hround := (win_round_nonblock queueMax inst r).trans hb
    unfold WinInst.rounds at hr
    split at hr
    · next hq =>
      cases hr
      exact ⟨hb, hne hq⟩
    · simp only [hround, Bool.false_eq_true, if_false] at hr
      split at hr
      · cases hr
      · next hrest =>
        cases hr
        exact ih hround hrest

theorem win_run_nonblock {tr : List InstEvent}
    (hr : Run (winMachine queueMax) (fun _ _ => True) {} tr inst) : inst.nonblock = false := by
  apply Run.invariant (fun _ inst => inst.nonblock = false) rfl ?_ hr
  intro _ inst l inst' _ h _ hs
  cases l with
  | addWatch path mask os =>
    cases hs
    show (inst.addWatch path mask os).2.1.nonblock = false
    unfold WinInst.addWatch
    repeat' split
    all_goals exact h
  | rmWatch wd grown =>
    cases hs
    show (inst.rmWatch queueMax grown wd).2.1.nonblock = false
    unfold WinInst.rmWatch
    split <;> exact h
  | read len rs =>
    simp only [winMachine, Option.map_eq_some_iff] at hs
    obtain ⟨⟨out, inst₁, told⟩, hread, rfl⟩ := hs
    unfold WinInst.read at hread
    split at hread
    · cases hread
      exact h
    · split at hread
      · cases hread
      · next hrounds =>
        cases hread
        exact (win_rounds_record h hrounds).1

theorem win_read_answers {tr : List InstEvent} {len : ℕ} {rounds : List WinInst.Round} {out : Int}
    (hr : Run (winMachine queueMax) (fun _ _ => True) {} tr inst)
    (hread : inst.read queueMax len rounds = some (out, inst', told)) : Answers out told := by
  unfold WinInst.read at hread
  by_cases hlen : len < eventSize
  · rw [if_pos hlen] at hread
    cases hread
    left
    show einval < 0
    decide
  · rw [if_neg hlen] at hread
    cases hrounds : inst.rounds queueMax rounds with
    | none =>
      rw [hrounds] at hread
      cases hread
    | some r =>
      obtain ⟨inst₁, told₁⟩ := r
      rw [hrounds] at hread
      cases hread
      have hrecord := (win_rounds_record (win_run_nonblock hr) hrounds).2
      have hrun := win_rounds_queueRun (@win_queueRun _ _ _ false hr) hrounds
      exact (read_answers_iff hrun (Nat.not_lt.mp hlen) told₁).1.mpr hrecord

end Windows

/-- In the kqueue arm a read of an instance that waits answers with a record or an error exactly if
the events it takes put one into its empty queue, and 0 otherwise; in the Windows arm it always does. -/
theorem blocking_reads_answer_iff (queueMax : ℕ) :
    (∀ tr inst, Run (kqMachine queueMax) (fun _ _ => True) {} tr inst →
      ∀ grown len passes out inst' told,
        inst.readPasses queueMax grown len passes = some (out, inst', told) →
        (Answers out told ↔ inst.Hears queueMax grown len passes) ∧
          (out = 0 ↔ ¬ inst.Hears queueMax grown len passes)) ∧
    ∀ tr inst, Run (winMachine queueMax) (fun _ _ => True) {} tr inst →
      ∀ len rounds out inst' told, inst.read queueMax len rounds = some (out, inst', told) →
        Answers out told :=
  ⟨fun _ _ hr _ _ _ _ _ _ hread => kq_read_iff hr hread,
    fun _ _ hr _ _ _ _ _ hread => win_read_answers hr hread⟩

/-- A watch on the file `a`, for changes of its attributes. -/
def attribInst : Inst := { nextWd := 2, watches := [⟨1, 5, [97], inAttrib, false, []⟩] }

theorem attribInst_run : ∃ tr, Run (kqMachine inotifyQueueMax) (fun _ _ => True) {} tr attribInst := by
  have h : Run (kqMachine inotifyQueueMax) (fun _ _ => True) {} [] {} := .start
  exact ⟨_, h.next (l := .addWatch (some [97]) inAttrib { stat := .ok 0o100644, wfd := .ok 5 })
    trivial rfl⟩

/-- Its attributes change, and the read has the record. -/
theorem attrib_read_answers : ∃ out inst' told,
    attribInst.readPasses inotifyQueueMax (fun _ => true) 4096 [some [⟨5, noteAttrib, {}⟩]] =
      some (out, inst', told) ∧ Answers out told := by
  obtain ⟨tr, hr⟩ := attribInst_run
  have hreturns : ∃ r, attribInst.readPasses inotifyQueueMax (fun _ => true) 4096
      [some [⟨5, noteAttrib, {}⟩]] = some r := ⟨_, rfl⟩
  obtain ⟨⟨out, inst', told⟩, hread⟩ := hreturns
  refine ⟨out, inst', told, hread, ?_⟩
  apply ((blocking_reads_answer_iff inotifyQueueMax).1 tr attribInst hr _ _ _ _ _ _ hread).1.mpr
  right
  right
  exact ⟨0, ⟨1, inAttrib, 0, none⟩, by decide, fun _ => rfl⟩

/-- It is written to, which wakes the read, and the read answers 0. -/
theorem unasked_event_ends_wait : ∃ tr inst' told,
    Run (kqMachine inotifyQueueMax) (fun _ _ => True) {} tr attribInst ∧
    attribInst.readPasses inotifyQueueMax (fun _ => true) 4096 [some [⟨5, noteWrite, {}⟩]] =
      some (0, inst', told) := by
  obtain ⟨tr, hr⟩ := attribInst_run
  exact ⟨tr, _, _, hr, rfl⟩

end SlipstreamIO.Inotify
