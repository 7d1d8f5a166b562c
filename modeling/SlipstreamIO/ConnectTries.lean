import SlipstreamIO.PosixTry

/-! A CONNECT from its first try to its completion: the system calls of each try, what the tries leave of
the socket's O_NONBLOCK flag, and the connects that are issued, here and in the worker. -/
namespace SlipstreamIO.Engine
open Runs

def enotconn : Int32 := 107

/-- The errno of a call that failed. -/
abbrev Errno := { e : Int32 // e ≠ 0 }

/-- The system calls of a connect and what comes of the op. `tried` has the flag of the socket in front
of a try and behind it; `reported` is an error that came with the event of a socket. -/
inductive ConnectEvent where
  | getfl (failed : Option Errno)
  | connect (worker nonblock : Bool) (failed : Option Errno)
  | sockError (err : Except Errno Int32)
  | peerName (failed : Option Errno)
  | tried (before after : Bool)
  | reported (err : Int32)
  | completed (res : Int32)

/-- What the system answers the calls of one try. -/
structure ConnectOs where
  getfl : Option Errno := none
  setfl : Bool := true
  setflBack : Bool := true
  connect : Option Errno := none
  sockError : Except Errno Int32 := .ok 0
  peerName : Option Errno := none

/-- A try, the flag it leaves, and its calls in their order. -/
structure ConnectTurn where
  turn : TryTurn
  nonblock : Bool
  calls : List ConnectEvent

/-- `try_connect` with its system calls. -/
def EngOp.tryConnectCalls (o : EngOp) (nonblock : Bool) (os : ConnectOs) : ConnectTurn :=
  if o.connectInProgress then
    if o.socketError ≠ 0 then ⟨o.ran (-o.socketError), nonblock, []⟩
    else
      match os.sockError with
      | .error e => ⟨o.ran (-e), nonblock, [.sockError (.error e)]⟩
      | .ok err =>
        if err ≠ 0 then ⟨o.ran (-err), nonblock, [.sockError (.ok err)]⟩
        else
          let calls := [.sockError (.ok 0), .peerName os.peerName]
          match os.peerName with
          | none => ⟨o.ran 0, nonblock, calls⟩
          | some e =>
            if e.1 ≠ enotconn then ⟨o.ran (-e), nonblock, calls⟩ else ⟨o.parks pollOut, nonblock, calls⟩
  else
    match os.getfl with
    | some e => ⟨o.ran (-e), nonblock, [.getfl (some e)]⟩
    | none =>
      let fl := nonblock
      let set := if !fl && os.setfl then true else nonblock
      let back := if !fl && os.setflBack then fl else set
      let calls := [.getfl none, .connect false set os.connect]
      match os.connect with
      | none => ⟨o.ran 0, back, calls⟩
      | some e =>
        if e.1 = einprogress then ⟨{ o with connectInProgress := true }.parks pollOut, back, calls⟩
        else if e.1 = eagain then ⟨{ op := o, verdict := some .file }, back, calls⟩
        else ⟨o.ran (-e), back, calls⟩

/-- A try with its calls is a try of the op. -/
theorem EngOp.tryConnectCalls_turn (o : EngOp) (nonblock : Bool) (os : ConnectOs) :
    ∃ a, o.tryConnect a = (o.tryConnectCalls nonblock os).turn := by
  unfold EngOp.tryConnect EngOp.tryConnectCalls EngOp.once
  by_cases hprogress : o.connectInProgress = true
  · simp only [if_pos hprogress]
    by_cases herror : o.socketError ≠ 0
    · exact ⟨.again, by rw [if_pos herror, if_pos herror]⟩
    simp only [if_neg herror]
    cases hsock : os.sockError with
    | error e => exact ⟨.failed e, rfl⟩
    | ok err =>
      by_cases herr : err ≠ 0
      · exact ⟨.failed err, by simp only [if_pos herr]; rfl⟩
      simp only [if_neg herr]
      cases hpeer : os.peerName with
      | none => exact ⟨.got 0 0 0, rfl⟩
      | some e =>
        by_cases hagain : e.1 ≠ enotconn
        · exact ⟨.failed e, by simp only [if_pos hagain]; rfl⟩
        · exact ⟨.again, by simp only [if_neg hagain]; rfl⟩
  · simp only [if_neg hprogress]
    cases hgetfl : os.getfl with
    | some e => exact ⟨.failed e, rfl⟩
    | none =>
      cases hconnect : os.connect with
      | none => exact ⟨.got 0 0 0, rfl⟩
      | some e =>
        by_cases hprog : e.1 = einprogress
        · exact ⟨.again, by simp only [if_pos hprog]⟩
        by_cases hfull : e.1 = eagain
        · exact ⟨.disk, by simp only [if_neg hprog, if_pos hfull]⟩
        · exact ⟨.failed e, by simp only [if_neg hprog, if_neg hfull]; rfl⟩

inductive ConnectPhase where
  | fresh
  | parked
  | worker
  | ended (res : Int32)
  deriving DecidableEq

/-- The op, the flag of its socket, and where the op is. -/
structure ConnectState where
  op : EngOp
  nonblock : Bool
  phase : ConnectPhase := .fresh

/-- What happens to the op: it is executed, it is retried when it is ready, kqueue reads an error with
the event of a parked op, a cancel takes a parked op, the worker runs it. `armed` is whether the
backend registers an op that parks. -/
inductive ConnectLabel where
  | execute (os : ConnectOs) (armed : Bool)
  | ready (os : ConnectOs) (armed : Bool)
  | report (err : Int32)
  | cancel
  | work (failed : Option Errno)

namespace ConnectState

/-- The op behind a try; `file` is what becomes of one that has no readiness to wait for. -/
def after (s : ConnectState) (t : ConnectTurn) (armed : Bool) (file : ConnectPhase) : ConnectState where
  op := t.turn.op
  nonblock := t.nonblock
  phase := match t.turn.verdict with
    | some (.ran res) => .ended res
    | some (.park _) => if armed then .parked else .ended (-ebusy)
    | some .file => file
    | none => s.phase

def workerRes : Option Errno → Int32
  | none => 0
  | some e => -e

def step (s : ConnectState) : ConnectLabel → Option ConnectState
  | .execute os armed =>
    if s.phase = .fresh then some (s.after (s.op.tryConnectCalls s.nonblock os) armed .worker) else none
  | .ready os armed =>
    if s.phase = .parked then
      some (s.after (s.op.tryConnectCalls s.nonblock os) armed (.ended (-eopnotsupp)))
    else none
  | .report err =>
    if s.phase = .parked ∧ err ≠ 0 then some { s with op := { s.op with socketError := err } } else none
  | .cancel => if s.phase = .parked then some { s with phase := .ended (-ecanceled) } else none
  | .work failed => if s.phase = .worker then some { s with phase := .ended (workerRes failed) } else none

/-- The completion, of an op that ended. -/
def completion (s : ConnectState) : List ConnectEvent :=
  match s.phase with
  | .ended res => [.completed res]
  | _ => []

/-- The events of a try that leaves `s'`. -/
def tryEvents (s : ConnectState) (t : ConnectTurn) (s' : ConnectState) : List ConnectEvent :=
  t.calls ++ .tried s.nonblock t.nonblock :: s'.completion

def events (s : ConnectState) : ConnectLabel → List ConnectEvent
  | .execute os armed =>
    let t := s.op.tryConnectCalls s.nonblock os
    s.tryEvents t (s.after t armed .worker)
  | .ready os armed =>
    let t := s.op.tryConnectCalls s.nonblock os
    s.tryEvents t (s.after t armed (.ended (-eopnotsupp)))
  | .report err => [.reported err]
  | .cancel => [.completed (-ecanceled)]
  | .work failed => [.connect true s.nonblock failed, .completed (workerRes failed)]

end ConnectState

def connectMachine : Machine ConnectState ConnectLabel ConnectEvent where
  step := ConnectState.step
  events := ConnectState.events

/-- F_SETFL does what it is asked. -/
def SetsFlags (_ : ConnectState) : ConnectLabel → Prop
  | .execute os _ => os.setfl = true ∧ os.setflBack = true
  | _ => True

/-- A connect that was submitted, on a socket with this flag. -/
def ConnectState.start (sqe : Sqe) (fl : Bool) : ConnectState := { op := { sqe := sqe }, nonblock := fl }

/-- The connects of a history: whether the worker called it, the flag of the socket, and the answer. -/
def connects (tr : List ConnectEvent) : List (Bool × Bool × Option Errno) :=
  tr.filterMap fun
    | .connect worker nonblock failed => some (worker, nonblock, failed)
    | _ => none

theorem connects_append (tr ev : List ConnectEvent) : connects (tr ++ ev) = connects tr ++ connects ev :=
  List.filterMap_append

theorem Errno.neg_ne_zero (e : Errno) : -e.1 ≠ 0 := by
  intro h
  exact e.2 (Int32.neg_inj.mp (h.trans Int32.neg_zero.symm))

/-- The connect of a try: on a socket that does not block, and answered like this. -/
abbrev tryCall (failed : Option Errno) : Bool × Bool × Option Errno := (false, true, failed)

def refusedErrno : Errno := ⟨eagain, by decide⟩

def progressErrno : Errno := ⟨einprogress, by decide⟩

/-- The connects of an op that has been tried: none if the descriptor is none; the try's; or the try's,
answered EAGAIN, and the worker's on the socket as it was. -/
inductive Issued (fl : Bool) (tr : List ConnectEvent) : Prop where
  | none (e : Errno) (h : tr = [.getfl (some e), .tried fl fl, .completed (-e)])
  | once (failed : Option Errno) (h : connects tr = [tryCall failed])
  | worker (failed : Option Errno)
      (h : connects tr = [tryCall (some refusedErrno), (true, fl, failed)])

/-- An answer of 0: a connect returned 0, or no error was pending and the peer's name was read. -/
def ZeroMeansConnected (tr : List ConnectEvent) : Prop :=
  .completed 0 ∈ tr → (∃ worker nonblock, .connect worker nonblock none ∈ tr) ∨
    [.sockError (.ok 0), .peerName none] <:+: tr ∧ ∀ err, .reported err ∉ tr

namespace ConnectState
variable {fl : Bool} {s s' : ConnectState} {t : ConnectTurn} {tr : List ConnectEvent} {os : ConnectOs}

/-- Where the op is, and what was called on the way there. -/
def At (fl : Bool) (tr : List ConnectEvent) (s : ConnectState) : Prop :=
  match s.phase with
  | .fresh => tr = [] ∧ s.op.connectInProgress = false
  | .parked => connects tr = [tryCall (some progressErrno)] ∧ s.op.connectInProgress = true ∧
      (s.op.socketError = 0 → ∀ err, .reported err ∉ tr) ∧ ∀ res, .completed res ∉ tr
  | .worker => connects tr = [tryCall (some refusedErrno)] ∧ ∀ res, .completed res ∉ tr
  | .ended _ => Issued fl tr ∧ ZeroMeansConnected tr

/-- The flag is the one the socket came with, in front of every try and behind it. -/
structure Inv (fl : Bool) (tr : List ConnectEvent) (s : ConnectState) : Prop where
  flag : s.nonblock = fl
  restored : ∀ before after, .tried before after ∈ tr → after = before
  place : s.At fl tr

theorem connects_tryEvents : connects (s.tryEvents t s') = connects t.calls := by
  have hend : connects s'.completion = [] := by
    unfold completion
    split <;> rfl
  rw [tryEvents, connects_append]
  show connects t.calls ++ connects s'.completion = _
  rw [hend, List.append_nil]

theorem completed_tryEvents {res : Int32} (hcalls : .completed res ∉ t.calls) :
    .completed res ∈ s.tryEvents t s' ↔ s'.phase = .ended res := by
  unfold tryEvents completion
  cases s'.phase with
  | ended res' => simp [hcalls, eq_comm]
  | fresh => simp [hcalls]
  | parked => simp [hcalls]
  | worker => simp [hcalls]

theorem tried_tryEvents {before after : Bool} (hcalls : .tried before after ∉ t.calls) :
    .tried before after ∈ s.tryEvents t s' ↔ before = s.nonblock ∧ after = t.nonblock := by
  unfold tryEvents completion
  cases s'.phase <;> simp [hcalls]

theorem reported_tryEvents {err : Int32} (hcalls : .reported err ∉ t.calls) :
    .reported err ∉ s.tryEvents t s' := by
  unfold tryEvents completion
  cases s'.phase <;> simp [hcalls]

end ConnectState

/-- The calls of a try are system calls: nothing completes in them. -/
def ConnectTurn.CallsOnly (t : ConnectTurn) : Prop :=
  ∀ c ∈ t.calls, (∃ f, c = .getfl f) ∨ (∃ w n f, c = .connect w n f) ∨ (∃ e, c = .sockError e) ∨
    ∃ f, c = .peerName f

section Tries
variable {o : EngOp} {fl : Bool} {os : ConnectOs}

/-- What the first try can do. -/
theorem EngOp.firstTry (fl : Bool) (hfresh : o.connectInProgress = false) (hset : os.setfl = true)
    (hback : os.setflBack = true) :
    (∃ e, o.tryConnectCalls fl os = ⟨o.ran (-e.1), fl, [.getfl (some e)]⟩) ∨
    ∃ failed turn, o.tryConnectCalls fl os =
        ⟨turn, fl, [.getfl none, .connect false true failed]⟩ ∧
      ((failed = none ∧ turn.verdict = some (.ran 0)) ∨
        (failed = some progressErrno ∧ turn = EngOp.parks { o with connectInProgress := true } pollOut) ∨
        (failed = some refusedErrno ∧ turn.verdict = some .file) ∨
        ∃ e : Errno, turn.verdict = some (.ran (-e.1))) := by
  unfold EngOp.tryConnectCalls
  rw [if_neg (by simp [hfresh])]
  cases hgetfl : os.getfl with
  | some e => exact Or.inl ⟨e, rfl⟩
  | none =>
    apply Or.inr
    -- whatever the socket came with, the connect sees the flag set and leaves it as it was
    have hseen : (if (!fl && os.setfl) = true then true else fl) = true := by
      cases fl <;> simp [hset]
    have hleft : (if (!fl && os.setflBack) = true then fl else true) = fl := by
      cases fl <;> simp [hback]
    dsimp only
    rw [hseen, hleft]
    cases hconnect : os.connect with
    | none => exact ⟨none, _, rfl, Or.inl ⟨rfl, rfl⟩⟩
    | some e =>
      refine ⟨some e, ?_⟩
      by_cases hprog : e.1 = einprogress
      · simp only [if_pos hprog]
        exact ⟨_, rfl, Or.inr (Or.inl ⟨congrArg some (Subtype.ext hprog), rfl⟩)⟩
      by_cases hfull : e.1 = eagain
      · simp only [if_neg hprog, if_pos hfull]
        exact ⟨_, rfl, Or.inr (Or.inr (Or.inl ⟨congrArg some (Subtype.ext hfull), rfl⟩))⟩
      · simp only [if_neg hprog, if_neg hfull]
        exact ⟨_, rfl, Or.inr (Or.inr (Or.inr ⟨e, rfl⟩))⟩

/-- What a try of a connect in progress can do: it fails, it finds the socket connected, or it waits on. -/
theorem EngOp.laterTry (fl : Bool) (os : ConnectOs) (hprogress : o.connectInProgress = true) :
    ∃ turn calls, o.tryConnectCalls fl os = ⟨turn, fl, calls⟩ ∧ connects calls = [] ∧
      ConnectTurn.CallsOnly ⟨turn, fl, calls⟩ ∧
      ((∃ e : Errno, turn.verdict = some (.ran (-e.1))) ∨
        (turn.verdict = some (.ran 0) ∧ calls = [.sockError (.ok 0), .peerName none] ∧
          o.socketError = 0) ∨
        (turn = o.parks pollOut ∧ o.socketError = 0)) := by
  unfold EngOp.tryConnectCalls
  rw [if_pos hprogress]
  by_cases herror : o.socketError ≠ 0
  · rw [if_pos herror]
    exact ⟨_, _, rfl, rfl, fun c hc => absurd hc List.not_mem_nil, Or.inl ⟨⟨o.socketError, herror⟩, rfl⟩⟩
  rw [if_neg herror]
  have hzero := not_not.mp herror
  cases hsock : os.sockError with
  | error e =>
    refine ⟨_, _, rfl, rfl, fun c hc => ?_, Or.inl ⟨e, rfl⟩⟩
    exact Or.inr (Or.inr (Or.inl ⟨_, List.mem_singleton.mp hc⟩))
  | ok err =>
    by_cases herr : err ≠ 0
    · simp only [if_pos herr]
      refine ⟨_, _, rfl, rfl, fun c hc => ?_, Or.inl ⟨⟨err, herr⟩, rfl⟩⟩
      exact Or.inr (Or.inr (Or.inl ⟨_, List.mem_singleton.mp hc⟩))
    simp only [if_neg herr]
    have honly (turn : TryTurn) (f : Option Errno) :
        ConnectTurn.CallsOnly ⟨turn, fl, [.sockError (.ok 0), .peerName f]⟩ := by
      intro c hc
      rcases List.mem_cons.mp hc with rfl | hc
      · exact Or.inr (Or.inr (Or.inl ⟨_, rfl⟩))
      · exact Or.inr (Or.inr (Or.inr ⟨f, List.mem_singleton.mp hc⟩))
    cases hpeer : os.peerName with
    | none => exact ⟨_, _, rfl, rfl, honly _ _, Or.inr (Or.inl ⟨rfl, rfl, hzero⟩)⟩
    | some e =>
      by_cases hagain : e.1 ≠ enotconn
      · simp only [if_pos hagain]
        exact ⟨_, _, rfl, rfl, honly _ _, Or.inl ⟨e, rfl⟩⟩
      · simp only [if_neg hagain]
        exact ⟨_, _, rfl, rfl, honly _ _, Or.inr (Or.inr ⟨rfl, hzero⟩)⟩

end Tries

theorem ConnectTurn.CallsOnly.silent {t : ConnectTurn} (h : t.CallsOnly) :
    (∀ res, .completed res ∉ t.calls) ∧ (∀ b a, .tried b a ∉ t.calls) ∧ ∀ err, .reported err ∉ t.calls := by
  refine ⟨fun res hc => ?_, fun b a hc => ?_, fun err hc => ?_⟩
  all_goals
    rcases h _ hc with ⟨_, h⟩ | ⟨_, _, _, h⟩ | ⟨_, h⟩ | ⟨_, h⟩
    all_goals cases h

namespace ConnectState
variable {fl : Bool} {s s' : ConnectState} {tr : List ConnectEvent} {os : ConnectOs}

/-- An op that ends with anything but 0 says nothing of a connection. -/
theorem zero_of_other {res : Int32} (hres : res ≠ 0) (hnone : ∀ res', .completed res' ∈ tr → res' = res) :
    ZeroMeansConnected tr := fun hzero => absurd (hnone 0 hzero).symm hres

theorem Inv.execute (h : s.Inv fl tr) (hfresh : s.phase = .fresh) (hset : os.setfl = true)
    (hback : os.setflBack = true) (armed : Bool) :
    let t := s.op.tryConnectCalls s.nonblock os
    let s' := s.after t armed .worker
    s'.Inv fl (tr ++ s.tryEvents t s') := by
  have hplace := h.place
  rw [At, hfresh] at hplace
  obtain ⟨rfl, hprogress⟩ := hplace
  dsimp only
  rw [h.flag, List.nil_append]
  rcases EngOp.firstTry fl hprogress hset hback with ⟨e, htry⟩ | ⟨failed, turn, htry, hturn⟩
  · rw [htry]
    refine ⟨rfl, ?_, ?_⟩
    · intro before after htried
      rw [tried_tryEvents (by simp), h.flag] at htried
      exact htried.2.trans htried.1.symm
    · refine ⟨.none e ?_, ?_⟩
      · rw [← h.flag]
        rfl
      · apply zero_of_other e.neg_ne_zero
        intro res hres
        rw [completed_tryEvents (by simp)] at hres
        exact (ConnectPhase.ended.inj hres).symm
  · rw [htry]
    have hcalls : connects (s.tryEvents ⟨turn, fl, [.getfl none, .connect false true failed]⟩
        (s.after ⟨turn, fl, [.getfl none, .connect false true failed]⟩ armed .worker)) =
        [tryCall failed] := connects_tryEvents
    refine ⟨rfl, ?_, ?_⟩
    · intro before after htried
      rw [tried_tryEvents (by simp), h.flag] at htried
      exact htried.2.trans htried.1.symm
    · rcases hturn with ⟨rfl, hverdict⟩ | ⟨rfl, rfl⟩ | ⟨rfl, hverdict⟩ | ⟨e, hverdict⟩
      · -- the connect returned 0
        simp only [At, after, hverdict]
        simp only [after, hverdict] at hcalls
        refine ⟨.once _ hcalls, fun _ => Or.inl ⟨false, true, ?_⟩⟩
        simp [tryEvents]
      · cases armed with
        | true =>
          refine ⟨hcalls, rfl, fun _ err => ?_, fun res hres => ?_⟩
          · exact reported_tryEvents (by simp)
          · rw [completed_tryEvents (by simp)] at hres
            cases hres
        | false =>
          refine ⟨.once _ hcalls, zero_of_other (show -ebusy ≠ 0 by decide) fun res hres => ?_⟩
          rw [completed_tryEvents (by simp)] at hres
          exact (ConnectPhase.ended.inj hres).symm
      · simp only [At, after, hverdict]
        simp only [after, hverdict] at hcalls
        refine ⟨hcalls, fun res hres => ?_⟩
        rw [completed_tryEvents (by simp)] at hres
        cases hres
      · simp only [At, after, hverdict]
        simp only [after, hverdict] at hcalls
        refine ⟨.once _ hcalls, zero_of_other e.neg_ne_zero fun res hres => ?_⟩
        rw [completed_tryEvents (by simp)] at hres
        exact (ConnectPhase.ended.inj hres).symm

theorem Inv.ready (h : s.Inv fl tr) (hparked : s.phase = .parked) (armed : Bool) :
    let t := s.op.tryConnectCalls s.nonblock os
    let s' := s.after t armed (.ended (-eopnotsupp))
    s'.Inv fl (tr ++ s.tryEvents t s') := by
  have hplace := h.place
  rw [At, hparked] at hplace
  obtain ⟨hissued, hprogress, hquiet, hopen⟩ := hplace
  dsimp only
  rw [h.flag]
  obtain ⟨turn, calls, htry, hnone, honly, hturn⟩ := EngOp.laterTry fl os hprogress
  rw [htry]
  obtain ⟨hcompleted, htried, hreported⟩ := honly.silent
  have hcalls (s' : ConnectState) : connects (tr ++ s.tryEvents ⟨turn, fl, calls⟩ s') =
      [tryCall (some progressErrno)] := by
    rw [connects_append, hissued, connects_tryEvents]
    exact congrArg _ hnone
  -- an op that ends now completes now
  have hended {s' : ConnectState} {res res' : Int32} (hphase : s'.phase = .ended res)
      (hres : .completed res' ∈ tr ++ s.tryEvents ⟨turn, fl, calls⟩ s') : res' = res := by
    rcases List.mem_append.mp hres with hres | hres
    · exact absurd hres (hopen res')
    · rw [completed_tryEvents (hcompleted res'), hphase] at hres
      exact (ConnectPhase.ended.inj hres).symm
  refine ⟨rfl, ?_, ?_⟩
  · intro before after hmem
    rcases List.mem_append.mp hmem with hmem | hmem
    · exact h.restored before after hmem
    · rw [tried_tryEvents (htried before after), h.flag] at hmem
      exact hmem.2.trans hmem.1.symm
  · rcases hturn with ⟨e, hverdict⟩ | ⟨hverdict, rfl, hzero⟩ | ⟨rfl, hzero⟩
    · simp only [At, after, hverdict]
      exact ⟨.once _ (hcalls _), zero_of_other e.neg_ne_zero fun res hres => hended rfl hres⟩
    · -- no error pending, and the peer has a name
      simp only [At, after, hverdict]
      refine ⟨.once _ (hcalls _), fun _ => Or.inr ⟨?_, fun err => ?_⟩⟩
      · rw [tryEvents, ← List.append_assoc]
        exact List.infix_append ..
      · rw [List.mem_append, not_or]
        exact ⟨hquiet hzero err, reported_tryEvents (hreported err)⟩
    · cases armed with
      | true =>
        refine ⟨hcalls _, hprogress, fun _ err => ?_, fun res hres => ?_⟩
        · rw [List.mem_append, not_or]
          exact ⟨hquiet hzero err, reported_tryEvents (hreported err)⟩
        · rcases List.mem_append.mp hres with hres | hres
          · exact hopen res hres
          · rw [completed_tryEvents (hcompleted res)] at hres
            cases hres
      | false =>
        exact ⟨.once _ (hcalls _), zero_of_other (show -ebusy ≠ 0 by decide) fun res hres => hended rfl hres⟩

/-- The steps that are no try: an error is read with an event, a cancel takes the op, the worker runs
it. -/
theorem Inv.untried (h : s.Inv fl tr) {l : ConnectLabel} (hs : s.step l = some s')
    (hl : (∃ err, l = .report err) ∨ l = .cancel ∨ ∃ failed, l = .work failed) :
    s'.Inv fl (tr ++ s.events l) := by
  have hplace := h.place
  have hkept {ev : List ConnectEvent} (hnone : ∀ b a, .tried b a ∉ ev) :
      ∀ before after, .tried before after ∈ tr ++ ev → after = before := by
    intro before after hmem
    rcases List.mem_append.mp hmem with hmem | hmem
    · exact h.restored before after hmem
    · exact absurd hmem (hnone before after)
  rcases hl with ⟨err, rfl⟩ | rfl | ⟨failed, rfl⟩
  · obtain ⟨⟨hparked, herr⟩, rfl⟩ : (s.phase = .parked ∧ err ≠ 0) ∧
        { s with op := { s.op with socketError := err } } = s' := by
      simpa only [step, Option.ite_none_right_eq_some, Option.some.injEq] using hs
    rw [At, hparked] at hplace
    obtain ⟨hissued, hprogress, -, hopen⟩ := hplace
    refine ⟨h.flag, hkept (by simp [events]), ?_⟩
    rw [At]
    simp only [hparked]
    refine ⟨?_, hprogress, fun hzero => absurd hzero herr, fun res => ?_⟩
    · rw [connects_append, hissued]
      rfl
    · simp [events, hopen res]
  · obtain ⟨hparked, rfl⟩ : s.phase = .parked ∧ { s with phase := .ended (-ecanceled) } = s' := by
      simpa only [step, Option.ite_none_right_eq_some, Option.some.injEq] using hs
    rw [At, hparked] at hplace
    obtain ⟨hissued, -, -, hopen⟩ := hplace
    refine ⟨h.flag, hkept (by simp [events]), .once (some progressErrno) ?_, ?_⟩
    · rw [connects_append, hissued]
      rfl
    · apply zero_of_other (show -ecanceled ≠ 0 by decide)
      intro res hres
      simpa [events, hopen res] using hres
  · obtain ⟨hworker, rfl⟩ : s.phase = .worker ∧ { s with phase := .ended (workerRes failed) } = s' := by
      simpa only [step, Option.ite_none_right_eq_some, Option.some.injEq] using hs
    rw [At, hworker] at hplace
    obtain ⟨hissued, hopen⟩ := hplace
    refine ⟨h.flag, hkept (by simp [events]), .worker failed ?_, ?_⟩
    · rw [connects_append, hissued, ← h.flag]
      rfl
    · cases failed with
      | none =>
        refine fun _ => Or.inl ⟨true, s.nonblock, ?_⟩
        simp [events]
      | some e =>
        apply zero_of_other e.neg_ne_zero
        intro res hres
        simpa [events, workerRes, hopen res] using hres

theorem Inv.step (h : s.Inv fl tr) {l : ConnectLabel} (hl : SetsFlags s l) (hs : s.step l = some s') :
    s'.Inv fl (tr ++ s.events l) := by
  cases l with
  | execute os armed =>
    obtain ⟨hfresh, rfl⟩ := by
      simpa only [ConnectState.step, Option.ite_none_right_eq_some, Option.some.injEq] using hs
    exact h.execute hfresh hl.1 hl.2 armed
  | ready os armed =>
    obtain ⟨hparked, rfl⟩ := by
      simpa only [ConnectState.step, Option.ite_none_right_eq_some, Option.some.injEq] using hs
    exact h.ready hparked armed
  | report err => exact h.untried hs (Or.inl ⟨err, rfl⟩)
  | cancel => exact h.untried hs (Or.inr (Or.inl rfl))
  | work failed => exact h.untried hs (Or.inr (Or.inr ⟨failed, rfl⟩))

end ConnectState

/-- A connect as a state machine: the flag is restored by every try; connects are issued as `Issued` has
them; behind a connect in progress there is no other, here or in the worker; and 0 is the answer of a
connected socket. -/
structure ConnectSound (fl : Bool) (tr : List ConnectEvent) (s : ConnectState) : Prop where
  restored : ∀ before after, .tried before after ∈ tr → after = before
  flag : s.nonblock = fl
  issued : (tr = [] ∧ s.phase = .fresh) ∨ Issued fl tr
  quiet : ∀ pre post nonblock, tr = pre ++ .connect false nonblock (some progressErrno) :: post →
    connects post = [] ∧ s.phase ≠ .worker
  zero : ZeroMeansConnected tr

namespace ConnectState
variable {fl : Bool} {s : ConnectState} {tr : List ConnectEvent}

theorem Inv.issued (h : s.Inv fl tr) : (tr = [] ∧ s.phase = .fresh) ∨ Issued fl tr := by
  have hplace := h.place
  unfold At at hplace
  cases hphase : s.phase with
  | fresh =>
    simp only [hphase] at hplace
    exact Or.inl ⟨hplace.1, rfl⟩
  | parked =>
    simp only [hphase] at hplace
    exact Or.inr (.once _ hplace.1)
  | worker =>
    simp only [hphase] at hplace
    exact Or.inr (.once _ hplace.1)
  | ended res =>
    simp only [hphase] at hplace
    exact Or.inr hplace.1

theorem Inv.zero (h : s.Inv fl tr) : ZeroMeansConnected tr := by
  have hplace := h.place
  unfold At at hplace
  cases hphase : s.phase with
  | fresh =>
    simp only [hphase] at hplace
    intro hzero
    rw [hplace.1] at hzero
    cases hzero
  | parked =>
    simp only [hphase] at hplace
    exact fun hzero => absurd hzero (hplace.2.2.2 0)
  | worker =>
    simp only [hphase] at hplace
    exact fun hzero => absurd hzero (hplace.2 0)
  | ended res =>
    simp only [hphase] at hplace
    exact hplace.2

/-- A connect in progress is the last one. -/
theorem Inv.quiet (h : s.Inv fl tr) {pre post : List ConnectEvent} {nonblock : Bool}
    (htr : tr = pre ++ .connect false nonblock (some progressErrno) :: post) :
    connects post = [] ∧ s.phase ≠ .worker := by
  have hcalls : connects tr =
      connects pre ++ (false, nonblock, some progressErrno) :: connects post := by
    rw [htr, connects_append]
    rfl
  have hne : progressErrno ≠ refusedErrno := by decide
  constructor
  · rcases h.issued with ⟨hnil, -⟩ | ⟨e, hnone⟩ | ⟨failed, honce⟩ | ⟨failed, hworker⟩
    · rw [hnil] at hcalls
      exact absurd hcalls.symm (List.append_ne_nil_of_right_ne_nil _ (List.cons_ne_nil _ _))
    · rw [hnone] at hcalls
      exact absurd hcalls.symm (List.append_ne_nil_of_right_ne_nil _ (List.cons_ne_nil _ _))
    · rw [honce] at hcalls
      have hlen := congrArg List.length hcalls
      simp only [List.length_append, List.length_cons, List.length_nil] at hlen
      exact List.eq_nil_of_length_eq_zero (by omega)
    · -- of the two the first answered EAGAIN, and the second is the worker's
      rw [hworker] at hcalls
      cases hpre : connects pre with
      | nil =>
        rw [hpre, List.nil_append] at hcalls
        have hhead := (List.cons.inj hcalls).1
        simp only [tryCall, Prod.mk.injEq, Option.some.injEq] at hhead
        exact absurd hhead.2.2.symm hne
      | cons c rest =>
        rw [hpre, List.cons_append] at hcalls
        have htail := (List.cons.inj hcalls).2
        cases rest with
        | nil =>
          have hhead := (List.cons.inj htail).1
          simp only [Prod.mk.injEq, Bool.true_eq_false, false_and] at hhead
        | cons c' rest =>
          have hlen := congrArg List.length htail
          simp only [List.length_append, List.length_cons, List.length_nil] at hlen
          omega
  · intro hphase
    have hplace := h.place
    simp only [At, hphase] at hplace
    rw [hplace.1] at hcalls
    have hmem : ((false, nonblock, some progressErrno) : Bool × Bool × Option Errno) ∈
        [tryCall (some refusedErrno)] := by
      rw [hcalls]
      exact List.mem_append_right _ List.mem_cons_self
    simp only [tryCall, List.mem_singleton, Prod.mk.injEq, Option.some.injEq] at hmem
    exact absurd hmem.2.2 hne

end ConnectState

theorem ConnectState.Inv.run {sqe : Sqe} {fl : Bool} {tr : List ConnectEvent} {s : ConnectState}
    (hr : Run connectMachine SetsFlags (.start sqe fl) tr s) : s.Inv fl tr := by
  apply hr.invariant (fun tr s => s.Inv fl tr)
  · exact ⟨rfl, fun _ _ h => absurd h List.not_mem_nil, rfl, rfl⟩
  · exact fun _ _ _ _ _ h hl hs => h.step hl hs

/-- Whatever the system answers, and however often the op is woken. -/
theorem connect_sound {sqe : Sqe} {fl : Bool} {tr : List ConnectEvent} {s : ConnectState}
    (hr : Run connectMachine SetsFlags (.start sqe fl) tr s) : ConnectSound fl tr s := by
  have hinv := ConnectState.Inv.run hr
  exact ⟨hinv.restored, hinv.flag, hinv.issued, fun _ _ _ htr => hinv.quiet htr, hinv.zero⟩

/-- The connects on a socket with O_NONBLOCK set, and those on one without it. -/
def nonblocking (tr : List ConnectEvent) : List (Bool × Bool × Option Errno) :=
  (connects tr).filter fun c => c.2.1

def blocking (tr : List ConnectEvent) : List (Bool × Bool × Option Errno) :=
  (connects tr).filter fun c => !c.2.1

/-- The connects as they are meant: one that does not block, and one that does at most, behind an EAGAIN
of the other. -/
structure ConnectOnce (tr : List ConnectEvent) (s : ConnectState) : Prop where
  once : s.phase ≠ .fresh → (nonblocking tr).length = 1
  atMost : (blocking tr).length ≤ 1
  behind : ∀ c ∈ blocking tr, connects tr = [tryCall (some refusedErrno), c]

/-- The first try's F_GETFL finds a descriptor, and its connect is not answered EAGAIN on a socket that
came with O_NONBLOCK. -/
def MayBlock (s : ConnectState) : ConnectLabel → Prop
  | .execute os _ => os.getfl = none ∧ (s.nonblock = true → os.connect ≠ some refusedErrno)
  | _ => True

/-- What that leaves of the histories. -/
structure Spared (fl : Bool) (tr : List ConnectEvent) : Prop where
  getfl : ∀ e, .getfl (some e) ∉ tr
  connect : fl = true → tryCall (some refusedErrno) ∉ connects tr

section Spared
variable {fl : Bool} {s s' : ConnectState} {l : ConnectLabel} {tr ev : List ConnectEvent} {o : EngOp}
  {os : ConnectOs} {t : ConnectTurn}

theorem Spared.append (h : Spared fl tr) (h' : Spared fl ev) : Spared fl (tr ++ ev) := by
  constructor
  · intro e he
    exact (List.mem_append.mp he).elim (h.getfl e) (h'.getfl e)
  · intro hfl hmem
    rw [connects_append] at hmem
    exact (List.mem_append.mp hmem).elim (h.connect hfl) (h'.connect hfl)

theorem Spared.tryEvents (h : Spared fl t.calls) : Spared fl (s.tryEvents t s') := by
  constructor
  · intro e he
    have hcalls := h.getfl e
    unfold ConnectState.tryEvents ConnectState.completion at he
    cases hphase : s'.phase <;> simp [hphase, hcalls] at he
  · rw [ConnectState.connects_tryEvents]
    exact h.connect

theorem Spared.first (hnone : os.getfl = none) (hne : fl = true → os.connect ≠ some refusedErrno)
    (hset : os.setfl = true) (hback : os.setflBack = true) (hfresh : o.connectInProgress = false) :
    Spared fl (o.tryConnectCalls fl os).calls := by
  rcases EngOp.firstTry fl hfresh hset hback with ⟨e, htry⟩ | ⟨failed, turn, htry, -⟩
  · -- F_GETFL did not fail
    have hcalls := congrArg ConnectTurn.calls htry
    unfold EngOp.tryConnectCalls at hcalls
    rw [if_neg (by simp [hfresh]), hnone] at hcalls
    exact absurd hcalls (by simp only; split <;> (try split) <;> (try split) <;> simp)
  · rw [htry]
    have hanswer : failed = os.connect := by
      have hcalls := congrArg (fun t => connects t.calls) htry
      unfold EngOp.tryConnectCalls at hcalls
      rw [if_neg (by simp [hfresh]), hnone] at hcalls
      simp only at hcalls
      (repeat' split at hcalls) <;> simp_all [connects]
    constructor
    · simp
    · intro hfl hmem
      simp [connects] at hmem
      exact hne hfl (hanswer ▸ hmem.symm)

theorem Spared.later (hprogress : o.connectInProgress = true) : Spared fl (o.tryConnectCalls fl os).calls := by
  obtain ⟨turn, calls, htry, hnone, -⟩ := EngOp.laterTry fl os hprogress
  constructor
  · intro e he
    unfold EngOp.tryConnectCalls at he
    rw [if_pos hprogress] at he
    (repeat' split at he) <;> simp at he
  · rw [htry]
    simp [hnone]

end Spared

theorem connect_once {sqe : Sqe} {fl : Bool} {tr : List ConnectEvent} {s : ConnectState}
    (hr : Run connectMachine (fun s l => SetsFlags s l ∧ MayBlock s l) (.start sqe fl) tr s) :
    ConnectSound fl tr s ∧ ConnectOnce tr s := by
  have hsound := connect_sound (hr.mono fun _ _ h => h.1)
  have hspared : Spared fl tr := by
    apply hr.invariant fun tr _ => Spared fl tr
    · exact ⟨fun e he => absurd he List.not_mem_nil, fun _ he => absurd he List.not_mem_nil⟩
    intro tr s l s' hr h hl hs
    have hinv := ConnectState.Inv.run (hr.mono fun _ _ h => h.1)
    have hplace := hinv.place
    apply h.append
    cases l with
    | execute os armed =>
      obtain ⟨hfresh, -⟩ := Option.ite_none_right_eq_some.mp hs
      rw [ConnectState.At, hfresh] at hplace
      apply Spared.tryEvents
      rw [hinv.flag]
      exact .first hl.2.1 (fun hfl => hl.2.2 (hinv.flag.trans hfl)) hl.1.1 hl.1.2 hplace.2
    | ready os armed =>
      obtain ⟨hparked, -⟩ := Option.ite_none_right_eq_some.mp hs
      rw [ConnectState.At, hparked] at hplace
      apply Spared.tryEvents
      rw [hinv.flag]
      exact .later hplace.2.1
    | report err | cancel | work failed => constructor <;> simp [connectMachine, ConnectState.events, connects]
  refine ⟨hsound, ?_⟩
  rcases hsound.issued with ⟨rfl, hfresh⟩ | ⟨e, rfl⟩ | ⟨failed, honce⟩ | ⟨failed, hworker⟩
  · exact ⟨fun hphase => absurd hfresh hphase, Nat.zero_le 1, fun c hc => absurd hc List.not_mem_nil⟩
  · exact absurd List.mem_cons_self (hspared.getfl e)
  · have hblocking : blocking tr = [] := by simp [blocking, honce]
    refine ⟨fun _ => by simp [nonblocking, honce], by simp [hblocking], fun c hc => ?_⟩
    rw [hblocking] at hc
    exact absurd hc List.not_mem_nil
  · -- the worker's connect blocks, since the socket came without the flag
    have hfl : fl = false := by
      cases fl with
      | false => rfl
      | true => exact absurd (by simp [hworker]) (hspared.connect rfl)
    subst hfl
    have hblocking : blocking tr = [(true, false, failed)] := by simp [blocking, hworker]
    refine ⟨fun _ => by simp [nonblocking, hworker], by simp [hblocking], fun c hc => ?_⟩
    rw [hblocking, List.mem_singleton] at hc
    rw [hworker, hc]

/-- A connect that is answered EAGAIN and goes on in the worker, on a socket that blocks. -/
theorem connect_once_refused : ∃ tr s, (ConnectSound false tr s ∧ ConnectOnce tr s) ∧ s.phase = .ended 0 ∧
    blocking tr = [(true, false, none)] := by
  have h : Run connectMachine (fun s l => SetsFlags s l ∧ MayBlock s l) (.start { opcode := .connect } false)
    [] _ := .start
  have h := h.next (l := .execute { connect := some refusedErrno } true)
    (by exact ⟨⟨rfl, rfl⟩, rfl, fun hfl => by cases hfl⟩) rfl
  have h := h.next (l := .work none) (by exact ⟨trivial, trivial⟩) rfl
  exact ⟨_, _, connect_once h, rfl, rfl⟩

/-- A socket that came with O_NONBLOCK and whose peer has a full backlog: the worker's connect does not
block either, is answered like the first, and the op ends with that. -/
theorem worker_connects_again : ¬ ∀ (sqe : Sqe) (fl : Bool) (tr : List ConnectEvent) (s : ConnectState),
    Run connectMachine SetsFlags (.start sqe fl) tr s → ConnectOnce tr s := by
  intro h
  have hr : Run connectMachine SetsFlags (.start { opcode := .connect } true) [] _ := .start
  have hr := hr.next (l := .execute { connect := some refusedErrno } true) (by exact ⟨rfl, rfl⟩) rfl
  have hr := hr.next (l := .work (some refusedErrno)) (by exact trivial) rfl
  exact absurd ((h _ _ _ _ hr).once (fun hphase => by cases hphase)) (by decide)

end SlipstreamIO.Engine
