import SlipstreamIO.Enter

/-! What the engine is for, in the numbers of the accepted SQEs: a queue of chains run one op at a
time, with one verdict for the rest of the chain at the front and at most one linked op pending. -/
namespace SlipstreamIO.Engine

open Runs

/-- Where an accepted SQE is. -/
inductive Stage where
  | unborn
  | queued
  | running
  | posting (res : Int32)
  | held
  | off (res : Int32)
  | returned (res : Int32)
  | closed
  deriving DecidableEq

def Stage.isLive : Stage → Bool
  | .unborn | .closed => false
  | _ => true

/-- The abstract ring. `current` is the op `process_queue` has in hand, `took` whether it is a cancel
that took an op; `blocking` is the linked op that is pending, `ticket` that it finished off the
engine thread, with how it ended its chain. -/
structure Chains where
  n : ℕ := 0
  sqe : ℕ → Sqe := fun _ => {}
  stage : ℕ → Stage := fun _ => .unborn
  queue : List ℕ := []
  failed : ChainFailed := .holds
  current : Option ℕ := none
  took : Bool := false
  blocking : Option ℕ := none
  ticket : Option (ℕ × ChainFailed) := none

namespace Chains

def setStage (a : Chains) (i : ℕ) (st : Stage) : Chains :=
  { a with stage := fun j => if j = i then st else a.stage j }

def linked (a : Chains) (i : ℕ) : Bool := (a.sqe i).flags.ioLink

/-- How a failing member leaves the rest of its chain. -/
def verdict (a : Chains) (i : ℕ) : ChainFailed :=
  if (a.sqe i).flags.cqeSkipSuccess then .cancelsQuietly else .cancels

/-- The chain's standing after `i` ended with `res`. -/
def failedAfter (a : Chains) (i : ℕ) (res : Int32) : ChainFailed :=
  if res < 0 ∧ a.linked i then a.verdict i else a.failed

/-- What `i` gives when it finishes with `res`. -/
def Completion (a : Chains) (i : ℕ) (res : Int32) (g : Option Cqe) : Prop :=
  if 0 ≤ res ∧ (a.sqe i).flags.cqeSkipSuccess then g = none
  else ∃ flags, g = some ⟨(a.sqe i).userData, res, flags⟩

@[simp] theorem setStage_n (a : Chains) (i : ℕ) (st : Stage) : (a.setStage i st).n = a.n := rfl
@[simp] theorem setStage_sqe (a : Chains) (i : ℕ) (st : Stage) :
    (a.setStage i st).sqe = a.sqe := rfl
@[simp] theorem setStage_queue (a : Chains) (i : ℕ) (st : Stage) :
    (a.setStage i st).queue = a.queue := rfl
@[simp] theorem setStage_current (a : Chains) (i : ℕ) (st : Stage) :
    (a.setStage i st).current = a.current := rfl
@[simp] theorem setStage_stage (a : Chains) (i j : ℕ) (st : Stage) :
    (a.setStage i st).stage j = if j = i then st else a.stage j := rfl

end Chains

/-- What can happen to the abstract ring. -/
inductive Act where
  | accept (sqe : Sqe)
  | cancel
  | fail (res : Int32)
  | message (res : Int32)
  | begin
  | answer (res : Int32)
  | post (cqe : Option Cqe)
  | hold
  | pend
  | handBack (i : ℕ) (res : Int32)
  | complete (i : ℕ) (cqe : Option Cqe)
  | finish (i : ℕ) (res : Int32)
  | offPost (i : ℕ) (cqe : Option Cqe)
  | settle
  | takeHeld (t : ℕ) (cqe : Option Cqe) (sc st : Sqe)
  | takeQueued (t : ℕ) (cqe : Option Cqe) (sc st : Sqe)

open Chains in
/-- The steps of the abstract ring, with the events they report. -/
inductive Act.Step (a : Chains) : Act → List Event → Chains → Prop
  | accept (sqe : Sqe) : Step a (.accept sqe) [.accept a.n sqe]
      { a with
        n := a.n + 1
        sqe := fun j => if j = a.n then sqe else a.sqe j
        stage := fun j => if j = a.n then .queued else a.stage j
        queue := a.queue ++ [a.n] }
  | cancelLoud {i : ℕ} {rest : List ℕ} (hc : a.current = none) (hb : a.blocking = none)
      (hq : a.queue = i :: rest) (hf : a.failed = .cancels) :
      Step a .cancel [.cancel i false]
        { a.setStage i (.posting (-ecanceled)) with
          queue := rest, current := some i, took := false
          failed := if a.linked i then a.failed else .holds }
  | cancelQuiet {i : ℕ} {rest : List ℕ} (hc : a.current = none) (hb : a.blocking = none)
      (hq : a.queue = i :: rest) (hf : a.failed = .cancelsQuietly) :
      Step a .cancel [.cancel i true, .give i none]
        { a.setStage i .closed with
          queue := rest, failed := if a.linked i then a.failed else .holds }
  | fail {i : ℕ} {rest : List ℕ} {res : Int32} (hc : a.current = none) (hb : a.blocking = none)
      (hq : a.queue = i :: rest) (hf : a.failed = .holds) (hres : res < 0) :
      Step a (.fail res) [.start i, .result i res]
        { a.setStage i (.posting res) with
          queue := rest, current := some i, took := false, failed := a.failedAfter i res }
  | message {i : ℕ} {rest : List ℕ} {res : Int32} (hc : a.current = none) (hb : a.blocking = none)
      (hq : a.queue = i :: rest) (hf : a.failed = .holds) (ho : (a.sqe i).opcode = .msgRing) :
      Step a (.message res) [.start i, .result i res]
        { a.setStage i (.posting res) with queue := rest, current := some i, took := false }
  | begin {i : ℕ} {rest : List ℕ} (hc : a.current = none) (hb : a.blocking = none)
      (hq : a.queue = i :: rest) (hf : a.failed = .holds) :
      Step a .begin [.start i]
        { a.setStage i .running with queue := rest, current := some i, took := false }
  | answer {i : ℕ} {res : Int32} (hc : a.current = some i) (hs : a.stage i = .running) :
      Step a (.answer res) [.result i res]
        { a.setStage i (.posting res) with failed := a.failedAfter i res }
  | post {i : ℕ} {res : Int32} {g : Option Cqe} (hc : a.current = some i)
      (hs : a.stage i = .posting res) (hg : a.Completion i res g) :
      Step a (.post g) [.give i g] { a.setStage i .closed with current := none }
  | hold {i : ℕ} (hc : a.current = some i) (hs : a.stage i = .running) :
      Step a .hold [] { a.setStage i .held with
        blocking := if a.linked i then some i else a.blocking }
  | pend {i : ℕ} (hc : a.current = some i) (hs : a.stage i ≠ .running)
      (hp : ∀ res, a.stage i ≠ .posting res) : Step a .pend [] { a with current := none }
  | handBack {i : ℕ} {res : Int32} (hc : a.current = none) (hs : a.stage i = .held) :
      Step a (.handBack i res) [.result i res] (a.setStage i (.returned res))
  | complete {i : ℕ} {res : Int32} {g : Option Cqe} (hc : a.current = none)
      (hs : a.stage i = .returned res) (hg : a.Completion i res g) :
      Step a (.complete i g) [.give i g]
        { a.setStage i .closed with
          blocking := if a.blocking = some i then none else a.blocking
          failed := if a.blocking = some i then if res < 0 then a.verdict i else a.failed
            else a.failedAfter i res }
  | finish {i : ℕ} {res : Int32} (hs : a.stage i = .held) :
      Step a (.finish i res) [.result i res]
        { a.setStage i (.off res) with
          ticket := if a.linked i then some (i, if res < 0 then a.verdict i else .holds)
            else a.ticket }
  | offPost {i : ℕ} {res : Int32} {g : Option Cqe} (hs : a.stage i = .off res)
      (hg : a.Completion i res g) :
      Step a (.offPost i g) [.give i g] (a.setStage i .closed)
  | settle {i : ℕ} {v : ChainFailed} (hc : a.current = none) (ht : a.ticket = some (i, v))
      (hb : a.blocking = some i) :
      Step a .settle []
        { a with blocking := none, ticket := none, failed := if v = .holds then a.failed else v }
  | takeHeld {c t : ℕ} {g : Option Cqe} {sc st : Sqe} (hc : a.current = some c)
      (hr : a.stage c = .running) (hs : a.stage t = .held) (hg : a.Completion t (-ecanceled) g) :
      Step a (.takeHeld t g sc st) [.take c t sc st, .give t g]
        { a.setStage t .closed with
          took := true
          blocking := if a.blocking = some t then none else a.blocking
          failed := if a.blocking = some t ∨ a.linked t then a.verdict t else a.failed }
  | takeQueued {c t : ℕ} {pre suf : List ℕ} {g : Option Cqe} {sc st : Sqe}
      (hc : a.current = some c) (hr : a.stage c = .running) (hq : a.queue = pre ++ t :: suf)
      (hg : a.Completion t (-ecanceled) g) :
      Step a (.takeQueued t g sc st) [.take c t sc st, .give t g]
        { a.setStage t .closed with
          queue := pre ++ suf, took := true
          failed := if a.linked t then a.verdict t else a.failed }

/-- A step whose act meets `C`. -/
def ChainStep (C : Chains → Act → Prop) (a : Chains) (ev : List Event) (a' : Chains) : Prop :=
  ∃ act, C a act ∧ act.Step a ev a'

/-- The histories of the abstract ring under `C`. -/
abbrev History (C : Chains → Act → Prop) : List Event → Chains → Prop := Path (ChainStep C) {}

end SlipstreamIO.Engine
