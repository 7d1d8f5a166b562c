import SlipstreamIO.ParkedTable
import Mathlib.Data.List.Basic

/-! The readiness backends: epoll with the kernel's set of interest masks, kqueue with its knotes,
dispatch with its sources and the chain of descriptors they reported, and the floor, select. -/
namespace SlipstreamIO.Engine

open ThreadedList

/-! ### epoll -/

def epollIn : UInt32 := 1
def epollPri : UInt32 := 2
def epollOut : UInt32 := 4
def epollErr : UInt32 := 8
def epollHup : UInt32 := 16

def eexist : Int32 := 17

/-- The kernel's epoll set: a mask for each descriptor in it. -/
abbrev EpollSet := ℕ → Option UInt32

inductive EpollOp where
  | add
  | mod
  | del
  deriving DecidableEq

/-- `epoll_ctl`, with the errno it answers; `refused` is an error it has a reason of its own for. -/
def epollCtl (k : EpollSet) (op : EpollOp) (fd : ℕ) (events : UInt32) (refused : Option Int32) :
    EpollSet × Option Int32 :=
  match refused with
  | some errno => (k, some errno)
  | none =>
    match op, k fd with
    | .add, some _ => (k, some eexist)
    | .mod, none | .del, none => (k, some enoent)
    | .add, none | .mod, some _ => (Function.update k fd (some events), none)
    | .del, some _ => (Function.update k fd none, none)

def epEventsOf (waitEvents : UInt16) : UInt32 :=
  (if waitEvents &&& pollIn ≠ 0 then epollIn else 0) |||
    (if waitEvents &&& pollOut ≠ 0 then epollOut else 0) |||
    (if waitEvents &&& pollPri ≠ 0 then epollPri else 0)

/-- What the two calls of one arm are refused with. -/
structure EpollAnswers where
  first : Option Int32 := none
  other : Option Int32 := none
  deriving DecidableEq

/-- The registration part of `epoll_arm`; `e` is the entry before the op joined it. -/
def epollRegister (e : FdEntry UInt32) (o : EngOp) (a : EpollAnswers) (k : EpollSet) :
    Bool × UInt32 × EpollSet :=
  let want := epEventsOf o.waitEvents
  if !e.idle && e.reg ≠ 0 && e.reg &&& want = want then (true, e.reg, k)
  else
    -- whatever an idle entry said, it said it about another file
    let interest := if e.idle then 0 else e.reg
    let merged := interest ||| want
    let first : EpollOp := if interest = 0 then .add else .mod
    match epollCtl k first o.fdIndex merged a.first with
    | (k, none) => (true, merged, k)
    | (k, some errno) =>
      if errno = eexist ∨ errno = enoent then
        match epollCtl k (if first = .add then .mod else .add) o.fdIndex merged a.other with
        | (k, none) => (true, merged, k)
        | (k, some _) => (false, 0, k)
      else (false, 0, k)

/-- One event of an `epoll_wait`, and what the call that quiets it is refused with. -/
structure EpollEvent where
  fd : Int32
  events : UInt32
  refused : Option Int32 := none
  deriving DecidableEq

def EpollEvent.fdIndex (ev : EpollEvent) : ℕ := ev.fd.toInt.toNat

def EpollEvent.broken (ev : EpollEvent) : Bool := ev.events &&& (epollErr ||| epollHup) ≠ 0

def epQuiet (interest : UInt32) (k : EpollSet) (fd : ℕ) (unwanted : UInt32) (refused : Option Int32) :
    UInt32 × EpollSet :=
  let left := interest &&& ~~~unwanted
  if left = 0 then (0, (epollCtl k .del fd 0 refused).1)
  else
    match epollCtl k .mod fd left refused with
    | (k, none) => (left, k)
    | (k, some _) => (interest, k)

/-- The ops behind a side join `ready[]`, while it has room. -/
def gather (r : Ring) (h : Option Slot) (ready : List Slot) : List Slot :=
  ready ++ walk r.next (r.opPoolN - ready.length) h

/-- What fired on a side with nobody behind it. -/
def epUnwanted (e : FdEntry UInt32) (ev : EpollEvent) : UInt32 :=
  if ev.broken && e.idle then e.reg
  else
    (if ev.events &&& epollIn ≠ 0 ∧ e.inOps = none then epollIn ||| epollPri else 0) |||
      (if ev.events &&& epollOut ≠ 0 ∧ e.outOps = none then epollOut else 0)

/-- One turn of the loop over the events; `ctlR` is the ring's own control pipe, which is only drained. -/
def epollEvent (ctlR : Int32) (s : Parking UInt32 EpollSet) (ev : EpollEvent) (ready : List Slot) :
    Parking UInt32 EpollSet × List Slot :=
  if ev.fd = ctlR then (s, ready)
  else
    match s.st.slot 0 ev.fd true with
    | none => (s, ready)
    | some st =>
      let e := st.fds ev.fdIndex
      let ready := if ev.events &&& epollIn ≠ 0 ∨ ev.broken then gather s.ring e.inOps ready else ready
      let ready := if ev.events &&& epollOut ≠ 0 ∨ ev.broken then gather s.ring e.outOps ready else ready
      if epUnwanted e ev ≠ 0 then
        let (reg, k) := epQuiet e.reg s.env ev.fdIndex (epUnwanted e ev) ev.refused
        ({ s with st := st.set ev.fdIndex { e with reg := reg }, env := k }, ready)
      else ({ s with st := st }, ready)

def epollWaitReady (ctlR : Int32) (s : Parking UInt32 EpollSet) (evs : List EpollEvent) :
    Parking UInt32 EpollSet × List Slot :=
  evs.foldl (fun p ev => epollEvent ctlR p.1 ev p.2) (s, [])

def epollBackend (ctlR : Int32) : ReadyBackend UInt32 EpollSet EpollAnswers (List EpollEvent) where
  zero := 0
  register := epollRegister
  quit e _ := e.reg
  forgotten _ := 0
  forgetGrows := true
  closed k fd := Function.update k fd none
  hear s _ := s
  collect := epollWaitReady ctlR

def epollArm (ctlR : Int32) := (epollBackend ctlR).arm
def epollDisarm (ctlR : Int32) := (epollBackend ctlR).disarm
def epollForget (ctlR : Int32) := (epollBackend ctlR).forget

/-! ### kqueue -/

structure KqReg where
  armedRead : Bool := false
  armedWrite : Bool := false
  deriving DecidableEq, Repr

def KqReg.armed (reg : KqReg) : Side → Bool
  | .input => reg.armedRead
  | .output => reg.armedWrite

def KqReg.setArmed (reg : KqReg) (s : Side) (v : Bool) : KqReg :=
  match s with
  | .input => { reg with armedRead := v }
  | .output => { reg with armedWrite := v }

/-- The knotes the kernel holds: EVFILT_READ and EVFILT_WRITE of each descriptor. -/
abbrev KnoteSet := ℕ → Side → Bool

def KnoteSet.put (k : KnoteSet) (fd : ℕ) (s : Side) (v : Bool) : KnoteSet :=
  fun f t => if f = fd ∧ t = s then v else k f t

/-- Whether the calls of one arm succeed: the EV_ADD, the EV_DELETE after it failed, the second
EV_ADD. -/
structure KqAnswers where
  add : Bool := true
  delete : Bool := true
  again : Bool := true
  deriving DecidableEq

/-- The registration part of `kqueue_arm`. -/
def kqueueRegister (e : FdEntry KqReg) (o : EngOp) (a : KqAnswers) (k : KnoteSet) :
    Bool × KqReg × KnoteSet :=
  let reg := if e.idle then {} else e.reg
  if reg.armed o.side then (true, reg, k)
  else if a.add then (true, reg.setArmed o.side true, k.put o.fdIndex o.side true)
  else
    let k := if a.delete then k.put o.fdIndex o.side false else k
    if a.again then (true, reg.setArmed o.side true, k.put o.fdIndex o.side true)
    else (false, reg, k)

/-- One event of a `kevent`: the filter that fired, and the socket error EV_EOF brings along.
`deleted` is whether the EV_DELETE of a knote with nobody behind it succeeds. -/
structure KqEvent where
  fd : Int32
  filter : Side
  socketError : Int32 := 0
  deleted : Bool := true
  deriving DecidableEq

def KqEvent.fdIndex (ev : KqEvent) : ℕ := ev.fd.toInt.toNat

/-- The ops on a woken side keep the socket error. -/
def keepError (r : Ring) (err : Int32) (ops : List Slot) : Ring :=
  ops.foldl (fun r op => r.inVault (·.setOp op { r.opPool op with socketError := err })) r

def kqueueEvent (ctlR : Int32) (s : Parking KqReg KnoteSet) (ev : KqEvent) (ready : List Slot) :
    Parking KqReg KnoteSet × List Slot :=
  if ev.fd = ctlR ∧ ev.filter = .input then (s, ready)
  else
    match s.st.slot {} ev.fd true with
    | none => (s, ready)
    | some st =>
      let e := st.fds ev.fdIndex
      let woken := gather s.ring (e.side ev.filter) ready
      let r :=
        if ev.filter = .output ∧ ev.socketError ≠ 0 then
          keepError s.ring ev.socketError (woken.drop ready.length)
        else s.ring
      if woken.length = ready.length then
        ({ ring := r
           st := st.set ev.fdIndex { e with reg := e.reg.setArmed ev.filter false }
           env := if ev.deleted then s.env.put ev.fdIndex ev.filter false else s.env }, woken)
      else ({ s with ring := r, st := st }, woken)

def kqueueWait (ctlR : Int32) (s : Parking KqReg KnoteSet) (evs : List KqEvent) :
    Parking KqReg KnoteSet × List Slot :=
  evs.foldl (fun p ev => kqueueEvent ctlR p.1 ev p.2) (s, [])

def kqueueBackend (ctlR : Int32) : ReadyBackend KqReg KnoteSet KqAnswers (List KqEvent) where
  zero := {}
  register := kqueueRegister
  quit e _ := e.reg
  forgotten _ := {}
  forgetGrows := true
  closed k fd := (k.put fd .input false).put fd .output false
  hear s _ := s
  collect := kqueueWait ctlR

def kqueueArm (ctlR : Int32) := (kqueueBackend ctlR).arm
def kqueueDisarm (ctlR : Int32) := (kqueueBackend ctlR).disarm
def kqueueForget (ctlR : Int32) := (kqueueBackend ctlR).forget

/-! ### dispatch -/

/-- The two sources of a descriptor, the hits their handlers noted, and whether it is on the chain. -/
structure DspReg where
  rd : Bool := false
  wr : Bool := false
  rdHit : Bool := false
  wrHit : Bool := false
  queued : Bool := false
  deriving DecidableEq, Repr

def DspReg.source (reg : DspReg) : Side → Bool
  | .input => reg.rd
  | .output => reg.wr

def DspReg.setSource (reg : DspReg) (s : Side) (v : Bool) : DspReg :=
  match s with
  | .input => { reg with rd := v }
  | .output => { reg with wr := v }

def DspReg.hit (reg : DspReg) : Side → Bool
  | .input => reg.rdHit
  | .output => reg.wrHit

/-- The rest of `dsp_state`: the chain of ready descriptors, the blocking ops that came back, and the
door of the wait, `knocked` while its semaphore has something to give. -/
structure DspState where
  chain : List ℕ := []
  done : List (Slot × Int32) := []
  knocked : Bool := false
  sem : ℕ := 0
  deriving DecidableEq

/-- One signal for everything that waits to be collected. -/
def DspState.knock (d : DspState) : DspState :=
  if d.knocked then d else { d with knocked := true, sem := d.sem + 1 }

/-- After a collection the door closes, or what is left keeps its knock. -/
def DspState.shut (d : DspState) : DspState :=
  if d.chain = [] ∧ d.done = [] then { d with knocked := false } else { d with sem := d.sem + 1 }

/-- The registration part of `dsp_arm`: the first waiter of a side starts its source. -/
def dspRegister (e : FdEntry DspReg) (o : EngOp) (started : Bool) (d : DspState) :
    Bool × DspReg × DspState :=
  if e.side o.side ≠ none then (true, e.reg, d)
  else (started, e.reg.setSource o.side started, d)

/-- The last waiter leaving takes the source with it. -/
def dspQuit (e : FdEntry DspReg) (s : Side) : DspReg :=
  if e.side s = none && e.reg.source s then e.reg.setSource s false else e.reg

/-- What happens on the queues of the backend: a source's handler runs, a blocking op comes back,
somebody pokes. -/
inductive DspNews where
  | report (fd : ℕ) (side : Side)
  | done (op : Slot) (res : Int32)
  | poke
  deriving DecidableEq

def DspReg.setHit (reg : DspReg) (s : Side) : DspReg :=
  match s with
  | .input => { reg with rdHit := true }
  | .output => { reg with wrHit := true }

def dspReport (s : Parking DspReg DspState) (fd : ℕ) (side : Side) : Parking DspReg DspState :=
  if fd < s.st.n then
    let e := s.st.fds fd
    { s with
      st := s.st.set fd { e with reg := { e.reg.setHit side with queued := true } }
      env := (if e.reg.queued then s.env else { s.env with chain := fd :: s.env.chain }).knock }
  else s

def dspDone (s : Parking DspReg DspState) (op : Slot) (res : Int32) : Parking DspReg DspState :=
  { s with env := (if s.env.done.length < s.ring.opPoolN then
      { s.env with done := s.env.done ++ [(op, res)] } else s.env).knock }

def dspPoke (s : Parking DspReg DspState) : Parking DspReg DspState := { s with env := s.env.knock }

def dspHear (s : Parking DspReg DspState) (news : List DspNews) : Parking DspReg DspState :=
  news.foldl (fun s n => match n with
    | .report fd side => dspReport s fd side
    | .done op res => dspDone s op res
    | .poke => dspPoke s) s

/-- The waiters behind the sides of a descriptor that were hit. -/
def dspBehind (r : Ring) (e : FdEntry DspReg) : List Slot :=
  (if e.reg.rdHit then walk r.next r.opPoolN e.inOps else []) ++
    if e.reg.wrHit then walk r.next r.opPoolN e.outOps else []

/-- The walk of the chain in `dsp_wait`, with no more than the pool's ops in `ready[]`. -/
def dspChain (s : Parking DspReg DspState) : List ℕ → List Slot → Parking DspReg DspState × List Slot
  | [], ready => ({ s with env := { s.env with chain := [] } }, ready)
  | fd :: chain, ready =>
    let e := s.st.fds fd
    if s.ring.opPoolN < ready.length + (dspBehind s.ring e).length then
      ({ s with env := { s.env with chain := fd :: chain } }, ready)
    else
      let reg := { e.reg with rdHit := false, wrHit := false, queued := false }
      dspChain { s with st := s.st.set fd { e with reg := reg } } chain
        (ready ++ dspBehind s.ring e)

/-- What `dsp_wait` collects: the blocking ops that came back, last one first, and the ops of the chain
if there is room for one more in `out`. -/
def dspCollect (s : Parking DspReg DspState) : Parking DspReg DspState × List (Slot × Int32) × List Slot :=
  let out := s.env.done.reverse
  let s := { s with env := { s.env with done := [] } }
  let (s, ready) :=
    if out.length < s.ring.opPoolN then dspChain s s.env.chain [] else (s, [])
  ({ s with env := s.env.shut }, out, ready)

/-- The wait, with what it hears before it collects; no signal is the deadline. -/
def dspWait (s : Parking DspReg DspState) (news : List DspNews) :
    Parking DspReg DspState × List (Slot × Int32) × List Slot :=
  let s := dspHear s news
  if s.env.sem = 0 then (s, [], [])
  else dspCollect { s with env := { s.env with sem := s.env.sem - 1 } }

def dispatchBackend : ReadyBackend DspReg DspState Bool (List DspNews) where
  zero := {}
  register := dspRegister
  quit := dspQuit
  forgotten reg := { queued := reg.queued }
  forgetGrows := false
  closed d _ := d
  hear := dspHear
  collect s news := ((dspWait s news).1, (dspWait s news).2.2)

def dspArm := dispatchBackend.arm
def dspDisarm := dispatchBackend.disarm
def dspForget := dispatchBackend.forget

/-! ### select -/

/-- The three sets select answers in. -/
structure FdSets where
  rd : ℕ → Bool
  wr : ℕ → Bool
  ex : ℕ → Bool

def fdSetsize : ℕ := 1024

/-- Whether `select_wait` puts an op into `ready[]`. -/
def selectWoke (o : EngOp) (sets : FdSets) : Bool :=
  (o.waitEvents &&& (pollIn ||| pollPri) ≠ 0 && sets.rd o.fdIndex) ||
    (o.waitEvents &&& pollOut ≠ 0 && sets.wr o.fdIndex) || sets.ex o.fdIndex

/-- `ready[]` as `select_wait` fills it. -/
def selectReady (r : Ring) (sets : FdSets) : List Slot :=
  r.waiting.filter (fun op =>
    0 ≤ (r.opPool op).sqe.fd && (r.opPool op).fdIndex < fdSetsize && selectWoke (r.opPool op) sets)

end SlipstreamIO.Engine
