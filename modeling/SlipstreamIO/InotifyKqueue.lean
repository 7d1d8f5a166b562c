import SlipstreamIO.InotifyDiff

/-! The kqueue arm: watches on open descriptors, the notes kqueue has for them, and the calls of an
instance. -/
namespace SlipstreamIO.Inotify
open Runs

def noteDelete : UInt32 := 0x00000001
def noteWrite : UInt32 := 0x00000002
def noteExtend : UInt32 := 0x00000004
def noteAttrib : UInt32 := 0x00000008
def noteLink : UInt32 := 0x00000010
def noteRename : UInt32 := 0x00000020
def noteRevoke : UInt32 := 0x00000040

/-- What a run of an instance shows: what happens to its queue, and the wds it gives. -/
inductive InstEvent
  | queue (e : QueueEvent)
  | gave (wd : Int32)
  deriving DecidableEq

structure Inst where
  nextWd : Int32 := 1
  nextCookie : UInt32 := 0
  queue : Queue := {}
  watches : List Watch := []

/-- What a scan finds: the directory, and the memory there is. -/
structure Look where
  dir : Option Dir := none
  grown : ℕ → Bool := fun _ => true
  named : ℕ → Bool := fun _ => true

def Look.scan (l : Look) (path : Name) : Scanned := Inotify.scan path l.grown l.named l.dir

/-- A struct kevent, and what its directory holds when it is translated. -/
structure KEvent where
  ident : Int32
  fflags : UInt32
  look : Look := {}

namespace Inst

/-- Appends what a step has to say. -/
def say (queueMax : ℕ) (grown : ℕ → Bool) (inst : Inst) (rs : List Record) : Inst × List InstEvent :=
  ({ inst with queue := inst.queue.emits queueMax grown rs },
    (inst.queue.emitsEvents queueMax grown rs).map .queue)

def forget (inst : Inst) (i : ℕ) : Inst := { inst with watches := inst.watches.eraseIdx i }

/-- What a note says of its watch, but for its going; a directory is looked at again. -/
def noted (inst : Inst) (i : ℕ) (w : Watch) (ke : KEvent) : Inst × List Record :=
  let (inst, changed) :=
    if ke.fflags &&& (noteWrite ||| noteExtend ||| noteLink) ≠ 0 then
      if w.isDir then
        let (w, cookie, rs) := directoryChanged w (ke.look.scan w.path) inst.nextCookie
        ({ inst with watches := inst.watches.set i w, nextCookie := cookie }, rs)
      else (inst, emitMasked w inModify 0 none false)
    else (inst, [])
  let attrib := if ke.fflags &&& noteAttrib ≠ 0 then emitMasked w inAttrib 0 none w.isDir else []
  let rename := if ke.fflags &&& noteRename ≠ 0 then emitMasked w inMoveSelf 0 none w.isDir else []
  (inst, changed ++ attrib ++ rename)

/-- One kqueue event, as inotify records. -/
def translate (inst : Inst) (ke : KEvent) : Inst × List Record :=
  match inst.watches.findIdx? fun w => w.fd == ke.ident with
  | none => (inst, [])
  | some i =>
    match inst.watches[i]? with
    | none => (inst, [])
    | some w =>
      let (inst, rs) := inst.noted i w ke
      if ke.fflags &&& (noteDelete ||| noteRevoke) ≠ 0 then
        (inst.forget i, rs ++ emitMasked w inDeleteSelf 0 none w.isDir ++
          [{ wd := w.wd, mask := inIgnored }])
      else (inst, rs)

/-- Every event the kernel has for this instance right now. -/
def takeEvents (inst : Inst) : List KEvent → Inst × List Record
  | [] => (inst, [])
  | ke :: evs =>
    let (inst, rs) := inst.translate ke
    let (inst, rs') := inst.takeEvents evs
    (inst, rs ++ rs')

end Inst

/-- What the system answers an add_watch: stat's mode or errno, the descriptor or errno of open,
whether the path can be copied, the directory, kevent's errno and the memory for the watch. -/
structure AddAnswers where
  stat : Except Int UInt32
  wfd : Except Int Int32
  strdup : Bool := true
  look : Look := {}
  kevent : Option Int := none
  realloc : Bool := true

namespace Inst

def addWatch (inst : Inst) (path : Option Name) (mask : UInt32) (os : AddAnswers) :
    Int × Inst × List InstEvent :=
  match path with
  | none => (efault, inst, [])
  | some path =>
    if mask &&& inAllEvents = 0 then (einval, inst, [])
    else
      match os.stat with
      | .error e => (-e, inst, [])
      | .ok mode =>
        match inst.watches.findIdx? fun w => w.path == path with
        | some i =>
          match inst.watches[i]? with
          | none => (einval, inst, [])
          | some w =>
            -- a path already watched answers the same wd and takes the new mask
            (w.wd.toInt, { inst with watches := inst.watches.set i { w with mask } }, [])
        | none =>
          match os.wfd with
          | .error e => (-e, inst, [])
          | .ok wfd =>
            if os.strdup = false then (enomem, inst, [])
            else
              let w : Watch :=
                { wd := inst.nextWd, fd := wfd, path, mask, isDir := sIsdir mode
                  kids := if sIsdir mode then (os.look.scan path).fresh else [] }
              match os.kevent with
              | some e => (-e, inst, [])
              | none =>
                if os.realloc = false then (enomem, inst, [])
                else (w.wd.toInt, { inst with watches := inst.watches ++ [w], nextWd := inst.nextWd + 1 },
                  [.gave w.wd])

def rmWatch (queueMax : ℕ) (grown : ℕ → Bool) (inst : Inst) (wd : Int32) :
    Int × Inst × List InstEvent :=
  match inst.watches.findIdx? fun w => w.wd == wd with
  | none => (einval, inst, [])
  | some i =>
    let (inst, evs) := inst.say queueMax grown [{ wd, mask := inIgnored }]
    (0, inst.forget i, evs)

/-- slipstream_inotify_read: an empty queue takes what the kernel has, in the order it comes. -/
def read (queueMax : ℕ) (grown : ℕ → Bool) (inst : Inst) (len : ℕ) (evs : List KEvent) :
    Int × Inst × List InstEvent :=
  if len < eventSize then (einval, inst, [])
  else
    let (inst, told) :=
      if inst.queue.qlen = 0 then
        let (inst, rs) := inst.takeEvents evs
        inst.say queueMax grown rs
      else (inst, [])
    let (out, buf, q) := inst.queue.read len
    (out, { inst with queue := q }, told ++ [.queue (.took buf)])

end Inst

inductive KqLabel
  | addWatch (path : Option Name) (mask : UInt32) (os : AddAnswers)
  | rmWatch (wd : Int32) (grown : ℕ → Bool)
  | read (len : ℕ) (evs : List KEvent) (grown : ℕ → Bool)

/-- The calls of an instance, whatever the system answers them. -/
def kqMachine (queueMax : ℕ) : Machine Inst KqLabel InstEvent where
  step inst
    | .addWatch path mask os => some (inst.addWatch path mask os).2.1
    | .rmWatch wd grown => some (inst.rmWatch queueMax grown wd).2.1
    | .read len evs grown => some (inst.read queueMax grown len evs).2.1
  events inst
    | .addWatch path mask os => (inst.addWatch path mask os).2.2
    | .rmWatch wd grown => (inst.rmWatch queueMax grown wd).2.2
    | .read len evs grown => (inst.read queueMax grown len evs).2.2

end SlipstreamIO.Inotify
