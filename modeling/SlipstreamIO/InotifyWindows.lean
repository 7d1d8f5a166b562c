import SlipstreamIO.InotifyKqueue

/-! The Windows arm: watches on directories, the chains of FILE_NOTIFY_INFORMATION that complete on a
watch's own directory and on the one above, and the question an idle read asks. -/
namespace SlipstreamIO.Inotify
open Runs

def enoent : Int := -2
def eacces : Int := -13

def fileActionAdded : UInt32 := 1
def fileActionRemoved : UInt32 := 2
def fileActionModified : UInt32 := 3
def fileActionRenamedOldName : UInt32 := 4
def fileActionRenamedNewName : UInt32 := 5

/-- A watch reads its own directory, and the one above for what happens to it. -/
structure WinWatch where
  wd : Int32
  path : Name
  only : Option Name
  selfName : Option Name
  mask : UInt32
  isDir : Bool
  dirs : List Name := []

/-- The completion key of the read on the directory above. -/
def upKey (wd : Int32) : Int32 := wd + 0x40000000

structure WinInst where
  nonblock : Bool := false
  nextWd : Int32 := 1
  nextCookie : UInt32 := 0
  openCookie : UInt32 := 0
  queue : Queue := {}
  watches : List WinWatch := []

/-- One FILE_NOTIFY_INFORMATION: its action, its name as UTF-8 (empty where it has none), whether the
name is a directory now, and whether there is memory to remember it. -/
structure Fni where
  action : UInt32
  name : Name
  pathIsDir : Bool := false
  memory : Bool := true

/-- emit_masked, on the fields of a watch it reads. -/
def WinWatch.say (w : WinWatch) (mask cookie : UInt32) (name : Option Name) (isdir : Bool) :
    List Record :=
  if mask &&& (w.mask ||| (inIgnored ||| inQOverflow ||| inUnmount)) = 0 then []
  else [{ wd := w.wd, mask := mask ||| (if isdir then inIsdir else 0), cookie, name }]

/-- DELETE_SELF, and then IGNORED. -/
def WinWatch.ends (w : WinWatch) : List Record :=
  w.say inDeleteSelf 0 none w.isDir ++ [{ wd := w.wd, mask := inIgnored }]

def rememberDir (dirs : List Name) (name : Name) (memory : Bool) : List Name :=
  if name ∈ dirs then dirs else if memory then dirs ++ [name] else dirs

def forgetDir (dirs : List Name) (name : Name) : List Name := dirs.erase name

/-- The two cookies of an instance. -/
structure Cookies where
  nextCookie : UInt32
  openCookie : UInt32

/-- Whether an entry is about a directory: a name that leaves is asked for among the directories the
watch knows, and another one is looked up, and remembered if it is one. -/
def learn (w : WinWatch) (e : Fni) : Bool × WinWatch :=
  if e.action = fileActionRemoved ∨ e.action = fileActionRenamedOldName then
    (decide (e.name ∈ w.dirs), w)
  else if e.pathIsDir then (true, { w with dirs := rememberDir w.dirs e.name e.memory })
  else (false, w)

/-- What an entry the watch hears about has to say. A watch on a file hears it without a name. -/
def act (c : Cookies) (w : WinWatch) (e : Fni) (isdir : Bool) : Cookies × WinWatch × List Record :=
  let name := if w.only ≠ none then none else some e.name
  if e.action = fileActionAdded then (c, w, w.say inCreate 0 name isdir)
  else if e.action = fileActionRemoved then
    (c, { w with dirs := forgetDir w.dirs e.name },
      if w.only ≠ none then w.ends else w.say inDelete 0 name isdir)
  else if e.action = fileActionModified then (c, w, w.say inModify 0 name isdir)
  else if e.action = fileActionRenamedOldName then
    (⟨c.nextCookie + 1, c.nextCookie + 1⟩, { w with dirs := forgetDir w.dirs e.name },
      if w.only ≠ none then w.say inMoveSelf 0 none w.isDir
      else w.say inMovedFrom (c.nextCookie + 1) name isdir)
  else if e.action = fileActionRenamedNewName then
    ({ c with openCookie := 0 }, w,
      if w.only = none then w.say inMovedTo c.openCookie name isdir else [])
  else (c, w, [])

/-- A name that is one, and not a path. -/
def Fni.named (e : Fni) : Bool := !(e.name.contains 92) && e.name != []

/-- Whether the watch hears about the name. -/
def WinWatch.hears (w : WinWatch) (e : Fni) : Bool := w.only == none || w.only == some e.name

/-- One entry of a watch's own chain. -/
def translateOne (c : Cookies) (w : WinWatch) (e : Fni) : Cookies × WinWatch × List Record :=
  if !e.named then (c, w, [])
  else
    let (isdir, w) := learn w e
    if !w.hears e then (c, w, []) else act c w e isdir

/-- One chain of FILE_NOTIFY_INFORMATION, as inotify records; an empty one is a read of no bytes. -/
def translateChain (c : Cookies) (w : WinWatch) : List Fni → Cookies × WinWatch × List Record
  | [] => (c, w, [])
  | e :: chain =>
    let (c, w, rs) := translateOne c w e
    let (c, w, rs') := translateChain c w chain
    (c, w, rs ++ rs')

/-- The ASCII letters of a byte, made small. -/
def toLower (b : UInt8) : UInt8 := if 65 ≤ b ∧ b ≤ 90 then b + 32 else b

/-- _stricmp is 0. -/
def stricmp (a b : Name) : Bool := a.map toLower == b.map toLower

/-- Whether the directory above speaks of this watch's own name. -/
def WinWatch.isSelf (w : WinWatch) (e : Fni) : Bool :=
  match w.selfName with
  | none => false
  | some self => stricmp e.name self

/-- What an entry of the chain above says of a watch. -/
def upOne (w : WinWatch) (e : Fni) : List Record :=
  if !w.isSelf e then []
  else if e.action = fileActionRemoved then w.ends
  else if e.action = fileActionRenamedOldName then w.say inMoveSelf 0 none w.isDir
  else if e.action = fileActionModified ∧ w.only ≠ none then w.say inModify 0 none false
  else []

/-- Whether it says the watch is gone. -/
def WinWatch.upGone (w : WinWatch) (e : Fni) : Bool := w.isSelf e && e.action == fileActionRemoved

/-- translate_up: whether the watch is gone, and the records. -/
def translateUp (w : WinWatch) (chain : List Fni) : Bool × List Record :=
  (chain.any w.upGone, chain.flatMap (upOne w))

/-- What the system answers an idle read about a watch: the handle's delete-pending flag, and whether
its path is a directory and its file is there. -/
structure Presence where
  deletePending : Option Bool := some false
  pathIsDir : Bool := true
  fileThere : Bool := true

def WinWatch.stillThere (w : WinWatch) (p : Presence) : Bool :=
  match w.only with
  | none =>
    match p.deletePending with
    | some pending => !pending && p.pathIsDir
    | none => p.pathIsDir
  | some _ => p.fileThere

/-- A completion: the key it came with, whether the read went well, its chain, and whether the watch's
directory is there. -/
structure Completion where
  key : Int32
  ok : Bool := true
  chain : List Fni := []
  pathIsDir : Bool := true

namespace WinInst

def say (queueMax : ℕ) (grown : ℕ → Bool) (inst : WinInst) (rs : List Record) :
    WinInst × List InstEvent :=
  ({ inst with queue := inst.queue.emits queueMax grown rs },
    (inst.queue.emitsEvents queueMax grown rs).map .queue)

def forget (inst : WinInst) (i : ℕ) : WinInst := { inst with watches := inst.watches.eraseIdx i }

/-- The loop of check_gone, from the last watch to the first. -/
def checkGone (inst : WinInst) (there : ℕ → Presence) : ℕ → WinInst × List Record
  | 0 => (inst, [])
  | i + 1 =>
    match inst.watches[i]? with
    | none => inst.checkGone there i
    | some w =>
      if w.stillThere (there i) then inst.checkGone there i
      else
        let (inst, rs) := (inst.forget i).checkGone there i
        (inst, w.ends ++ rs)

/-- One completion the port has. -/
def takeOne (inst : WinInst) (c : Completion) : WinInst × List Record :=
  match inst.watches.findIdx? fun w => w.wd == c.key || upKey w.wd == c.key with
  | none => (inst, [])
  | some i =>
    match inst.watches[i]? with
    | none => (inst, [])
    | some w =>
      if w.wd ≠ c.key then
        -- the read on the directory above
        let (gone, rs) := if c.ok then translateUp w c.chain else (true, [])
        if gone then (inst.forget i, rs) else (inst, rs)
      else if c.ok = false ∨ c.pathIsDir = false then (inst.forget i, w.ends)
      else
        let (cookies, w, rs) := translateChain ⟨inst.nextCookie, inst.openCookie⟩ w c.chain
        ({ inst with
            nextCookie := cookies.nextCookie, openCookie := cookies.openCookie
            watches := inst.watches.set i w }, rs)

/-- Every completion the port has right now. -/
def takeEvents (inst : WinInst) : List Completion → WinInst × List Record
  | [] => (inst, [])
  | c :: cs =>
    let (inst, rs) := inst.takeOne c
    let (inst, rs') := inst.takeEvents cs
    (inst, rs ++ rs')

/-- What a read does while the queue is empty: it takes what there is and, with the queue still empty,
asks after its watches. -/
structure Round where
  completions : List Completion := []
  there : ℕ → Presence := fun _ => {}
  grown : ℕ → Bool := fun _ => true
  grownIdle : ℕ → Bool := fun _ => true

def round (queueMax : ℕ) (inst : WinInst) (r : Round) : WinInst × List InstEvent :=
  let (inst, rs) := inst.takeEvents r.completions
  let (inst, told) := inst.say queueMax r.grown rs
  if inst.queue.qlen = 0 then
    let (inst, rs) := inst.checkGone r.there inst.watches.length
    let (inst, told') := inst.say queueMax r.grownIdle rs
    (inst, told ++ told')
  else (inst, told)

/-- The rounds of one read; `none` while it still waits. -/
def rounds (queueMax : ℕ) (inst : WinInst) : List Round → Option (WinInst × List InstEvent)
  | [] => if inst.queue.qlen = 0 then none else some (inst, [])
  | r :: rs =>
    if inst.queue.qlen ≠ 0 then some (inst, [])
    else
      let (inst, told) := inst.round queueMax r
      if inst.nonblock then some (inst, told)
      else
        match inst.rounds queueMax rs with
        | none => none
        | some (inst, told') => some (inst, told ++ told')

def read (queueMax : ℕ) (inst : WinInst) (len : ℕ) (rs : List Round) :
    Option (Int × WinInst × List InstEvent) :=
  if len < eventSize then some (einval, inst, [])
  else
    match inst.rounds queueMax rs with
    | none => none
    | some (inst, told) =>
      let (out, buf, q) := inst.queue.read len
      some (out, { inst with queue := q }, told ++ [.queue (.took buf)])

def rmWatch (queueMax : ℕ) (grown : ℕ → Bool) (inst : WinInst) (wd : Int32) :
    Int × WinInst × List InstEvent :=
  match inst.watches.findIdx? fun w => w.wd == wd with
  | none => (einval, inst, [])
  | some i =>
    let (inst, evs) := inst.say queueMax grown [{ wd, mask := inIgnored }]
    (0, inst.forget i, evs)

end WinInst

/-- Where a path has its last separator. -/
def lastCut (path : Name) : Option ℕ :=
  (path.reverse.findIdx? fun b => b == 92 || b == 47).map fun i => path.length - 1 - i

/-- What Windows answers an add_watch: the attributes (`none` for no such file, else whether it is a
directory), the directories found in it, and which handles and memory there are. -/
structure WinAnswers where
  attrs : Option Bool
  found : List Name := []
  dup : Bool := true
  dupOnly : Bool := true
  calloc : Bool := true
  handle : Bool := true
  port : Bool := true
  dupSelf : Bool := true
  armRead : Bool := true
  realloc : Bool := true

/-- The name a watch was asked for. -/
def WinWatch.whole (w : WinWatch) : Name :=
  (match w.only with
  | none => w.path
  | some only => w.path ++ 92 :: only).take 4095

/-- The name of a watched directory in the one above. -/
def leafOf (path : Name) : Option Name :=
  match lastCut (path.take 4095) with
  | none => none
  | some cut => if cut = 0 then none else some ((path.take 4095).drop (cut + 1))

namespace WinInst

/-- The second half of add_watch: the handles on a directory, and the watch. -/
def openWatch (inst : WinInst) (dirpath : Name) (only : Option Name) (mask : UInt32) (isDir : Bool)
    (os : WinAnswers) : Except Int WinWatch :=
  if os.calloc = false then .error enomem
  else if os.handle = false ∨ os.port = false then .error eacces
  else if os.armRead = false then .error eacces
  else if os.realloc = false then .error enomem
  else .ok {
    wd := inst.nextWd
    path := dirpath
    only
    selfName := if os.dupSelf then (match only with
      | some only => some only
      | none => leafOf dirpath) else none
    mask
    isDir
    dirs := if isDir then os.found.foldl (fun dirs name => rememberDir dirs name true) [] else [] }

/-- The watch on `path`: on it, if it is a directory, or on the directory that holds it. -/
def newWatch (inst : WinInst) (path : Name) (mask : UInt32) (isDir : Bool) (os : WinAnswers) :
    Except Int WinWatch :=
  if os.dup = false then .error enomem
  else if isDir then inst.openWatch path none mask isDir os
  else
    match lastCut path with
    | none => .error einval
    | some cut =>
      if os.dupOnly = false then .error enomem
      else inst.openWatch (path.take cut) (some (path.drop (cut + 1))) mask isDir os

def addWatch (inst : WinInst) (path : Option Name) (mask : UInt32) (os : WinAnswers) :
    Int × WinInst × List InstEvent :=
  match path with
  | none => (efault, inst, [])
  | some path =>
    if mask &&& inAllEvents = 0 then (einval, inst, [])
    else
      match os.attrs with
      | none => (enoent, inst, [])
      | some isDir =>
        match inst.watches.findIdx? fun w => stricmp w.whole path with
        | some i =>
          match inst.watches[i]? with
          | none => (einval, inst, [])
          | some w => (w.wd.toInt, { inst with watches := inst.watches.set i { w with mask } }, [])
        | none =>
          match inst.newWatch path mask isDir os with
          | .error e => (e, inst, [])
          | .ok w => (w.wd.toInt, { inst with watches := inst.watches ++ [w], nextWd := inst.nextWd + 1 },
              [.gave w.wd])

end WinInst

inductive WinLabel
  | addWatch (path : Option Name) (mask : UInt32) (os : WinAnswers)
  | rmWatch (wd : Int32) (grown : ℕ → Bool)
  | read (len : ℕ) (rounds : List WinInst.Round)

/-- The calls of an instance, whatever Windows answers them. -/
def winMachine (queueMax : ℕ) : Machine WinInst WinLabel InstEvent where
  step inst
    | .addWatch path mask os => some (inst.addWatch path mask os).2.1
    | .rmWatch wd grown => some (inst.rmWatch queueMax grown wd).2.1
    | .read len rs => (inst.read queueMax len rs).map fun r => r.2.1
  events inst
    | .addWatch path mask os => (inst.addWatch path mask os).2.2
    | .rmWatch wd grown => (inst.rmWatch queueMax grown wd).2.2
    | .read len rs => ((inst.read queueMax len rs).map fun r => r.2.2).getD []

end SlipstreamIO.Inotify
