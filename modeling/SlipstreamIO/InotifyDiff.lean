import SlipstreamIO.InotifyQueue

/-! What a directory held and what it holds: the entries of a watch, the scan that takes them, and the
records that tell the difference. The functions of a watch give the arguments of their emit calls, in
order: what they do does not depend on the queue. -/
namespace SlipstreamIO.Inotify

abbrev Name := List UInt8

instance instLawfulBEqName : LawfulBEq Name := inferInstanceAs (LawfulBEq (List UInt8))

/-- One name in a watched directory, as the last look found it. -/
structure Entry where
  name : Name
  ino : UInt64
  mtimeSec : Int64
  mtimeNsec : Int64
  size : UInt64
  mode : UInt32
  seen : Bool := false
  deriving DecidableEq

structure Watch where
  wd : Int32
  fd : Int32
  path : Name
  mask : UInt32
  isDir : Bool
  kids : List Entry
  deriving DecidableEq

/-- What a watch asked for, plus the three it gets whether it asked or not. -/
def emitMasked (w : Watch) (mask cookie : UInt32) (name : Option Name) (isdir : Bool) : List Record :=
  if mask &&& (w.mask ||| (inIgnored ||| inQOverflow ||| inUnmount)) = 0 then []
  else [{ wd := w.wd, mask := mask ||| (if isdir then inIsdir else 0), cookie, name }]

/-- S_ISDIR. -/
def sIsdir (mode : UInt32) : Bool := mode &&& 0o170000 == 0o040000

/-- The fields of lstat's answer that are kept. -/
structure Stat where
  ino : UInt64
  mtimeSec : Int64
  mtimeNsec : Int64
  size : UInt64
  mode : UInt32

def fill (name : Name) (st : Stat) : Entry :=
  { name, ino := st.ino, mtimeSec := st.mtimeSec, mtimeNsec := st.mtimeNsec, size := st.size,
    mode := st.mode }

/-- What readdir gives, each name with lstat's answer. -/
abbrev Dir := List (Name × Option Stat)

/-- The array scan makes: whether there is one, and the entries in it. -/
structure Scanned where
  alloc : Bool := false
  fresh : List Entry := []

/-- The loop of scan. `grown n` and `named n` say whether there is memory for a larger array and for
the name when `n` entries are in it. -/
def scanLoop (path : Name) (grown named : ℕ → Bool) : Dir → ℕ → Scanned → Scanned
  | [], _, s => s
  | (name, st) :: d, cap, s =>
    if name = [46] ∨ name = [46, 46] then scanLoop path grown named d cap s
    else if 4096 ≤ path.length + 1 + name.length then scanLoop path grown named d cap s
    else
      match st with
      | none => scanLoop path grown named d cap s
      | some st =>
        let n := s.fresh.length
        if n = cap ∧ grown n = false then s
        else if named n = false then { s with alloc := true }
        else
          scanLoop path grown named d (if n = cap then (if cap = 0 then 16 else cap * 2) else cap)
            { alloc := true, fresh := s.fresh ++ [fill name st] }

/-- What a directory holds now; no array if opendir fails. -/
def scan (path : Name) (grown named : ℕ → Bool) : Option Dir → Scanned
  | none => {}
  | some d => scanLoop path grown named d 0 {}

def kidByName (kids : List Entry) (name : Name) : Option ℕ := kids.findIdx? fun e => e.name == name

/-- What has become of a name that was there before: another file has it now, or its file changed. -/
def compareKid (w : Watch) (had fresh : Entry) : List Record :=
  if had.ino ≠ fresh.ino then
    emitMasked w inDelete 0 (some had.name) (sIsdir had.mode) ++
      emitMasked w inCreate 0 (some fresh.name) (sIsdir fresh.mode)
  else if had.mtimeSec ≠ fresh.mtimeSec ∨ had.mtimeNsec ≠ fresh.mtimeNsec ∨ had.size ≠ fresh.size then
    emitMasked w inModify 0 (some fresh.name) (sIsdir fresh.mode)
  else if had.mode ≠ fresh.mode then emitMasked w inAttrib 0 (some fresh.name) (sIsdir fresh.mode)
  else []

/-- The first loop of directory_changed: the names on both sides. -/
def sameNames (w : Watch) : List Entry → List Entry → List Entry × List Entry × List Record
  | kids, [] => (kids, [], [])
  | kids, f :: fs =>
    match kidByName kids f.name with
    | none =>
      let (kids, fs, rs) := sameNames w kids fs
      (kids, f :: fs, rs)
    | some i =>
      match kids[i]? with
      | none => (kids, f :: fs, [])
      | some had =>
        let (kids, fs, rs) := sameNames w (kids.set i { had with seen := true }) fs
        (kids, { f with seen := true } :: fs, compareKid w had f ++ rs)

/-- The second loop: a name that was there and is not is either a delete, or the leaving half of a
rename inside this directory, and the inode says which. -/
def leavers (w : Watch) : List Entry → List Entry → UInt32 → List Entry × UInt32 × List Record
  | [], fresh, cookie => (fresh, cookie, [])
  | old :: olds, fresh, cookie =>
    if old.seen then leavers w olds fresh cookie
    else
      match fresh.findIdx? fun f => !f.seen && f.ino == old.ino with
      | none =>
        let (fresh, cookie, rs) := leavers w olds fresh cookie
        (fresh, cookie, emitMasked w inDelete 0 (some old.name) (sIsdir old.mode) ++ rs)
      | some k =>
        match fresh[k]? with
        | none => (fresh, cookie, [])
        | some landed =>
          let isdir := sIsdir old.mode
          let (fresh, cookie', rs) :=
            leavers w olds (fresh.set k { landed with seen := true }) (cookie + 1)
          (fresh, cookie', emitMasked w inMovedFrom (cookie + 1) (some old.name) isdir ++
            emitMasked w inMovedTo (cookie + 1) (some landed.name) isdir ++ rs)

/-- The third loop: the names that are new. -/
def arrivals (w : Watch) (fresh : List Entry) : List Record :=
  fresh.flatMap fun f =>
    if f.seen then [] else emitMasked w inCreate 0 (some f.name) (sIsdir f.mode)

/-- What changed is the difference between what the directory holds and what it held: the watch, the
instance's next_cookie, and the emit calls. -/
def directoryChanged (w : Watch) (scanned : Scanned) (nextCookie : UInt32) :
    Watch × UInt32 × List Record :=
  if scanned.alloc = false ∧ scanned.fresh.length = 0 then (w, nextCookie, [])
  else
    let kids := w.kids.map fun e => { e with seen := false }
    let (kids, fresh, same) := sameNames w kids scanned.fresh
    let (fresh, cookie, left) := leavers w kids fresh nextCookie
    ({ w with kids := fresh }, cookie, same ++ left ++ arrivals w fresh)

end SlipstreamIO.Inotify
