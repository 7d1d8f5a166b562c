import SlipstreamIO.Interleaved
import SlipstreamIO.EngineState

/-! Temporary files: the programs of slipstream_tmpfile.c as the system calls they make, and the part of
the kernel that these calls act on. -/
namespace SlipstreamIO.Tmpfile
open Engine Runs Interleaved

def enosys : Int32 := 38
def eisdir : Int32 := 21
def eexist : Int32 := 17
def enametoolong : Int32 := 36

/-- A path, as its bytes in front of the NUL. -/
abbrev FilePath := List UInt8

def bytesOf (s : String) : FilePath := s.toList.map fun c => c.toNat.toUInt8

/-- Ghost: what made the file. -/
inductive Arm where
  | outside
  | anon
  | mkstemp
  deriving DecidableEq, Repr

/-- `linkable` is that the file was made without a name, and never had one. -/
structure Inode where
  mode : BitVec 12
  linkable : Bool
  arm : Arm
  deriving DecidableEq, Repr

/-- `held` is ghost: a caller has the descriptor, it is not inside a call any more. -/
structure Desc where
  ino : ℕ
  cloexec : Bool
  held : Bool
  deriving DecidableEq, Repr

/-- The names of the file system and the descriptors of the process. `made` is the number of the next file;
`seen` is ghost, the files that were opened by a name. -/
structure Kernel where
  entries : List (FilePath × ℕ) := []
  inodes : ℕ → Inode
  fds : ℕ → Option Desc := fun _ => none
  made : ℕ := 0
  umask : BitVec 12 := 0o022
  seen : ℕ → Bool := fun _ => false

inductive SysCall where
  /-- open(2) with `O_TMPFILE | O_RDWR | O_CLOEXEC`. -/
  | tmpfile (dir : FilePath) (mode : BitVec 12)
  | mkstemp (template : FilePath)
  | fchmod (fd : ℕ) (mode : BitVec 12)
  | getfd (fd : ℕ)
  | setfd (fd : ℕ) (flags : UInt32)
  | unlink (path : FilePath)
  | close (fd : ℕ)
  /-- linkat(2) of "/proc/self/fd/N" with `AT_SYMLINK_FOLLOW`. -/
  | linkat (fd : ℕ) (path : FilePath)
  deriving DecidableEq, Repr

/-- What a call answers when it succeeds; mkstemp rewrites its template. -/
abbrev SysCall.Value : SysCall → Type
  | .tmpfile _ _ => ℕ
  | .mkstemp _ => ℕ × FilePath
  | .getfd _ => UInt32
  | .fchmod _ _ => Unit
  | .setfd _ _ => Unit
  | .unlink _ => Unit
  | .close _ => Unit
  | .linkat _ _ => Unit

abbrev Answer (c : SysCall) : Type := Except Int32 c.Value

/-- A descriptor or 0; an error is answered negated. -/
inductive Result where
  | file (r : Except Int32 ℕ)
  | link (r : Except Int32 Unit)

abbrev Call := Prog SysCall Answer Result

/-- S_IRUSR | S_IWUSR. -/
def ownerOnly : BitVec 12 := 0o600

def fdCloexec : UInt32 := 1

/-- SLIP_TMPFILE_LEAF. -/
def slipTmpfileLeaf : FilePath := bytesOf "/slipstream-XXXXXX"

/-- The size of the buffer of the path. -/
def pathMax : ℕ := 4096

/-- `anonArm` is that the platform has `O_TMPFILE`. -/
def slipTmpfileAnon (anonArm : Bool) (dir : FilePath) (next : Except Int32 ℕ → Call) : Call :=
  if anonArm then .call (.tmpfile dir ownerOnly) next else next (.error eopnotsupp)

/-- The label `fail`: the answers of the two calls are not looked at. -/
def tmpfileFail (path : FilePath) (fd : ℕ) (errno : Int32) : Call :=
  .call (.unlink path) fun _ => .call (.close fd) fun _ => .done (.file (.error errno))

/-- A call that fails leads to the label `fail`, with its error. -/
def orFail {α : Type} (path : FilePath) (fd : ℕ) (next : α → Call) : Except Int32 α → Call
  | .error errno => tmpfileFail path fd errno
  | .ok value => next value

/-- The name goes. -/
def tmpfileUnlink (path : FilePath) (fd : ℕ) : Call :=
  .call (.unlink path) (orFail path fd fun _ => .done (.file (.ok fd)))

/-- FD_CLOEXEC is added to the flags that are there. -/
def tmpfileSetfd (path : FilePath) (fd : ℕ) (flags : UInt32) : Call :=
  .call (.setfd fd (flags ||| fdCloexec)) (orFail path fd fun _ => tmpfileUnlink path fd)

def tmpfileGetfd (path : FilePath) (fd : ℕ) : Call :=
  .call (.getfd fd) (orFail path fd (tmpfileSetfd path fd))

def tmpfileFchmod (path : FilePath) (fd : ℕ) : Call :=
  .call (.fchmod fd ownerOnly) (orFail path fd fun _ => tmpfileGetfd path fd)

def tmpfileNamed : Except Int32 (ℕ × FilePath) → Call
  | .error errno => .done (.file (.error errno))
  | .ok (fd, path) => tmpfileFchmod path fd

/-- The arm of mkstemp. -/
def tmpfileMkstemp (dir : FilePath) : Call :=
  if pathMax < dir.length + (slipTmpfileLeaf.length + 1) then .done (.file (.error enametoolong))
  else .call (.mkstemp (dir ++ slipTmpfileLeaf)) tmpfileNamed

/-- TMPDIR where no directory is given, and /tmp where that is not set or empty. -/
def tmpfileDir (dir tmpdir : Option FilePath) : FilePath :=
  match dir.or tmpdir with
  | none => bytesOf "/tmp"
  | some [] => bytesOf "/tmp"
  | some (b :: rest) => b :: rest

/-- The failures after which the arm of mkstemp is tried. -/
def fallsThrough (errno : Int32) : Bool :=
  errno = eopnotsupp || errno = eisdir || errno = einval || errno = enosys

/-- Only a file system without `O_TMPFILE` falls through. -/
def tmpfileAnswered (dir : FilePath) : Except Int32 ℕ → Call
  | .ok fd => .done (.file (.ok fd))
  | .error errno => if fallsThrough errno then tmpfileMkstemp dir else .done (.file (.error errno))

def slipstreamTmpfile (anonArm : Bool) (dir tmpdir : Option FilePath) : Call :=
  let dir := tmpfileDir dir tmpdir
  slipTmpfileAnon anonArm dir (tmpfileAnswered dir)

/-- `anonArm` is that the platform has `AT_SYMLINK_FOLLOW` and is Linux. -/
def slipstreamTmpfileLink (anonArm : Bool) (fd : ℤ) (path : Option FilePath) : Call :=
  match path with
  | none => .done (.link (.error einval))
  | some path =>
    if fd < 0 ∨ path = [] then .done (.link (.error einval))
    else if anonArm then .call (.linkat fd.toNat path) fun answer => .done (.link answer)
    else .done (.link (.error eopnotsupp))

namespace Kernel
variable (k : Kernel)

def names : List FilePath := k.entries.map Prod.fst

/-- The file that the name is of. -/
def lookup (path : FilePath) : Option ℕ := (k.entries.find? (·.1 = path)).map Prod.snd

/-- Something has the name. -/
def taken (path : FilePath) : Bool := k.entries.any (·.1 = path)

/-- The file has a name. -/
def named (ino : ℕ) : Bool := k.entries.any (·.2 = ino)

/-- A new file, under the name or none. -/
def newFile (name : Option FilePath) (inode : Inode) : Kernel :=
  { k with
    entries := (name.map (·, k.made)).toList ++ k.entries
    inodes := Function.update k.inodes k.made inode
    made := k.made + 1 }

def setMode (ino : ℕ) (mode : BitVec 12) : Kernel :=
  { k with inodes := Function.update k.inodes ino { k.inodes ino with mode := mode } }

def setDesc (fd : ℕ) (d : Option Desc) : Kernel := { k with fds := Function.update k.fds fd d }

/-- A new file with its descriptor. -/
def create (fd : ℕ) (name : Option FilePath) (inode : Inode) (cloexec : Bool) : Kernel :=
  (k.newFile name inode).setDesc fd (some ⟨k.made, cloexec, false⟩)

def dropEntry (path : FilePath) : Kernel := { k with entries := k.entries.filter (·.1 ≠ path) }

/-- One more name for the file, that cannot get a first one any more. -/
def addEntry (path : FilePath) (ino : ℕ) : Kernel :=
  { k with
    entries := (path, ino) :: k.entries
    inodes := Function.update k.inodes ino { k.inodes ino with linkable := false } }

def see (ino : ℕ) : Kernel := { k with seen := Function.update k.seen ino true }

end Kernel

/-- What the environment chooses: any call can be refused with any error, and a call that makes a file gets
the descriptor; the name, the mode and the flag that mkstemp gives the file are those of the C library. -/
inductive Outcome where
  | refuses (errno : Int32)
  | works (fd : ℕ) (path : FilePath) (mode : BitVec 12) (cloexec : Bool)

/-- The path is the template with other bytes for its last six. -/
def Fills (template path : FilePath) : Prop :=
  path.length = template.length ∧ path.take (template.length - 6) = template.take (template.length - 6)

instance (template path : FilePath) : Decidable (Fills template path) :=
  inferInstanceAs (Decidable (_ ∧ _))

namespace Kernel

/-- A call that is refused does nothing, but for close(2), which gives the descriptor up. -/
def refuse (k : Kernel) (c : SysCall) : Kernel :=
  match c with
  | .close fd => k.setDesc fd none
  | _ => k

/-- The calls that are not refused. -/
def grant (k : Kernel) (newfd : ℕ) (newpath : FilePath) (mode : BitVec 12) (cloexec : Bool) :
    (c : SysCall) → Option (Kernel × Answer c)
  | .tmpfile _ wanted =>
    if k.fds newfd = none then
      some (k.create newfd none ⟨wanted &&& ~~~k.umask, true, .anon⟩ true, .ok newfd)
    else none
  | .mkstemp template =>
    if k.fds newfd = none ∧ k.taken newpath = false ∧ Fills template newpath then
      some (k.create newfd (some newpath) ⟨mode, false, .mkstemp⟩ cloexec, .ok (newfd, newpath))
    else none
  | .fchmod fd mode =>
    match k.fds fd with
    | none => some (k, .error ebadf)
    | some d => some (k.setMode d.ino mode, .ok ())
  | .getfd fd =>
    match k.fds fd with
    | none => some (k, .error ebadf)
    | some d => some (k, .ok (if d.cloexec then fdCloexec else 0))
  | .setfd fd flags =>
    match k.fds fd with
    | none => some (k, .error ebadf)
    | some d => some (k.setDesc fd (some { d with cloexec := flags &&& fdCloexec = fdCloexec }), .ok ())
  | .unlink path => if k.taken path then some (k.dropEntry path, .ok ()) else some (k, .error enoent)
  | .close fd => if k.fds fd = none then some (k, .error ebadf) else some (k.setDesc fd none, .ok ())
  | .linkat fd path =>
    match k.fds fd with
    | none => some (k, .error enoent)
    | some d =>
      if k.taken path then some (k, .error eexist)
      -- a file without a name gets one only if it never had one
      else if k.named d.ino ∨ (k.inodes d.ino).linkable then some (k.addEntry path d.ino, .ok ())
      else some (k, .error enoent)

def call (k : Kernel) (c : SysCall) : Outcome → Option (Kernel × Answer c)
  | .refuses errno => some (k.refuse c, .error errno)
  | .works newfd newpath mode cloexec => k.grant newfd newpath mode cloexec c

/-- The caller has the descriptor that it is answered. -/
def handBack (k : Kernel) : Result → Kernel
  | .file (.ok fd) => k.setDesc fd ((k.fds fd).map ({ · with held := true }))
  | .file (.error _) => k
  | .link _ => k

end Kernel

/-- What the rest of the process and the other processes do. -/
inductive Outside where
  | umask (mode : BitVec 12)
  | creates (path : FilePath) (mode : BitVec 12)
  | unlinks (path : FilePath)
  | renames (source target : FilePath)
  | links (source target : FilePath)
  /-- In this process with a descriptor, in another one without. -/
  | opens (path : FilePath) (fd : Option ℕ) (cloexec : Bool)
  | closes (fd : ℕ)

/-- The names that an act of others is on. -/
def Outside.paths : Outside → List FilePath
  | .umask _ => []
  | .creates _ _ => []
  | .unlinks path => [path]
  | .renames source target => [source, target]
  | .links source _ => [source]
  | .opens path _ _ => [path]
  | .closes _ => []

def Kernel.other (k : Kernel) : Outside → Option Kernel
  | .umask mode => some { k with umask := mode }
  | .creates path mode =>
    if k.taken path then none else some (k.newFile (some path) ⟨mode, false, .outside⟩)
  | .unlinks path => some (k.dropEntry path)
  | .renames source target =>
    match k.lookup source with
    | none => none
    | some ino => some (((k.dropEntry source).dropEntry target).addEntry target ino)
  | .links source target =>
    match k.lookup source with
    | none => none
    | some ino => if k.taken target then none else some (k.addEntry target ino)
  | .opens path fd cloexec =>
    match k.lookup path, fd with
    | none, _ => none
    | some ino, none => some (k.see ino)
    | some ino, some fd =>
      if k.fds fd = none then some ((k.see ino).setDesc fd (some ⟨ino, cloexec, true⟩)) else none
  | .closes fd => some (k.setDesc fd none)

def tmpWorld : World Kernel SysCall Outcome Result Outside Answer := ⟨Kernel.call, Kernel.handBack, Kernel.other⟩

variable {T : Type} [DecidableEq T]

abbrev TmpState (T : Type) := Threads Kernel T SysCall Answer Result
abbrev TmpTurn (T : Type) := Turn T SysCall Answer Result Outcome Outside
abbrev TmpReport (T : Type) := Report Kernel T SysCall Answer Result

/-- Any number of threads make calls of the two functions. A caller links and closes only descriptors that it
has, and closes none in the middle of its link; nobody acts on a name that mkstemp made. -/
def Usual (anonArm : Bool) (s : TmpState T) : TmpTurn T → Prop
  | .starts _ p => (∃ dir tmpdir, p = slipstreamTmpfile anonArm dir tmpdir) ∨
      ∃ fd path, p = slipstreamTmpfileLink anonArm fd path ∧
        (0 ≤ fd → ∃ d, s.shared.fds fd.toNat = some d ∧ d.held = true)
  | .calls _ _ => True
  | .leaves _ => True
  | .other (.closes fd) => (∀ d, s.shared.fds fd = some d → d.held = true) ∧
      ∀ t path, (s.prog t).bind Prog.pending ≠ some (.linkat fd path)
  | .other x => ∀ path ∈ x.paths, ∀ ino, (path, ino) ∈ s.shared.entries → (s.shared.inodes ino).arm ≠ .mkstemp

/-- No temporary file was made yet. -/
structure Clean (k : Kernel) : Prop where
  names : k.names.Nodup
  entries : ∀ e ∈ k.entries, e.2 < k.made
  descs : ∀ fd d, k.fds fd = some d → d.ino < k.made ∧ d.held = true
  seen : ∀ ino, k.seen ino = true → ino < k.made
  arm : ∀ ino, (k.inodes ino).arm = .outside

end SlipstreamIO.Tmpfile
