import SlipstreamIO.TmpfileViews

/-! The stages of a call of slipstream_tmpfile, what it has in hand at each, and that no other call and
nothing outside touches it. -/
namespace SlipstreamIO.Tmpfile
open Engine Runs Interleaved

/-- A file, with what is in its inode; a descriptor; the names of a file. -/
inductive Res where
  | file (ino : ℕ)
  | fd (n : ℕ)
  | name (ino : ℕ)

/-- What is left to do with a file that is made. -/
inductive Work where
  | fchmod (path : FilePath)
  | getfd (path : FilePath)
  | setfd (path : FilePath) (flags : UInt32)
  | unlink (path : FilePath)
  | undo (path : FilePath) (errno : Int32)
  | shut (errno : Int32)
  | gives

def Work.prog (fd : ℕ) : Work → Call
  | .fchmod path => tmpfileFchmod path fd
  | .getfd path => tmpfileGetfd path fd
  | .setfd path flags => tmpfileSetfd path fd flags
  | .unlink path => tmpfileUnlink path fd
  | .undo path errno => tmpfileFail path fd errno
  | .shut errno => .call (.close fd) fun _ => .done (.file (.error errno))
  | .gives => .done (.file (.ok fd))

/-- The name of the file is still to be removed. -/
def Work.named : Work → Bool
  | .shut _ => false
  | .gives => false
  | .fchmod _ => true
  | .getfd _ => true
  | .setfd _ _ => true
  | .unlink _ => true
  | .undo _ _ => true

inductive Stage where
  | idle (r : Result)
  | asking (dir : FilePath)
  | making (dir : FilePath)
  | linking (fd : ℕ) (path : FilePath)
  | working (w : Work) (fd ino : ℕ)

def Stage.prog : Stage → Call
  | .idle r => .done r
  | .asking dir => .call (.tmpfile dir ownerOnly) (tmpfileAnswered dir)
  | .making dir => tmpfileMkstemp dir
  | .linking fd path => .call (.linkat fd path) fun answer => .done (.link answer)
  | .working w fd _ => w.prog fd

def only (fd : ℕ) (d : Desc) : ℕ → Option Desc := fun n => if n = fd then some d else none

/-- The file of mkstemp behind the descriptor, that nobody else has, with these names. -/
structure InHand (v : View) (fd ino : ℕ) (cloexec : Bool) (names : List FilePath) : Prop where
  names : v.names = names
  unseen : v.seen = false
  fds : v.fds = only fd ⟨ino, cloexec, false⟩
  arm : v.inode.arm = .mkstemp
  linkable : v.inode.linkable = false

/-- The file is nobody's business but the caller's: it has no name, nobody opened it by one, its one
descriptor is close-on-exec, and nobody but the owner may open it. -/
structure Private (v : View) (fd ino : ℕ) : Prop where
  names : v.names = []
  unseen : v.seen = false
  fds : v.fds = only fd ⟨ino, true, false⟩
  mode : v.inode.mode &&& 0o077 = 0
  arm : v.inode.arm = .anon ∨
    v.inode.arm = .mkstemp ∧ v.inode.mode = ownerOnly ∧ v.inode.linkable = false

def Work.Sees (v : View) (fd ino : ℕ) : Work → Prop
  | .fchmod path => ∃ c, InHand v fd ino c [path]
  | .getfd path => v.inode.mode = ownerOnly ∧ ∃ c, InHand v fd ino c [path]
  | .setfd path _ => v.inode.mode = ownerOnly ∧ ∃ c, InHand v fd ino c [path]
  | .unlink path => v.inode.mode = ownerOnly ∧ InHand v fd ino true [path]
  | .undo path _ => ∃ c, InHand v fd ino c [path]
  | .shut _ => ∃ c names, InHand v fd ino c names
  | .gives => Private v fd ino

def Stage.Holds (k : Kernel) : Stage → Prop
  | .idle r => ∀ fd, r ≠ .file (.ok fd)
  | .asking _ => True
  | .making _ => True
  | .linking fd _ => ∃ d, k.fds fd = some d ∧ d.held = true
  | .working w fd ino => ino < k.made ∧ w.Sees (k.view ino) fd ino

def Stage.Owns : Stage → Res → Prop
  | .working w fd ino, r => r = .file ino ∨ r = .fd fd ∨ w.named = true ∧ r = .name ino
  | .idle _, _ => False
  | .asking _, _ => False
  | .making _, _ => False
  | .linking _ _, _ => False

variable {T : Type}

/-- A link of the file was granted. -/
def Linked (tr : List (TmpReport T)) (ino : ℕ) : Prop :=
  ∃ t k k' fd path d, Report.called t k k' (.linkat fd path) (.ok ()) ∈ tr ∧ k.fds fd = some d ∧ d.ino = ino

/-- The removal of a name of the file was refused. -/
def Refused (tr : List (TmpReport T)) (ino : ℕ) : Prop :=
  ∃ t k k' path errno, Report.called t k k' (.unlink path) (.error errno) ∈ tr ∧ (path, ino) ∈ k.entries

/-- The file behind the descriptor has the name besides, which was free; it is not one that was unlinked. -/
structure Gains (k k' : Kernel) (fd : ℕ) (path : FilePath) : Prop where
  free : path ∉ k.names
  gains : ∃ d, k.fds fd = some d ∧ (k.inodes d.ino).arm ≠ .mkstemp ∧ k' = k.addEntry path d.ino

/-- The kernel and what was reported: files without a name get one by a link only, and every call that
answered a success did what it is for. -/
structure Sound (tr : List (TmpReport T)) (k : Kernel) : Prop where
  ok : k.Ok
  anon : ∀ path ino, (path, ino) ∈ k.entries → (k.inodes ino).arm = .anon → Linked tr ino
  given : ∀ t k fd, Report.left t k (.file (.ok fd)) ∈ tr → ∃ ino, Private (k.view ino) fd ino
  linked : ∀ t k k' fd path, Report.called t k k' (.linkat fd path) (.ok ()) ∈ tr → Gains k k' fd path

/-- A descriptor that no caller has, and a name of mkstemp whose removal was not refused. -/
def Needs (tr : List (TmpReport T)) (k : Kernel) : Res → Prop
  | .file _ => False
  | .fd n => ∃ d, k.fds n = some d ∧ d.held = false
  | .name ino => (k.inodes ino).arm = .mkstemp ∧ (k.view ino).names ≠ [] ∧ ¬ Refused tr ino

def tmpOutline : Outline Kernel T SysCall Answer Result Stage Res where
  prog := Stage.prog
  holds := Stage.Holds
  owns := Stage.Owns
  inv := Sound
  needs := Needs

section
variable {tr : List (TmpReport T)} {k k' : Kernel}

theorem Linked.append {ino : ℕ} (h : Linked tr ino) (e : TmpReport T) : Linked (tr ++ [e]) ino := by
  obtain ⟨t, k, k', fd, path, d, hmem, hd⟩ := h
  exact ⟨t, k, k', fd, path, d, List.mem_append_left _ hmem, hd⟩

theorem Refused.append {ino : ℕ} (h : Refused tr ino) (e : TmpReport T) : Refused (tr ++ [e]) ino := by
  obtain ⟨t, k, k', path, errno, hmem, hpath⟩ := h
  exact ⟨t, k, k', path, errno, List.mem_append_left _ hmem, hpath⟩

/-- Every stage with a file is the only one with its descriptor. -/
theorem Work.Sees.only {w : Work} {v : View} {fd ino : ℕ} (h : w.Sees v fd ino) :
    ∃ c, v.fds = only fd ⟨ino, c, false⟩ := by
  cases w with
  | fchmod path => exact h.imp fun c hc => hc.fds
  | getfd path => exact h.2.imp fun c hc => hc.fds
  | setfd path flags => exact h.2.imp fun c hc => hc.fds
  | unlink path => exact ⟨true, h.2.fds⟩
  | undo path errno => exact h.imp fun c hc => hc.fds
  | shut errno =>
    obtain ⟨c, names, hc⟩ := h
    exact ⟨c, hc.fds⟩
  | gives => exact ⟨true, h.fds⟩

/-- A file with a name is one of mkstemp. -/
theorem Work.Sees.arm {w : Work} {v : View} {fd ino : ℕ} (h : w.Sees v fd ino) (hnames : v.names ≠ []) :
    v.inode.arm = .mkstemp := by
  cases w with
  | fchmod path =>
    obtain ⟨c, hc⟩ := h
    exact hc.arm
  | getfd path =>
    obtain ⟨-, c, hc⟩ := h
    exact hc.arm
  | setfd path flags =>
    obtain ⟨-, c, hc⟩ := h
    exact hc.arm
  | unlink path => exact h.2.arm
  | undo path errno =>
    obtain ⟨c, hc⟩ := h
    exact hc.arm
  | shut errno =>
    obtain ⟨c, names, hc⟩ := h
    exact hc.arm
  | gives => exact absurd h.names hnames

theorem Work.Sees.desc {w : Work} {fd ino : ℕ} (h : w.Sees (k.view ino) fd ino) :
    ∃ c, k.fds fd = some ⟨ino, c, false⟩ := by
  obtain ⟨c, hc⟩ := h.only
  have hfd : (k.view ino).fds fd = some ⟨ino, c, false⟩ := by
    rw [hc]
    exact if_pos rfl
  exact ⟨c, (Kernel.view_fds.mp hfd).1⟩

/-- Any descriptor of its file is the one that the stage has. -/
theorem Work.Sees.unique {w : Work} {fd ino n : ℕ} {d : Desc} (h : w.Sees (k.view ino) fd ino)
    (hd : k.fds n = some d) (hino : d.ino = ino) : n = fd ∧ d.held = false := by
  obtain ⟨c, hc⟩ := h.only
  have hn : (k.view ino).fds n = some d := Kernel.view_fds.mpr ⟨hd, hino⟩
  rw [hc, Tmpfile.only] at hn
  by_cases hne : n = fd
  · rw [if_pos hne, Option.some.injEq] at hn
    subst hn
    exact ⟨hne, rfl⟩
  · rw [if_neg hne] at hn
    cases hn

/-- A descriptor that a caller has is not of a file in hand. -/
theorem Work.Sees.ne_of_held {w : Work} {fd ino n : ℕ} {d : Desc} (h : w.Sees (k.view ino) fd ino)
    (hd : k.fds n = some d) (hheld : d.held = true) : d.ino ≠ ino := by
  intro hino
  have hfalse := (h.unique hd hino).2
  rw [hheld] at hfalse
  cases hfalse

/-- A file that is not there yet, and a descriptor that is free. -/
def Kernel.Fresh (k : Kernel) : Res → Prop
  | .file ino => k.made ≤ ino
  | .fd n => k.fds n = none
  | .name ino => k.made ≤ ino

theorem Stage.Holds.not_fresh {st : Stage} (h : st.Holds k) {r : Res} (howns : st.Owns r) : ¬ k.Fresh r := by
  cases st with
  | working w fd ino =>
    rcases howns with rfl | rfl | ⟨-, rfl⟩
    · exact Nat.not_le.mpr h.1
    · obtain ⟨c, hc⟩ := h.2.desc
      intro hfree
      have hfree : k.fds fd = none := hfree
      rw [hc] at hfree
      cases hfree
    · exact Nat.not_le.mpr h.1
  | idle r => exact howns.elim
  | asking dir => exact howns.elim
  | making dir => exact howns.elim
  | linking fd path => exact howns.elim

/-- A turn between two stages that changes the thread's own files and nothing else. -/
structure Carry (tr tr' : List (TmpReport T)) (k k' : Kernel) (st st' : Stage) : Prop where
  made : k.made ≤ k'.made
  views : ∀ ino, ¬ st.Owns (.file ino) → ¬ st'.Owns (.file ino) → k'.view ino = k.view ino
  held : ∀ fd d, k.fds fd = some d → d.held = true → k'.fds fd = some d
  fresh : ∀ r, st'.Owns r → st.Owns r ∨ k.Fresh r
  fds : ∀ ino n d, st.Owns (.file ino) ∨ st'.Owns (.file ino) → (k'.view ino).fds n = some d →
    st'.Owns (.fd n) ∨ d.held = true
  names : ∀ ino, st.Owns (.file ino) ∨ st'.Owns (.file ino) → Needs tr' k' (.name ino) →
    st'.Owns (.name ino) ∨ Needs tr k (.name ino) ∧ ¬ st.Owns (.name ino)
  refused : ∀ ino, Refused tr ino → Refused tr' ino

namespace Carry
variable {tr' : List (TmpReport T)} {st st' : Stage}

/-- The stages of the others hold as before, and own nothing that is new. -/
theorem others (h : Carry tr tr' k k' st st') {su : Stage} (hsu : su.Holds k)
    (hapart : ∀ r, st.Owns r → ¬ su.Owns r) : su.Holds k' ∧ ∀ r, st'.Owns r → ¬ su.Owns r := by
  constructor
  · cases su with
    | idle r => exact hsu
    | asking dir => exact trivial
    | making dir => exact trivial
    | linking fd path =>
      obtain ⟨d, hd, hheld⟩ := hsu
      exact ⟨d, h.held fd d hd hheld, hheld⟩
    | working w fd ino =>
      have hst : ¬ st.Owns (.file ino) := fun howns => hapart _ howns (Or.inl rfl)
      have hst' : ¬ st'.Owns (.file ino) := by
        intro howns
        rcases h.fresh _ howns with hold | hnew
        · exact hst hold
        · exact Nat.not_le.mpr hsu.1 hnew
      refine ⟨hsu.1.trans_le h.made, ?_⟩
      rw [h.views ino hst hst']
      exact hsu.2
  · intro r howns hsuowns
    rcases h.fresh r howns with hold | hnew
    · exact hapart r hold hsuowns
    · exact hsu.not_fresh hsuowns hnew

/-- Nothing that needs an owner is left behind. -/
theorem needs (h : Carry tr tr' k k' st st') (hst : st.Holds k) {r : Res} (hr : Needs tr' k' r) :
    st'.Owns r ∨ Needs tr k r ∧ ¬ st.Owns r := by
  cases r with
  | file ino => exact hr.elim
  | fd n =>
    obtain ⟨d, hd, hheld⟩ := hr
    by_cases hfile : st.Owns (.file d.ino) ∨ st'.Owns (.file d.ino)
    · rcases h.fds d.ino n d hfile (Kernel.view_fds_of hd) with howns | hyes
      · exact Or.inl howns
      · rw [hheld] at hyes
        cases hyes
    · obtain ⟨hst₁, hst₂⟩ := not_or.mp hfile
      have hview := Kernel.view_fds_of hd
      rw [h.views d.ino hst₁ hst₂] at hview
      have hold := (Kernel.view_fds.mp hview).1
      refine Or.inr ⟨⟨d, hold, hheld⟩, ?_⟩
      intro howns
      cases st with
      | working w fd ino =>
        rcases howns with hfile | hfd | ⟨-, hname⟩
        · cases hfile
        · obtain ⟨c, hc⟩ := hst.2.desc
          obtain rfl := Res.fd.inj hfd
          rw [hold, Option.some.injEq] at hc
          subst hc
          exact hst₁ (Or.inl rfl)
        · cases hname
      | idle r => exact howns
      | asking dir => exact howns
      | making dir => exact howns
      | linking fd path => exact howns
  | name ino =>
    by_cases hfile : st.Owns (.file ino) ∨ st'.Owns (.file ino)
    · exact h.names ino hfile hr
    · obtain ⟨hst₁, hst₂⟩ := not_or.mp hfile
      have hview := h.views ino hst₁ hst₂
      obtain ⟨harm, hnames, hrefused⟩ := hr
      rw [← Kernel.view_inode, hview] at harm
      rw [hview] at hnames
      refine Or.inr ⟨⟨harm, hnames, fun hold => hrefused (h.refused ino hold)⟩, ?_⟩
      intro howns
      cases st with
      | working w fd ino' =>
        rcases howns with hfile | hfd | ⟨-, hname⟩
        · cases hfile
        · cases hfd
        · obtain rfl := Res.name.inj hname
          exact hst₁ (Or.inl rfl)
      | idle r => exact howns
      | asking dir => exact howns
      | making dir => exact howns
      | linking fd path => exact howns

end Carry

end
end SlipstreamIO.Tmpfile
