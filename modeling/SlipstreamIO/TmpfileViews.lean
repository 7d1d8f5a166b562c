import SlipstreamIO.TmpfileCalls

/-! What the operations of the kernel do to one file, and to what is true of every kernel. -/
namespace SlipstreamIO.Tmpfile

/-- What there is of one file: its names, its inode, whether it was opened by a name, its descriptors. -/
@[ext] structure View where
  names : List FilePath
  inode : Inode
  seen : Bool
  fds : ℕ → Option Desc

namespace Kernel
variable {k : Kernel} {ino : ℕ}

def view (k : Kernel) (ino : ℕ) : View where
  names := (k.entries.filter (·.2 = ino)).map Prod.fst
  inode := k.inodes ino
  seen := k.seen ino
  fds := fun fd => (k.fds fd).filter (·.ino = ino)

@[simp] theorem view_inode : (k.view ino).inode = k.inodes ino := rfl
@[simp] theorem view_seen : (k.view ino).seen = k.seen ino := rfl

theorem mem_view_names {path : FilePath} : path ∈ (k.view ino).names ↔ (path, ino) ∈ k.entries := by
  simp [view]

theorem view_fds {fd : ℕ} {d : Desc} : (k.view ino).fds fd = some d ↔ k.fds fd = some d ∧ d.ino = ino := by
  simp [view, Option.filter_eq_some_iff]

theorem view_fds_of {fd : ℕ} {d : Desc} (h : k.fds fd = some d) : (k.view d.ino).fds fd = some d :=
  view_fds.mpr ⟨h, rfl⟩

theorem mem_names_of_mem {path : FilePath} (h : (path, ino) ∈ k.entries) : path ∈ k.names :=
  List.mem_map.mpr ⟨_, h, rfl⟩

theorem taken_iff {path : FilePath} : k.taken path = true ↔ path ∈ k.names := by
  constructor
  · intro h
    obtain ⟨e, he, hpath⟩ := List.any_eq_true.mp h
    rw [← of_decide_eq_true hpath]
    exact List.mem_map_of_mem he
  · intro h
    obtain ⟨e, he, hpath⟩ := List.mem_map.mp h
    exact List.any_eq_true.mpr ⟨e, he, decide_eq_true hpath⟩

theorem not_taken {path : FilePath} (h : ¬ k.taken path = true) : path ∉ k.names :=
  fun hmem => h (taken_iff.mpr hmem)

theorem named_iff : k.named ino = true ↔ (k.view ino).names ≠ [] := by
  constructor
  · intro h hnil
    obtain ⟨e, he, hino⟩ := List.any_eq_true.mp h
    have hmem : e.1 ∈ (k.view ino).names := by
      rw [mem_view_names, ← of_decide_eq_true hino]
      exact he
    rw [hnil] at hmem
    exact List.not_mem_nil hmem
  · intro h
    obtain ⟨path, hpath⟩ := List.exists_mem_of_ne_nil _ h
    exact List.any_eq_true.mpr ⟨_, mem_view_names.mp hpath, decide_eq_true rfl⟩

/-- Where no name stands twice, a name is of one file. -/
theorem entry_unique (h : k.names.Nodup) {path : FilePath} {i j : ℕ} (hi : (path, i) ∈ k.entries)
    (hj : (path, j) ∈ k.entries) : i = j := by
  have he := List.inj_on_of_nodup_map h hi hj rfl
  exact congrArg Prod.snd he

theorem lookup_mem {path : FilePath} (h : k.lookup path = some ino) : (path, ino) ∈ k.entries := by
  obtain ⟨e, he, rfl⟩ := Option.map_eq_some_iff.mp h
  have hpath : decide (e.1 = path) = true := List.find?_some (p := fun e : FilePath × ℕ => decide (e.1 = path)) he
  have hmem := List.mem_of_find?_eq_some he
  rwa [← of_decide_eq_true hpath]

theorem view_newFile_of_ne {name : Option FilePath} {inode : Inode} (h : ino ≠ k.made) :
    (k.newFile name inode).view ino = k.view ino := by
  apply View.ext
  · cases name with
    | none => rfl
    | some path =>
      have hne : ¬ k.made = ino := fun he => h he.symm
      simp [view, newFile, hne]
  · exact Function.update_of_ne h _ _
  · rfl
  · rfl

theorem view_setDesc {fd : ℕ} {d : Option Desc} : (k.setDesc fd d).view ino =
    { k.view ino with fds := Function.update (k.view ino).fds fd (d.filter (·.ino = ino)) } := by
  apply View.ext
  · rfl
  · rfl
  · rfl
  · funext n
    by_cases hn : n = fd
    · subst hn
      simp [view, setDesc]
    · simp [view, setDesc, Function.update_of_ne hn]

/-- A descriptor of other files. -/
theorem view_setDesc_of_ne {fd : ℕ} {d : Option Desc} (hold : ∀ d', k.fds fd = some d' → d'.ino ≠ ino)
    (hnew : ∀ d', d = some d' → d'.ino ≠ ino) : (k.setDesc fd d).view ino = k.view ino := by
  have hnone : ∀ o : Option Desc, (∀ d', o = some d' → d'.ino ≠ ino) → o.filter (·.ino = ino) = none := by
    intro o ho
    cases o with
    | none => rfl
    | some d' => simp [ho d' rfl]
  have hsame : Function.update (k.view ino).fds fd (d.filter (·.ino = ino)) = (k.view ino).fds := by
    rw [hnone d hnew, ← hnone (k.fds fd) hold]
    exact Function.update_eq_self _ _
  rw [view_setDesc, hsame]

theorem view_setMode {i : ℕ} {mode : BitVec 12} : (k.setMode i mode).view ino =
    if ino = i then { k.view ino with inode := { k.inodes ino with mode := mode } } else k.view ino := by
  by_cases h : ino = i
  · subst h
    rw [if_pos rfl]
    apply View.ext
    · rfl
    · exact Function.update_self _ _ _
    · rfl
    · rfl
  · rw [if_neg h]
    apply View.ext
    · rfl
    · exact Function.update_of_ne h _ _
    · rfl
    · rfl

theorem view_dropEntry {path : FilePath} : (k.dropEntry path).view ino =
    { k.view ino with names := (k.view ino).names.filter (· ≠ path) } := by
  apply View.ext
  · simp only [view, dropEntry, List.filter_filter, List.filter_map]
    congr 1
    apply List.filter_congr
    intro e _
    simp [Function.comp, Bool.and_comm]
  · rfl
  · rfl
  · rfl

theorem view_dropEntry_of_notMem {path : FilePath} (h : (path, ino) ∉ k.entries) :
    (k.dropEntry path).view ino = k.view ino := by
  have hsame : (k.view ino).names.filter (· ≠ path) = (k.view ino).names := by
    rw [List.filter_eq_self]
    intro p hp
    apply decide_eq_true
    intro he
    subst he
    exact h (mem_view_names.mp hp)
  rw [view_dropEntry, hsame]

theorem view_addEntry_of_ne {path : FilePath} {i : ℕ} (h : ino ≠ i) :
    (k.addEntry path i).view ino = k.view ino := by
  have hne : ¬ i = ino := fun he => h he.symm
  apply View.ext
  · simp [view, addEntry, hne]
  · exact Function.update_of_ne h _ _
  · rfl
  · rfl

theorem view_see_of_ne {i : ℕ} (h : ino ≠ i) : (k.see i).view ino = k.view ino := by
  apply View.ext
  · rfl
  · rfl
  · exact Function.update_of_ne h _ _
  · rfl

/-- The other files do not change. -/
theorem view_create_of_ne {fd : ℕ} (hfree : k.fds fd = none) (hne : ino ≠ k.made) (name : Option FilePath)
    (inode : Inode) (cloexec : Bool) : (k.create fd name inode cloexec).view ino = k.view ino := by
  rw [Kernel.create, view_setDesc_of_ne, view_newFile_of_ne hne]
  · intro d hd
    have hd : k.fds fd = some d := hd
    rw [hfree] at hd
    cases hd
  · intro d hd
    obtain rfl := Option.some.inj hd
    exact fun he => hne he.symm

/-- What is true of every kernel: no name is there twice, everything is of a file that was made, and a file
of mkstemp that a caller has can never get a name. -/
structure Ok (k : Kernel) : Prop where
  names : k.names.Nodup
  entries : ∀ path ino, (path, ino) ∈ k.entries → ino < k.made
  descs : ∀ fd d, k.fds fd = some d → d.ino < k.made
  seen : ∀ ino, k.seen ino = true → ino < k.made
  gone : ∀ fd d, k.fds fd = some d → d.held = true → (k.inodes d.ino).arm = .mkstemp →
    (k.view d.ino).names = [] ∧ (k.inodes d.ino).linkable = false

namespace Ok
variable (h : k.Ok)
include h

theorem newFile {name : Option FilePath} (hname : ∀ path, name = some path → path ∉ k.names) (inode : Inode) :
    (k.newFile name inode).Ok := by
  constructor
  · cases name with
    | none => exact h.names
    | some path => exact List.nodup_cons.mpr ⟨hname path rfl, h.names⟩
  · intro path ino he
    rcases List.mem_append.mp he with hnew | hold
    · obtain ⟨p, -, hp⟩ := Option.map_eq_some_iff.mp (Option.mem_toList.mp hnew)
      rw [← (Prod.mk.inj hp).2]
      exact Nat.lt_succ_self _
    · exact Nat.lt_succ_of_lt (h.entries path ino hold)
  · exact fun fd d hd => Nat.lt_succ_of_lt (h.descs fd d hd)
  · exact fun ino hseen => Nat.lt_succ_of_lt (h.seen ino hseen)
  · intro fd d hd hheld harm
    have hne : d.ino ≠ k.made := Nat.ne_of_lt (h.descs fd d hd)
    have hinode : (k.newFile name inode).inodes d.ino = k.inodes d.ino := Function.update_of_ne hne _ _
    rw [hinode] at harm ⊢
    rw [view_newFile_of_ne hne]
    exact h.gone fd d hd hheld harm

theorem setDesc {fd : ℕ} {d : Option Desc} (hino : ∀ d', d = some d' → d'.ino < k.made)
    (hgone : ∀ d', d = some d' → d'.held = true → (k.inodes d'.ino).arm = .mkstemp →
      (k.view d'.ino).names = [] ∧ (k.inodes d'.ino).linkable = false) : (k.setDesc fd d).Ok := by
  have hcases : ∀ n d', (k.setDesc fd d).fds n = some d' → d = some d' ∨ k.fds n = some d' := by
    intro n d' hd'
    have hd' : Function.update k.fds fd d n = some d' := hd'
    by_cases hn : n = fd
    · rw [hn, Function.update_self] at hd'
      exact Or.inl hd'
    · rw [Function.update_of_ne hn] at hd'
      exact Or.inr hd'
  refine ⟨h.names, h.entries, ?_, h.seen, ?_⟩
  · intro n d' hd'
    rcases hcases n d' hd' with hnew | hold
    · exact hino d' hnew
    · exact h.descs n d' hold
  · intro n d' hd' hheld harm
    rw [view_setDesc]
    rcases hcases n d' hd' with hnew | hold
    · exact hgone d' hnew hheld harm
    · exact h.gone n d' hold hheld harm

theorem setMode (ino : ℕ) (mode : BitVec 12) : (k.setMode ino mode).Ok := by
  refine ⟨h.names, h.entries, h.descs, h.seen, ?_⟩
  intro fd d hd hheld harm
  rw [← view_inode, view_setMode] at harm ⊢
  by_cases hi : d.ino = ino
  · rw [if_pos hi] at harm ⊢
    exact h.gone fd d hd hheld harm
  · rw [if_neg hi] at harm ⊢
    exact h.gone fd d hd hheld harm

theorem dropEntry (path : FilePath) : (k.dropEntry path).Ok := by
  refine ⟨h.names.sublist (List.filter_sublist.map Prod.fst), ?_, h.descs, h.seen, ?_⟩
  · exact fun p ino he => h.entries p ino (List.mem_filter.mp he).1
  · intro fd d hd hheld harm
    obtain ⟨hnames, hlinkable⟩ := h.gone fd d hd hheld harm
    rw [view_dropEntry]
    refine ⟨?_, hlinkable⟩
    rw [hnames]
    rfl

theorem addEntry {path : FilePath} {ino : ℕ} (hfree : path ∉ k.names) (hino : ino < k.made)
    (harm : (k.inodes ino).arm ≠ .mkstemp) : (k.addEntry path ino).Ok := by
  refine ⟨List.nodup_cons.mpr ⟨hfree, h.names⟩, ?_, h.descs, h.seen, ?_⟩
  · intro p i he
    rcases List.mem_cons.mp he with hnew | hold
    · rw [(Prod.mk.inj hnew).2]
      exact hino
    · exact h.entries p i hold
  · intro fd d hd hheld hmk
    by_cases hi : d.ino = ino
    · have hsame : (k.addEntry path ino).inodes ino = { k.inodes ino with linkable := false } :=
        Function.update_self _ _ _
      rw [hi, hsame] at hmk
      exact absurd hmk harm
    · have hinode : (k.addEntry path ino).inodes d.ino = k.inodes d.ino := Function.update_of_ne hi _ _
      rw [hinode] at hmk ⊢
      rw [view_addEntry_of_ne hi]
      exact h.gone fd d hd hheld hmk

theorem see {ino : ℕ} (hino : ino < k.made) : (k.see ino).Ok := by
  refine ⟨h.names, h.entries, h.descs, ?_, h.gone⟩
  intro i hseen
  by_cases hi : i = ino
  · rwa [hi]
  · exact h.seen i ((Function.update_of_ne hi _ _).symm.trans hseen)

/-- The view of a file that is made now, with its first descriptor. -/
theorem view_create (fd : ℕ) (name : Option FilePath) (inode : Inode) (cloexec : Bool) :
    (k.create fd name inode cloexec).view k.made =
      ⟨name.toList, inode, false, fun n => if n = fd then some ⟨k.made, cloexec, false⟩ else none⟩ := by
  have hnone : ∀ n, (k.fds n).filter (·.ino = k.made) = none := by
    intro n
    cases hd : k.fds n with
    | none => rfl
    | some d =>
      have hlt := h.descs n d hd
      simp [Nat.ne_of_lt hlt]
  have hentries : k.entries.filter (·.2 = k.made) = [] := by
    rw [List.filter_eq_nil_iff]
    intro e he hmade
    exact absurd (h.entries e.1 e.2 he) (by rw [of_decide_eq_true hmade]; exact Nat.lt_irrefl _)
  apply View.ext
  · cases name with
    | none => simp [view, Kernel.create, Kernel.newFile, Kernel.setDesc, hentries]
    | some path => simp [view, Kernel.create, Kernel.newFile, Kernel.setDesc, hentries]
  · exact Function.update_self _ _ _
  · show k.seen k.made = false
    cases hseen : k.seen k.made with
    | false => rfl
    | true => exact absurd (h.seen _ hseen) (Nat.lt_irrefl _)
  · funext n
    by_cases hn : n = fd
    · subst hn
      simp [view, Kernel.create, Kernel.setDesc]
    · simp only [view, Kernel.create, Kernel.setDesc, Kernel.newFile, Function.update_of_ne hn, if_neg hn]
      exact hnone n

theorem create {fd : ℕ} {name : Option FilePath} (hname : ∀ path, name = some path → path ∉ k.names)
    (inode : Inode) (cloexec : Bool) : (k.create fd name inode cloexec).Ok := by
  apply (h.newFile hname inode).setDesc
  · intro d hd
    obtain rfl := Option.some.inj hd
    exact Nat.lt_succ_self _
  · intro d hd hheld
    obtain rfl := Option.some.inj hd
    cases hheld

end Ok
end Kernel

theorem Clean.ok {k : Kernel} (h : Clean k) : k.Ok := by
  refine ⟨h.names, fun path ino he => h.entries _ he, fun fd d hd => (h.descs fd d hd).1, h.seen, ?_⟩
  intro fd d _ _ harm
  rw [h.arm] at harm
  cases harm

end SlipstreamIO.Tmpfile
