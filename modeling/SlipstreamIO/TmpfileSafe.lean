import SlipstreamIO.TmpfileTurns

/-! Any number of calls of slipstream_tmpfile and slipstream_tmpfile_link, in any interleaving with one
another and with what others do to the names and descriptors that are theirs. -/
namespace SlipstreamIO.Tmpfile
open Engine Runs Interleaved

variable {T : Type} {tr : List (TmpReport T)} {k k' : Kernel}

/-- Nothing is needed that was not, when only the trace grew. -/
theorem Needs.shorter {tr' : List (TmpReport T)} (htr : ∀ i, Refused tr i → Refused tr' i) {r : Res}
    (h : Needs tr' k r) : Needs tr k r := by
  cases r with
  | file i => exact h
  | fd n => exact h
  | name i => exact ⟨h.1, h.2.1, fun hold => h.2.2 (htr i hold)⟩

/-- What the rule asks of a result that is handed back. -/
structure Leaves (tr tr' : List (TmpReport T)) (k k' : Kernel) (st : Stage) : Prop where
  sound : Sound tr' k'
  others : ∀ su : Stage, su.Holds k → (∀ r, st.Owns r → ¬ su.Owns r) → su.Holds k'
  needs : ∀ r, Needs tr' k' r → Needs tr k r ∧ ¬ st.Owns r

/-- The call hands back an error, or it is a link: the kernel stays. -/
theorem hands_nothing (h : Sound tr k) {st : Stage} {r : Result} (hr : ∀ fd, r ≠ .file (.ok fd)) (t : T)
    (hst : ∀ q, ¬ st.Owns q) : Leaves tr (tr ++ [.left t k r]) k (k.handBack r) st := by
  have hsame : k.handBack r = k := by
    cases r with
    | link a => rfl
    | file a =>
      cases a with
      | error errno => rfl
      | ok fd => exact absurd rfl (hr fd)
  have hplain : Plain (Report.left t k r : TmpReport T) := by
    constructor
    · intro t' j fd he
      cases he
      exact hr fd rfl
    · intro t' j j' fd path he
      cases he
  rw [hsame]
  refine ⟨h.same hplain, fun su hsu _ => hsu, ?_⟩
  exact fun q hq => ⟨hq.shorter fun i hi => hi.append _, hst q⟩

/-- A descriptor is handed back: it is the caller's from here on. -/
theorem hands_file (h : Sound tr k) {fd ino : ℕ} (hst : (Stage.working .gives fd ino).Holds k) (t : T) :
    Leaves tr (tr ++ [.left t k (.file (.ok fd))]) k (k.handBack (.file (.ok fd))) (.working .gives fd ino) := by
  obtain ⟨hlt, hsees⟩ := hst
  have hprivate : Private (k.view ino) fd ino := hsees
  have hd : k.fds fd = some ⟨ino, true, false⟩ := by
    have hfd : (k.view ino).fds fd = some ⟨ino, true, false⟩ := by
      rw [hprivate.fds]
      exact if_pos rfl
    exact (Kernel.view_fds.mp hfd).1
  have hback : k.handBack (.file (.ok fd)) = k.setDesc fd (some ⟨ino, true, true⟩) := by
    simp only [Kernel.handBack, hd, Option.map_some]
  rw [hback]
  constructor
  · refine ⟨?_, fun p i hentry harm => (h.anon p i hentry harm).append _, ?_, ?_⟩
    · apply h.ok.setDesc
      · intro d hd'
        rw [← Option.some.inj hd']
        exact hlt
      · intro d hd' _ harm
        rw [← Option.some.inj hd'] at harm ⊢
        refine ⟨hprivate.names, ?_⟩
        rcases hprivate.arm with hanon | ⟨-, -, hlinkable⟩
        · have harm : (k.view ino).inode.arm = .mkstemp := harm
          rw [hanon] at harm
          cases harm
        · exact hlinkable
    · intro t' j n hmem
      rcases List.mem_append.mp hmem with hold | hnew
      · exact h.given t' j n hold
      · cases List.mem_singleton.mp hnew
        exact ⟨ino, hprivate⟩
    · intro t' j j' n path hmem
      rcases List.mem_append.mp hmem with hold | hnew
      · exact h.linked t' j j' n path hold
      · cases List.mem_singleton.mp hnew
  · intro su hsu hapart
    cases su with
    | idle r => exact hsu
    | asking dir => exact trivial
    | making dir => exact trivial
    | linking n path =>
      obtain ⟨d, hd', hheld⟩ := hsu
      refine ⟨d, ?_, hheld⟩
      rw [Kernel.setDesc_fds_of_ne k ?_]
      · exact hd'
      · rintro rfl
        rw [hd, Option.some.injEq] at hd'
        subst hd'
        cases hheld
    | working w n i =>
      have hne : i ≠ ino := by
        rintro rfl
        exact hapart (.file i) (Or.inl rfl) (Or.inl rfl)
      refine ⟨hsu.1, ?_⟩
      rw [hsees.desc_views (fun d' hd' => by rw [← Option.some.inj hd']) hne]
      exact hsu.2
  · intro r hr
    cases r with
    | file i => exact hr.elim
    | fd n =>
      obtain ⟨d, hd', hheld⟩ := hr
      have hne : n ≠ fd := by
        rintro rfl
        have hself : (k.setDesc n (some ⟨ino, true, true⟩)).fds n = some ⟨ino, true, true⟩ :=
          Function.update_self _ _ _
        rw [hself, Option.some.injEq] at hd'
        subst hd'
        cases hheld
      rw [Kernel.setDesc_fds_of_ne k hne] at hd'
      refine ⟨⟨d, hd', hheld⟩, ?_⟩
      intro howns
      rcases howns with hfile | hfd | ⟨hnamed, -⟩
      · cases hfile
      · exact hne (Res.fd.inj hfd)
      · cases hnamed
    | name i =>
      obtain ⟨harm, hnames, hrefused⟩ := hr
      rw [Kernel.view_setDesc] at hnames
      refine ⟨⟨harm, hnames, fun hold => hrefused (hold.append _)⟩, ?_⟩
      intro howns
      rcases howns with hfile | hfd | ⟨hnamed, -⟩
      · cases hfile
      · cases hfd
      · cases hnamed

/-- What others do leaves every stage and everything that needs an owner as they are. -/
structure Spared (tr : List (TmpReport T)) (k k' : Kernel) : Prop where
  sound : Sound tr k'
  holds : ∀ su : Stage, su.Holds k → su.Holds k'
  needs : ∀ r, Needs tr k' r → Needs tr k r

/-- After an act of others: no file without a name got one. -/
theorem Sound.outside (h : Sound tr k) (hok : k'.Ok) (hanon : ∀ path ino, (path, ino) ∈ k'.entries →
    (k'.inodes ino).arm = .anon → ∃ p, (p, ino) ∈ k.entries ∧ (k.inodes ino).arm = .anon) : Sound tr k' := by
  refine ⟨hok, ?_, h.given, h.linked⟩
  intro path ino hentry harm
  obtain ⟨p, hp, harm⟩ := hanon path ino hentry harm
  exact h.anon p ino hp harm

/-- The stage sees the file as before. -/
theorem Stage.Holds.stays {su : Stage} (hsu : su.Holds k) (hmade : k.made ≤ k'.made)
    (hviews : ∀ w fd ino, su = .working w fd ino → k'.view ino = k.view ino)
    (hfds : ∀ fd path, su = .linking fd path → k'.fds fd = k.fds fd) : su.Holds k' := by
  cases su with
  | idle r => exact hsu
  | asking dir => exact trivial
  | making dir => exact trivial
  | linking fd path =>
    obtain ⟨d, hd, hheld⟩ := hsu
    exact ⟨d, (hfds fd path rfl).trans hd, hheld⟩
  | working w fd ino =>
    refine ⟨hsu.1.trans_le hmade, ?_⟩
    rw [hviews w fd ino rfl]
    exact hsu.2

/-- A name that others may act on is not of a file in hand. -/
theorem Stage.Holds.not_theirs {w : Work} {fd i : ℕ} (hsu : (Stage.working w fd i).Holds k) {path : FilePath}
    (hpath : ∀ ino, (path, ino) ∈ k.entries → (k.inodes ino).arm ≠ .mkstemp) : (path, i) ∉ k.entries := by
  intro hentry
  have hnames : (k.view i).names ≠ [] := List.ne_nil_of_mem (Kernel.mem_view_names.mpr hentry)
  exact hpath i hentry (hsu.2.arm hnames)

theorem spares_drop (h : Sound tr k) {path : FilePath}
    (hpath : ∀ ino, (path, ino) ∈ k.entries → (k.inodes ino).arm ≠ .mkstemp) :
    Spared tr k (k.dropEntry path) := by
  constructor
  · exact h.outside (h.ok.dropEntry path) fun p _ hentry harm => ⟨p, (List.mem_filter.mp hentry).1, harm⟩
  · intro su hsu
    have hmade : k.made ≤ (k.dropEntry path).made := le_rfl
    apply hsu.stays hmade
    · intro w fd i hi
      subst hi
      exact Kernel.view_dropEntry_of_notMem (hsu.not_theirs hpath)
    · exact fun _ _ _ => rfl
  · intro r hr
    cases r with
    | file i => exact hr
    | fd n => exact hr
    | name i =>
      obtain ⟨harm, hnames, hrefused⟩ := hr
      refine ⟨harm, ?_, hrefused⟩
      intro hnil
      rw [Kernel.view_dropEntry, hnil] at hnames
      exact hnames rfl

theorem spares_see (h : Sound tr k) {path : FilePath} {ino : ℕ} (hentry : (path, ino) ∈ k.entries)
    (hpath : ∀ ino, (path, ino) ∈ k.entries → (k.inodes ino).arm ≠ .mkstemp) : Spared tr k (k.see ino) := by
  constructor
  · exact h.outside (h.ok.see (h.ok.entries path ino hentry)) fun p _ hp harm => ⟨p, hp, harm⟩
  · intro su hsu
    have hmade : k.made ≤ (k.see ino).made := le_rfl
    apply hsu.stays hmade
    · intro w fd i hi
      subst hi
      apply Kernel.view_see_of_ne
      rintro rfl
      exact hsu.not_theirs hpath hentry
    · exact fun _ _ _ => rfl
  · intro r hr
    cases r with
    | file i => exact hr
    | fd n => exact hr
    | name i => exact hr

/-- A file of others gets a name. -/
theorem spares_add (h : Sound tr k) {path : FilePath} {ino : ℕ} (hfree : path ∉ k.names) (hino : ino < k.made)
    (harm : (k.inodes ino).arm ≠ .mkstemp) (hanon : (k.inodes ino).arm = .anon → Linked tr ino) :
    Sound tr (k.addEntry path ino) ∧ ∀ r, Needs tr (k.addEntry path ino) r → Needs tr k r := by
  constructor
  · refine ⟨h.ok.addEntry hfree hino harm, ?_, h.given, h.linked⟩
    intro p i hentry hi
    rw [Kernel.addEntry_arm] at hi
    rcases List.mem_cons.mp hentry with hnew | hold
    · rw [(Prod.mk.inj hnew).2] at hi ⊢
      exact hanon hi
    · exact h.anon p i hold hi
  · exact fun r hr => hr.addEntry harm fun _ => id

/-- Where a name leads to a file of others. -/
theorem Stage.Holds.ne_theirs {w : Work} {fd i : ℕ} (hsu : (Stage.working w fd i).Holds k) {path : FilePath}
    {ino : ℕ} (hentry : (path, ino) ∈ k.entries)
    (hpath : ∀ ino, (path, ino) ∈ k.entries → (k.inodes ino).arm ≠ .mkstemp) : i ≠ ino := by
  rintro rfl
  exact hsu.not_theirs hpath hentry

theorem Kernel.dropEntry_names {path target : FilePath} (h : target ∈ (k.dropEntry path).names) :
    target ∈ k.names ∧ target ≠ path := by
  obtain ⟨e, he, rfl⟩ := List.mem_map.mp h
  obtain ⟨hmem, hne⟩ := List.mem_filter.mp he
  exact ⟨List.mem_map.mpr ⟨e, hmem, rfl⟩, of_decide_eq_true hne⟩

/-- A file of others takes another name, and the one that had it loses it. -/
theorem spares_rename (h : Sound tr k) {source target : FilePath} {ino : ℕ} (hentry : (source, ino) ∈ k.entries)
    (hsource : ∀ ino, (source, ino) ∈ k.entries → (k.inodes ino).arm ≠ .mkstemp)
    (htarget : ∀ ino, (target, ino) ∈ k.entries → (k.inodes ino).arm ≠ .mkstemp) :
    Spared tr k (((k.dropEntry source).dropEntry target).addEntry target ino) := by
  have hfirst : Spared tr k (k.dropEntry source) := spares_drop h hsource
  have hsecond : Spared tr (k.dropEntry source) ((k.dropEntry source).dropEntry target) :=
    spares_drop hfirst.sound fun i hi => htarget i (List.mem_filter.mp hi).1
  have hfree : target ∉ ((k.dropEntry source).dropEntry target).names :=
    fun hmem => (Kernel.dropEntry_names hmem).2 rfl
  obtain ⟨hsound, hneeds⟩ := spares_add hsecond.sound hfree (h.ok.entries source ino hentry)
    (hsource ino hentry) fun harm => h.anon source ino hentry harm
  refine ⟨hsound, ?_, fun r hr => hfirst.needs r (hsecond.needs r (hneeds r hr))⟩
  intro su hsu
  apply (hsecond.holds su (hfirst.holds su hsu)).addEntry
  intro w fd i hi
  subst hi
  exact hsu.ne_theirs hentry hsource

theorem spares_link (h : Sound tr k) {source target : FilePath} {ino : ℕ} (hentry : (source, ino) ∈ k.entries)
    (hsource : ∀ ino, (source, ino) ∈ k.entries → (k.inodes ino).arm ≠ .mkstemp) (hfree : target ∉ k.names) :
    Spared tr k (k.addEntry target ino) := by
  obtain ⟨hsound, hneeds⟩ := spares_add h hfree (h.ok.entries source ino hentry) (hsource ino hentry)
    fun harm => h.anon source ino hentry harm
  refine ⟨hsound, ?_, hneeds⟩
  intro su hsu
  apply hsu.addEntry
  intro w fd i hi
  subst hi
  exact hsu.ne_theirs hentry hsource

theorem spares_create (h : Sound tr k) {path : FilePath} (hfree : path ∉ k.names) (mode : BitVec 12) :
    Spared tr k (k.newFile (some path) ⟨mode, false, .outside⟩) := by
  have hmade : k.made ≤ (k.newFile (some path) ⟨mode, false, .outside⟩).made := Nat.le_succ _
  have hinode : (k.newFile (some path) ⟨mode, false, .outside⟩).inodes k.made = ⟨mode, false, .outside⟩ :=
    Function.update_self _ _ _
  constructor
  · apply h.outside (h.ok.newFile (fun p hp => Option.some.inj hp ▸ hfree) _)
    intro p i hentry harm
    rcases List.mem_cons.mp hentry with hnew | hold
    · rw [(Prod.mk.inj hnew).2, hinode] at harm
      cases harm
    · have hne : i ≠ k.made := Nat.ne_of_lt (h.ok.entries p i hold)
      rw [← Kernel.view_inode, Kernel.view_newFile_of_ne hne] at harm
      exact ⟨p, hold, harm⟩
  · intro su hsu
    apply hsu.stays hmade
    · intro w fd i hi
      subst hi
      exact Kernel.view_newFile_of_ne (Nat.ne_of_lt hsu.1)
    · exact fun _ _ _ => rfl
  · intro r hr
    cases r with
    | file i => exact hr
    | fd n => exact hr
    | name i =>
      obtain ⟨harm, hnames, hrefused⟩ := hr
      have hne : i ≠ k.made := by
        rintro rfl
        rw [hinode] at harm
        cases harm
      rw [Kernel.view_newFile_of_ne hne] at hnames
      rw [← Kernel.view_inode, Kernel.view_newFile_of_ne hne] at harm
      exact ⟨harm, hnames, hrefused⟩

/-- A descriptor of others comes, on a file that is not in hand. -/
theorem spares_open (h : Sound tr k) {path : FilePath} {fd ino : ℕ} (hentry : (path, ino) ∈ k.entries)
    (hpath : ∀ ino, (path, ino) ∈ k.entries → (k.inodes ino).arm ≠ .mkstemp) (hfree : k.fds fd = none)
    (cloexec : Bool) : Spared tr k (k.setDesc fd (some ⟨ino, cloexec, true⟩)) := by
  have hmade : k.made ≤ (k.setDesc fd (some ⟨ino, cloexec, true⟩)).made := le_rfl
  constructor
  · apply h.outside
    · apply h.ok.setDesc
      · intro d hd
        rw [← Option.some.inj hd]
        exact h.ok.entries path ino hentry
      · intro d hd _ harm
        rw [← Option.some.inj hd] at harm
        exact absurd harm (hpath ino hentry)
    · exact fun p _ hp harm => ⟨p, hp, harm⟩
  · intro su hsu
    apply hsu.stays hmade
    · intro w n i hi
      subst hi
      apply Kernel.view_setDesc_of_ne
      · intro d hd
        rw [hfree] at hd
        cases hd
      · intro d hd
        rw [← Option.some.inj hd]
        exact (hsu.ne_theirs hentry hpath).symm
    · intro n p hn
      subst hn
      obtain ⟨d, hd, -⟩ := hsu
      apply Kernel.setDesc_fds_of_ne
      rintro rfl
      rw [hfree] at hd
      cases hd
  · intro r hr
    cases r with
    | file i => exact hr
    | fd n =>
      obtain ⟨d, hd, hheld⟩ := hr
      by_cases hn : n = fd
      · have hself : (k.setDesc fd (some ⟨ino, cloexec, true⟩)).fds fd = some ⟨ino, cloexec, true⟩ :=
          Function.update_self _ _ _
        rw [hn, hself, Option.some.injEq] at hd
        subst hd
        cases hheld
      · rw [Kernel.setDesc_fds_of_ne k hn] at hd
        exact ⟨d, hd, hheld⟩
    | name i =>
      rw [Needs, Kernel.view_setDesc] at hr
      exact hr

/-- A caller closes a descriptor that it has; no link of this descriptor is going on. -/
theorem closes_own (h : Sound tr k) {fd : ℕ} (hheld : ∀ d, k.fds fd = some d → d.held = true) :
    Sound tr (k.setDesc fd none) ∧
      (∀ su : Stage, su.Holds k → (∀ path, su ≠ .linking fd path) → su.Holds (k.setDesc fd none)) ∧
      ∀ r, Needs tr (k.setDesc fd none) r → Needs tr k r := by
  have hmade : k.made ≤ (k.setDesc fd none).made := le_rfl
  refine ⟨?_, ?_, ?_⟩
  · apply h.outside
    · exact h.ok.setDesc (fun _ hd => by cases hd) fun _ hd => by cases hd
    · exact fun p _ hp harm => ⟨p, hp, harm⟩
  · intro su hsu hlink
    apply hsu.stays hmade
    · intro w n i hi
      subst hi
      apply Kernel.view_setDesc_of_ne
      · exact fun d hd => hsu.2.ne_of_held hd (hheld d hd)
      · exact fun d hd => by cases hd
    · intro n p hn
      apply Kernel.setDesc_fds_of_ne
      rintro rfl
      exact hlink p hn
  · intro r hr
    cases r with
    | file i => exact hr
    | fd n =>
      obtain ⟨d, hd, hfalse⟩ := hr
      have hne : n ≠ fd := by
        rintro rfl
        have hself : (k.setDesc n none).fds n = none := Function.update_self _ _ _
        rw [hself] at hd
        cases hd
      rw [Kernel.setDesc_fds_of_ne k hne] at hd
      exact ⟨d, hd, hfalse⟩
    | name i =>
      rw [Needs, Kernel.view_setDesc] at hr
      exact hr

/-- The acts of others, one by one. -/
theorem others_spare {anonArm : Bool} {s : TmpState T} {x : Outside} (h : Sound tr s.shared)
    (hx : s.shared.other x = some k') (hu : Usual anonArm s (.other x)) :
    Sound tr k' ∧ (∀ t (st : Stage), s.prog t = some st.prog → st.Holds s.shared → st.Holds k') ∧
      ∀ r, Needs tr k' r → Needs tr s.shared r := by
  have hspared : Spared tr s.shared k' →
      Sound tr k' ∧ (∀ t (st : Stage), s.prog t = some st.prog → st.Holds s.shared → st.Holds k') ∧
        ∀ r, Needs tr k' r → Needs tr s.shared r :=
    fun hs => ⟨hs.sound, fun _ st _ hst => hs.holds st hst, hs.needs⟩
  cases x with
  | umask mode =>
    obtain rfl := Option.some.inj hx
    apply hspared
    refine ⟨⟨⟨h.ok.names, h.ok.entries, h.ok.descs, h.ok.seen, h.ok.gone⟩, h.anon, h.given, h.linked⟩, ?_, ?_⟩
    · intro su hsu
      cases su with
      | idle r => exact hsu
      | asking dir => exact trivial
      | making dir => exact trivial
      | linking fd path => exact hsu
      | working w fd ino => exact hsu
    · intro r hr
      cases r with
      | file i => exact hr
      | fd n => exact hr
      | name i => exact hr
  | creates path mode =>
    simp only [Kernel.other] at hx
    by_cases hfree : s.shared.taken path = true
    · rw [if_pos hfree] at hx
      cases hx
    · rw [if_neg hfree, Option.some.injEq] at hx
      subst hx
      exact hspared (spares_create h (Kernel.not_taken hfree) mode)
  | unlinks path =>
    obtain rfl := Option.some.inj hx
    exact hspared (spares_drop h (hu path (List.mem_singleton_self path)))
  | renames source target =>
    simp only [Kernel.other] at hx
    cases hlookup : s.shared.lookup source with
    | none =>
      rw [hlookup] at hx
      cases hx
    | some ino =>
      rw [hlookup, Option.some.injEq] at hx
      subst hx
      exact hspared (spares_rename h (Kernel.lookup_mem hlookup) (hu source List.mem_cons_self)
        (hu target (List.mem_cons_of_mem _ (List.mem_singleton_self target))))
  | links source target =>
    simp only [Kernel.other] at hx
    cases hlookup : s.shared.lookup source with
    | none =>
      rw [hlookup] at hx
      cases hx
    | some ino =>
      simp only [hlookup] at hx
      by_cases hfree : s.shared.taken target = true
      · rw [if_pos hfree] at hx
        cases hx
      · rw [if_neg hfree, Option.some.injEq] at hx
        subst hx
        exact hspared (spares_link h (Kernel.lookup_mem hlookup) (hu source (List.mem_singleton_self source))
          (Kernel.not_taken hfree))
  | opens path fd cloexec =>
    have hpath := hu path (List.mem_singleton_self path)
    cases hlookup : s.shared.lookup path with
    | none =>
      simp only [Kernel.other, hlookup] at hx
      cases hx
    | some ino =>
      have hentry := Kernel.lookup_mem hlookup
      have hsee : Spared tr s.shared (s.shared.see ino) := spares_see h hentry hpath
      cases fd with
      | none =>
        simp only [Kernel.other, hlookup, Option.some.injEq] at hx
        subst hx
        exact hspared hsee
      | some fd =>
        simp only [Kernel.other, hlookup] at hx
        by_cases hfree : s.shared.fds fd = none
        · rw [if_pos hfree, Option.some.injEq] at hx
          subst hx
          have hopen : Spared tr (s.shared.see ino) ((s.shared.see ino).setDesc fd (some ⟨ino, cloexec, true⟩)) :=
            spares_open hsee.sound hentry hpath hfree cloexec
          exact hspared ⟨hopen.sound, fun su hsu => hopen.holds su (hsee.holds su hsu),
            fun r hr => hsee.needs r (hopen.needs r hr)⟩
        · rw [if_neg hfree] at hx
          cases hx
  | closes fd =>
    obtain rfl := Option.some.inj hx
    obtain ⟨hheld, hpending⟩ := hu
    obtain ⟨hsound, hholds, hneeds⟩ := closes_own h hheld
    refine ⟨hsound, ?_, hneeds⟩
    intro t st hprog hst
    apply hholds st hst
    intro path he
    apply hpending t path
    rw [hprog, he]
    rfl

/-- The call that a stage is in front of. -/
theorem calls_lead (h : Sound tr k) {st : Stage} (hst : st.Holds k) {c : SysCall} {next : Answer c → Call}
    (hprog : st.prog = .call c next) {o : Outcome} {a : Answer c} (hcall : k.call c o = some (k', a)) (t : T) :
    ∃ st' : Stage, st'.prog = next a ∧ Led tr (tr ++ [.called t k k' c a]) k k' st st' := by
  cases st with
  | idle r => cases hprog
  | asking dir =>
    cases hprog
    exact (asking_turn h hcall t).led hst
  | making dir =>
    rw [Stage.prog, tmpfileMkstemp] at hprog
    by_cases hlong : pathMax < dir.length + (slipTmpfileLeaf.length + 1)
    · rw [if_pos hlong] at hprog
      cases hprog
    · rw [if_neg hlong] at hprog
      cases hprog
      exact (mkstemp_turn h hcall t).led hst
  | linking fd path =>
    cases hprog
    exact ⟨.idle (.link a), rfl, linkat_turn h hst hcall t⟩
  | working w fd ino =>
    cases w with
    | fchmod path =>
      cases hprog
      exact (fchmod_turn h hst hcall t).led hst
    | getfd path =>
      cases hprog
      exact (getfd_turn h hst hcall t).led hst
    | setfd path flags =>
      cases hprog
      exact (setfd_turn h hst hcall t).led hst
    | unlink path =>
      cases hprog
      exact (unlink_turn h hst hcall t).led hst
    | undo path errno =>
      cases hprog
      exact (undone_turn h hst hcall t).led hst
    | shut errno =>
      cases hprog
      exact (shut_turn h hst hcall t).led hst
    | gives => cases hprog

/-- The result that a stage hands back. -/
theorem results_lead (h : Sound tr k) {st : Stage} (hst : st.Holds k) {r : Result} (hprog : st.prog = .done r)
    (t : T) : Leaves tr (tr ++ [.left t k r]) k (k.handBack r) st := by
  cases st with
  | idle r' =>
    cases hprog
    exact hands_nothing h hst t fun _ => id
  | asking dir => cases hprog
  | making dir =>
    rw [Stage.prog, tmpfileMkstemp] at hprog
    by_cases hlong : pathMax < dir.length + (slipTmpfileLeaf.length + 1)
    · rw [if_pos hlong] at hprog
      cases hprog
      exact hands_nothing h (fun fd he => by cases he) t fun _ => id
    · rw [if_neg hlong] at hprog
      cases hprog
  | linking fd path => cases hprog
  | working w fd ino =>
    cases w with
    | fchmod path => cases hprog
    | getfd path => cases hprog
    | setfd path flags => cases hprog
    | unlink path => cases hprog
    | undo path errno => cases hprog
    | shut errno => cases hprog
    | gives =>
      cases hprog
      exact hands_file h hst t

end SlipstreamIO.Tmpfile
