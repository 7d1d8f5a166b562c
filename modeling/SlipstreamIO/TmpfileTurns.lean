import SlipstreamIO.TmpfileOutline

/-! Every turn of a call, and every act of others, leads from stage to stage. -/
namespace SlipstreamIO.Tmpfile
open Engine Runs Interleaved

variable {T : Type} {tr tr' : List (TmpReport T)} {k k' : Kernel}

/-- From a stage with a file to the next one with it. -/
theorem Carry.works {w w' : Work} {fd ino : ℕ} (hold : w.Sees (k.view ino) fd ino) (hmade : k'.made = k.made)
    (hviews : ∀ i, i ≠ ino → k'.view i = k.view i) (hsees : w'.Sees (k'.view ino) fd ino)
    (hnamed : w'.named = true → w.named = true)
    (hnames : w'.named = true ∨ (k'.view ino).names = [] ∨ Refused tr' ino)
    (htr : ∀ i, Refused tr i → Refused tr' i) :
    Carry tr tr' k k' (.working w fd ino) (.working w' fd ino) := by
  have hown : ∀ {v : Work} {i : ℕ}, (Stage.working v fd ino).Owns (.file i) → i = ino := by
    intro v i howns
    rcases howns with hfile | hfd | ⟨-, hname⟩
    · exact Res.file.inj hfile
    · cases hfd
    · cases hname
  constructor
  · exact hmade.ge
  · intro i hi _
    exact hviews i fun he => hi (Or.inl (he ▸ rfl))
  · intro n d hd hheld
    have hview := Kernel.view_fds_of hd
    rw [← hviews d.ino (hold.ne_of_held hd hheld)] at hview
    exact (Kernel.view_fds.mp hview).1
  · intro r howns
    rcases howns with hfile | hfd | ⟨hn, hname⟩
    · exact Or.inl (Or.inl hfile)
    · exact Or.inl (Or.inr (Or.inl hfd))
    · exact Or.inl (Or.inr (Or.inr ⟨hnamed hn, hname⟩))
  · intro i n d hfile hd
    obtain rfl : i = ino := hfile.elim hown hown
    obtain ⟨hd, hino⟩ := Kernel.view_fds.mp hd
    obtain ⟨rfl, -⟩ := hsees.unique hd hino
    exact Or.inl (Or.inr (Or.inl rfl))
  · intro i hfile hneeds
    obtain rfl : i = ino := hfile.elim hown hown
    rcases hnames with hn | hnil | hrefused
    · exact Or.inl (Or.inr (Or.inr ⟨hn, rfl⟩))
    · exact absurd hnil hneeds.2.1
    · exact absurd hrefused hneeds.2.2
  · exact htr

/-- Between two stages that own nothing, while the kernel stays. -/
theorem Carry.waits {st st' : Stage} (hst : ∀ r, ¬ st.Owns r) (hst' : ∀ r, ¬ st'.Owns r)
    (htr : ∀ i, Refused tr i → Refused tr' i) : Carry tr tr' k k st st' := by
  constructor
  · exact le_rfl
  · exact fun _ _ _ => rfl
  · exact fun _ _ hd _ => hd
  · exact fun r howns => absurd howns (hst' r)
  · exact fun _ _ _ howns => (howns.elim (hst _) (hst' _)).elim
  · exact fun _ howns => (howns.elim (hst _) (hst' _)).elim
  · exact htr

/-- A file is made. -/
theorem Carry.makes {st : Stage} {w : Work} {fd : ℕ} {name : Option FilePath} {inode : Inode} {cloexec : Bool}
    (hok : k.Ok) (hst : ∀ r, ¬ st.Owns r) (hfree : k.fds fd = none) (hnamed : w.named = name.isSome)
    (htr : ∀ i, Refused tr i → Refused tr' i) :
    Carry tr tr' k (k.create fd name inode cloexec) st (.working w fd k.made) := by
  have hown : ∀ {i : ℕ}, st.Owns (.file i) ∨ (Stage.working w fd k.made).Owns (.file i) → i = k.made := by
    intro i howns
    rcases howns with howns | hfile | hfd | ⟨-, hname⟩
    · exact absurd howns (hst _)
    · exact Res.file.inj hfile
    · cases hfd
    · cases hname
  constructor
  · exact Nat.le_succ _
  · intro i _ hi
    exact Kernel.view_create_of_ne hfree (fun he => hi (Or.inl (he ▸ rfl))) name inode cloexec
  · intro n d hd _
    have hne : n ≠ fd := by
      rintro rfl
      rw [hfree] at hd
      cases hd
    exact (Function.update_of_ne hne _ _).trans hd
  · intro r howns
    rcases howns with rfl | rfl | ⟨-, rfl⟩
    · exact Or.inr le_rfl
    · exact Or.inr hfree
    · exact Or.inr le_rfl
  · intro i n d howns hd
    obtain rfl := hown howns
    rw [hok.view_create] at hd
    by_cases hn : n = fd
    · exact Or.inl (Or.inr (Or.inl (congrArg Res.fd hn)))
    · have hd : (if n = fd then some (Desc.mk k.made cloexec false) else none) = some d := hd
      rw [if_neg hn] at hd
      cases hd
  · intro i howns hneeds
    obtain rfl := hown howns
    refine Or.inl (Or.inr (Or.inr ⟨?_, rfl⟩))
    have hnames := hneeds.2.1
    rw [hok.view_create] at hnames
    rw [hnamed]
    cases name with
    | none => exact absurd rfl hnames
    | some path => rfl
  · exact htr

/-- What a turn leads to. -/
def Turned (tr : List (TmpReport T)) (k k' : Kernel) (st : Stage) (e : TmpReport T) (p : Call) : Prop :=
  ∃ st' : Stage, st'.prog = p ∧ st'.Holds k' ∧ Sound (tr ++ [e]) k' ∧ Carry tr (tr ++ [e]) k k' st st'

/-- A report that is neither a descriptor handed back nor a link granted. -/
structure Plain (e : TmpReport T) : Prop where
  given : ∀ t k fd, e ≠ .left t k (.file (.ok fd))
  linked : ∀ t k k' fd path, e ≠ .called t k k' (.linkat fd path) (.ok ())

theorem Plain.called {t : T} {k k' : Kernel} {c : SysCall} {a : Answer c} (hc : ∀ fd path, c ≠ .linkat fd path) :
    Plain (Report.called t k k' c a : TmpReport T) := by
  constructor
  · intro t' k'' fd he
    cases he
  · intro t' j j' fd path he
    cases he
    exact hc fd path rfl

/-- After a turn: the kernel is well formed again, and no file without a name got one. -/
theorem Sound.plain (h : Sound tr k) {e : TmpReport T} (he : Plain e) (hok : k'.Ok)
    (hanon : ∀ path ino, (path, ino) ∈ k'.entries → (k'.inodes ino).arm = .anon →
      ∃ p, (p, ino) ∈ k.entries ∧ (k.inodes ino).arm = .anon) : Sound (tr ++ [e]) k' := by
  refine ⟨hok, ?_, ?_, ?_⟩
  · intro path ino hentry harm
    obtain ⟨p, hp, harm⟩ := hanon path ino hentry harm
    exact (h.anon p ino hp harm).append e
  · intro t j fd hmem
    rcases List.mem_append.mp hmem with hold | hnew
    · exact h.given t j fd hold
    · exact absurd (List.mem_singleton.mp hnew).symm (he.given t j fd)
  · intro t j j' fd path hmem
    rcases List.mem_append.mp hmem with hold | hnew
    · exact h.linked t j j' fd path hold
    · exact absurd (List.mem_singleton.mp hnew).symm (he.linked t j j' fd path)

/-- A call that changed nothing. -/
theorem Sound.same (h : Sound tr k) {e : TmpReport T} (he : Plain e) : Sound (tr ++ [e]) k :=
  h.plain he h.ok fun path _ hentry harm => ⟨path, hentry, harm⟩

/-- A new file that is made with a name has no arm to be linked later. -/
theorem Sound.created (h : Sound tr k) {e : TmpReport T} (he : Plain e) {fd : ℕ} {name : Option FilePath}
    {inode : Inode} (cloexec : Bool) (hname : ∀ path, name = some path → path ∉ k.names)
    (harm : name = none ∨ inode.arm ≠ .anon) : Sound (tr ++ [e]) (k.create fd name inode cloexec) := by
  apply h.plain he (h.ok.create hname inode cloexec)
  intro path ino hentry hanon
  rcases List.mem_append.mp hentry with hnew | hold
  · obtain ⟨p, hp, hpair⟩ := Option.map_eq_some_iff.mp (Option.mem_toList.mp hnew)
    obtain rfl : k.made = ino := (Prod.mk.inj hpair).2
    have hinode : (k.create fd name inode cloexec).inodes k.made = inode := Function.update_self _ _ _
    rw [hinode] at hanon
    rcases harm with hnone | hne
    · rw [hnone] at hp
      cases hp
    · exact absurd hanon hne
  · have hne : ino ≠ k.made := Nat.ne_of_lt (h.ok.entries path ino hold)
    have hinode : (k.create fd name inode cloexec).inodes ino = k.inodes ino := Function.update_of_ne hne _ _
    rw [hinode] at hanon
    exact ⟨path, hold, hanon⟩

theorem asking_turn (h : Sound tr k) {dir : FilePath} {o : Outcome} {a : Answer (.tmpfile dir ownerOnly)}
    (hcall : k.call (.tmpfile dir ownerOnly) o = some (k', a)) (t : T) :
    Turned tr k k' (.asking dir) (.called t k k' (.tmpfile dir ownerOnly) a) (tmpfileAnswered dir a) := by
  have hplain : Plain (Report.called t k k' (.tmpfile dir ownerOnly) a : TmpReport T) :=
    Plain.called fun fd path he => by cases he
  cases o with
  | refuses errno =>
    simp only [Kernel.call, Kernel.refuse, Option.some.injEq, Prod.mk.injEq] at hcall
    obtain ⟨rfl, rfl⟩ := hcall
    by_cases hfalls : fallsThrough errno = true
    · refine ⟨.making dir, (if_pos hfalls).symm, trivial, h.same hplain, ?_⟩
      exact Carry.waits (fun _ => id) (fun _ => id) fun i hi => hi.append _
    · refine ⟨.idle (.file (.error errno)), (if_neg hfalls).symm, ?_, h.same hplain, ?_⟩
      · intro fd he
        cases he
      · exact Carry.waits (fun _ => id) (fun _ => id) fun i hi => hi.append _
  | works newfd newpath mode cloexec =>
    simp only [Kernel.call, Kernel.grant] at hcall
    by_cases hfree : k.fds newfd = none
    · rw [if_pos hfree] at hcall
      obtain ⟨rfl, rfl⟩ := Prod.mk.inj (Option.some.inj hcall)
      refine ⟨.working .gives newfd k.made, rfl, ⟨Nat.lt_succ_self _, ?_⟩, ?_, ?_⟩
      · show Private _ newfd k.made
        rw [h.ok.view_create]
        refine ⟨rfl, rfl, rfl, ?_, Or.inl rfl⟩
        show ownerOnly &&& ~~~k.umask &&& 0o077 = 0
        rw [BitVec.and_assoc, BitVec.and_comm (~~~k.umask), ← BitVec.and_assoc]
        have hdisjoint : ownerOnly &&& 0o077 = 0 := by decide
        rw [hdisjoint]
        exact BitVec.zero_and
      · exact h.created hplain true (fun path hpath => by cases hpath) (Or.inl rfl)
      · exact Carry.makes h.ok (fun _ => id) hfree rfl fun i hi => hi.append _
    · rw [if_neg hfree] at hcall
      cases hcall

theorem mkstemp_turn (h : Sound tr k) {dir template : FilePath} {o : Outcome} {a : Answer (.mkstemp template)}
    (hcall : k.call (.mkstemp template) o = some (k', a)) (t : T) :
    Turned tr k k' (.making dir) (.called t k k' (.mkstemp template) a)
      (tmpfileNamed a) := by
  have hplain : Plain (Report.called t k k' (.mkstemp template) a : TmpReport T) :=
    Plain.called fun fd path he => by cases he
  cases o with
  | refuses errno =>
    simp only [Kernel.call, Kernel.refuse, Option.some.injEq, Prod.mk.injEq] at hcall
    obtain ⟨rfl, rfl⟩ := hcall
    refine ⟨.idle (.file (.error errno)), rfl, ?_, h.same hplain, ?_⟩
    · intro fd he
      cases he
    · exact Carry.waits (fun _ => id) (fun _ => id) fun i hi => hi.append _
  | works newfd newpath mode cloexec =>
    simp only [Kernel.call, Kernel.grant] at hcall
    by_cases hok : k.fds newfd = none ∧ k.taken newpath = false ∧ Fills template newpath
    · rw [if_pos hok] at hcall
      obtain ⟨rfl, rfl⟩ := Prod.mk.inj (Option.some.inj hcall)
      refine ⟨.working (.fchmod newpath) newfd k.made, rfl, ⟨Nat.lt_succ_self _, cloexec, ?_⟩, ?_, ?_⟩
      · rw [h.ok.view_create]
        exact ⟨rfl, rfl, rfl, rfl, rfl⟩
      · apply h.created hplain cloexec
        · intro path hpath
          obtain rfl := Option.some.inj hpath
          exact Kernel.not_taken (Bool.not_eq_true _ ▸ hok.2.1)
        · exact Or.inr fun harm => by cases harm
      · exact Carry.makes h.ok (fun _ => id) hok.1 rfl fun i hi => hi.append _
    · rw [if_neg hok] at hcall
      cases hcall

/-- A call of a stage with a file that fails: the kernel stays, and the file is to be undone. -/
theorem undo_turn (h : Sound tr k) {w : Work} {fd ino : ℕ} {path : FilePath} {errno : Int32} {e : TmpReport T}
    (he : Plain e) (hlt : ino < k.made) (hold : w.Sees (k.view ino) fd ino)
    (hin : ∃ c, InHand (k.view ino) fd ino c [path]) (hnamed : w.named = true) :
    Turned tr k k (.working w fd ino) e (tmpfileFail path fd errno) := by
  refine ⟨.working (.undo path errno) fd ino, rfl, ⟨hlt, hin⟩, h.same he, ?_⟩
  exact Carry.works hold rfl (fun _ _ => rfl) hin (fun _ => hnamed) (Or.inl rfl) fun i hi => hi.append _

theorem Kernel.setMode_arm (k : Kernel) (i j : ℕ) (mode : BitVec 12) :
    ((k.setMode i mode).inodes j).arm = (k.inodes j).arm := by
  by_cases hj : j = i
  · have hinode : (k.setMode i mode).inodes i = { k.inodes i with mode := mode } := Function.update_self _ _ _
    rw [hj, hinode]
  · have hinode : (k.setMode i mode).inodes j = k.inodes j := Function.update_of_ne hj _ _
    rw [hinode]

theorem fchmod_turn (h : Sound tr k) {path : FilePath} {fd ino : ℕ} {o : Outcome}
    {a : Answer (.fchmod fd ownerOnly)} (hst : (Stage.working (.fchmod path) fd ino).Holds k)
    (hcall : k.call (.fchmod fd ownerOnly) o = some (k', a)) (t : T) :
    Turned tr k k' (.working (.fchmod path) fd ino) (.called t k k' (.fchmod fd ownerOnly) a)
      (orFail path fd (fun _ => tmpfileGetfd path fd) a) := by
  have hplain : Plain (Report.called t k k' (.fchmod fd ownerOnly) a : TmpReport T) :=
    Plain.called fun fd path he => by cases he
  obtain ⟨hlt, c, hin⟩ := hst
  have hsees : (Work.fchmod path).Sees (k.view ino) fd ino := ⟨c, hin⟩
  obtain ⟨c', hd⟩ := hsees.desc
  cases o with
  | refuses errno =>
    simp only [Kernel.call, Kernel.refuse, Option.some.injEq, Prod.mk.injEq] at hcall
    obtain ⟨rfl, rfl⟩ := hcall
    exact undo_turn h hplain hlt hsees ⟨c, hin⟩ rfl
  | works newfd newpath mode cloexec =>
    simp only [Kernel.call, Kernel.grant, hd] at hcall
    obtain ⟨rfl, rfl⟩ := Prod.mk.inj (Option.some.inj hcall)
    have hviews : ∀ i, i ≠ ino → (k.setMode ino ownerOnly).view i = k.view i := by
      intro i hi
      rw [Kernel.view_setMode, if_neg hi]
    have hview : (k.setMode ino ownerOnly).view ino =
        { k.view ino with inode := { k.inodes ino with mode := ownerOnly } } := by
      rw [Kernel.view_setMode, if_pos rfl]
    have hsees' : (Work.getfd path).Sees ((k.setMode ino ownerOnly).view ino) fd ino := by
      rw [hview]
      exact ⟨rfl, c, hin.names, hin.unseen, hin.fds, hin.arm, hin.linkable⟩
    refine ⟨.working (.getfd path) fd ino, rfl, ⟨hlt, hsees'⟩, ?_, ?_⟩
    · apply h.plain hplain (h.ok.setMode ino ownerOnly)
      intro p i hentry harm
      rw [Kernel.setMode_arm] at harm
      exact ⟨p, hentry, harm⟩
    · exact Carry.works hsees rfl hviews hsees' (fun _ => rfl) (Or.inl rfl) fun i hi => hi.append _

theorem getfd_turn (h : Sound tr k) {path : FilePath} {fd ino : ℕ} {o : Outcome} {a : Answer (.getfd fd)}
    (hst : (Stage.working (.getfd path) fd ino).Holds k) (hcall : k.call (.getfd fd) o = some (k', a)) (t : T) :
    Turned tr k k' (.working (.getfd path) fd ino) (.called t k k' (.getfd fd) a)
      (orFail path fd (tmpfileSetfd path fd) a) := by
  have hplain : Plain (Report.called t k k' (.getfd fd) a : TmpReport T) :=
    Plain.called fun fd path he => by cases he
  obtain ⟨hlt, hsees⟩ := hst
  obtain ⟨c, hd⟩ := hsees.desc
  cases o with
  | refuses errno =>
    simp only [Kernel.call, Kernel.refuse, Option.some.injEq, Prod.mk.injEq] at hcall
    obtain ⟨rfl, rfl⟩ := hcall
    exact undo_turn h hplain hlt hsees hsees.2 rfl
  | works newfd newpath mode cloexec =>
    simp only [Kernel.call, Kernel.grant, hd] at hcall
    obtain ⟨rfl, rfl⟩ := Prod.mk.inj (Option.some.inj hcall)
    refine ⟨.working (.setfd path _) fd ino, rfl, ⟨hlt, hsees⟩, h.same hplain, ?_⟩
    exact Carry.works hsees rfl (fun _ _ => rfl) hsees (fun _ => rfl) (Or.inl rfl) fun i hi => hi.append _

/-- A flag that was set is set. -/
theorem or_and_absorb (flags flag : UInt32) : (flags ||| flag) &&& flag = flag := by
  apply UInt32.toBitVec_inj.mp
  rw [UInt32.toBitVec_and, UInt32.toBitVec_or]
  apply BitVec.eq_of_getLsbD_eq
  intro i _
  rw [BitVec.getLsbD_and, BitVec.getLsbD_or]
  cases flag.toBitVec.getLsbD i with
  | false => exact Bool.and_false _
  | true => rw [Bool.or_true, Bool.and_true]

theorem setfd_turn (h : Sound tr k) {path : FilePath} {fd ino : ℕ} {flags : UInt32} {o : Outcome}
    {a : Answer (.setfd fd (flags ||| fdCloexec))} (hst : (Stage.working (.setfd path flags) fd ino).Holds k)
    (hcall : k.call (.setfd fd (flags ||| fdCloexec)) o = some (k', a)) (t : T) :
    Turned tr k k' (.working (.setfd path flags) fd ino) (.called t k k' (.setfd fd (flags ||| fdCloexec)) a)
      (orFail path fd (fun _ => tmpfileUnlink path fd) a) := by
  have hplain : Plain (Report.called t k k' (.setfd fd (flags ||| fdCloexec)) a : TmpReport T) :=
    Plain.called fun fd path he => by cases he
  obtain ⟨hlt, hsees⟩ := hst
  obtain ⟨c, hd⟩ := Work.Sees.desc hsees
  cases o with
  | refuses errno =>
    simp only [Kernel.call, Kernel.refuse, Option.some.injEq, Prod.mk.injEq] at hcall
    obtain ⟨rfl, rfl⟩ := hcall
    exact undo_turn h hplain hlt hsees hsees.2 rfl
  | works newfd newpath mode cloexec =>
    -- the flag is in what is written, whatever was there before
    have hflag : decide ((flags ||| fdCloexec) &&& fdCloexec = fdCloexec) = true :=
      decide_eq_true (or_and_absorb flags fdCloexec)
    simp only [Kernel.call, Kernel.grant, hd, hflag] at hcall
    obtain ⟨rfl, rfl⟩ := Prod.mk.inj (Option.some.inj hcall)
    obtain ⟨hmode, c', hin⟩ := hsees
    have hviews : ∀ i, i ≠ ino → (k.setDesc fd (some ⟨ino, true, false⟩)).view i = k.view i := by
      intro i hi
      apply Kernel.view_setDesc_of_ne
      · intro d hd'
        rw [hd, Option.some.injEq] at hd'
        rw [← hd']
        exact fun he => hi he.symm
      · intro d hd'
        rw [← Option.some.inj hd']
        exact fun he => hi he.symm
    have hsees' : (Work.unlink path).Sees ((k.setDesc fd (some ⟨ino, true, false⟩)).view ino) fd ino := by
      rw [Kernel.view_setDesc]
      refine ⟨hmode, hin.names, hin.unseen, ?_, hin.arm, hin.linkable⟩
      funext n
      by_cases hn : n = fd
      · subst hn
        simp [only]
      · simp [only, hin.fds, hn]
    refine ⟨.working (.unlink path) fd ino, rfl, ⟨hlt, hsees'⟩, ?_, ?_⟩
    · apply h.plain hplain
      · apply h.ok.setDesc
        · intro d hd'
          rw [← Option.some.inj hd']
          exact hlt
        · intro d hd' hheld
          rw [← Option.some.inj hd'] at hheld
          cases hheld
      · exact fun p _ hentry harm => ⟨p, hentry, harm⟩
    · exact Carry.works ⟨hmode, c', hin⟩ rfl hviews hsees' (fun _ => rfl) (Or.inl rfl) fun i hi => hi.append _

/-- The name of the file in hand is there. -/
theorem InHand.entry {fd ino : ℕ} {c : Bool} {path : FilePath} (h : InHand (k.view ino) fd ino c [path]) :
    (path, ino) ∈ k.entries := by
  apply Kernel.mem_view_names.mp
  rw [h.names]
  exact List.mem_singleton_self path

/-- The removal of the one name that the file has. -/
theorem InHand.dropped {fd ino : ℕ} {c : Bool} {path : FilePath} (h : InHand (k.view ino) fd ino c [path]) :
    InHand ((k.dropEntry path).view ino) fd ino c [] := by
  rw [Kernel.view_dropEntry]
  refine ⟨?_, h.unseen, h.fds, h.arm, h.linkable⟩
  rw [h.names]
  simp

theorem Kernel.Ok.dropped_views (h : k.Ok) {path : FilePath} {ino : ℕ} (hentry : (path, ino) ∈ k.entries) {i : ℕ}
    (hi : i ≠ ino) : (k.dropEntry path).view i = k.view i := by
  apply Kernel.view_dropEntry_of_notMem
  intro hmem
  exact hi (Kernel.entry_unique h.names hmem hentry)

theorem Sound.dropped (h : Sound tr k) {e : TmpReport T} (he : Plain e) (path : FilePath) :
    Sound (tr ++ [e]) (k.dropEntry path) :=
  h.plain he (h.ok.dropEntry path) fun p _ hentry harm => ⟨p, (List.mem_filter.mp hentry).1, harm⟩

theorem unlink_turn (h : Sound tr k) {path : FilePath} {fd ino : ℕ} {o : Outcome} {a : Answer (.unlink path)}
    (hst : (Stage.working (.unlink path) fd ino).Holds k) (hcall : k.call (.unlink path) o = some (k', a))
    (t : T) : Turned tr k k' (.working (.unlink path) fd ino) (.called t k k' (.unlink path) a)
      (orFail path fd (fun _ => .done (.file (.ok fd))) a) := by
  have hplain : Plain (Report.called t k k' (.unlink path) a : TmpReport T) :=
    Plain.called fun fd path he => by cases he
  obtain ⟨hlt, hsees⟩ := hst
  obtain ⟨hmode, hin⟩ := id hsees
  cases o with
  | refuses errno =>
    simp only [Kernel.call, Kernel.refuse, Option.some.injEq, Prod.mk.injEq] at hcall
    obtain ⟨rfl, rfl⟩ := hcall
    exact undo_turn h hplain hlt hsees ⟨true, hin⟩ rfl
  | works newfd newpath mode cloexec =>
    simp only [Kernel.call, Kernel.grant,
      if_pos (Kernel.taken_iff.mpr (Kernel.mem_names_of_mem hin.entry))] at hcall
    obtain ⟨rfl, rfl⟩ := Prod.mk.inj (Option.some.inj hcall)
    have hdropped := hin.dropped
    have hsees' : Work.gives.Sees ((k.dropEntry path).view ino) fd ino := by
      refine ⟨hdropped.names, hdropped.unseen, hdropped.fds, ?_, Or.inr ⟨hdropped.arm, hmode, hdropped.linkable⟩⟩
      have hmode : ((k.dropEntry path).view ino).inode.mode = ownerOnly := hmode
      rw [hmode]
      decide
    refine ⟨.working .gives fd ino, rfl, ⟨hlt, hsees'⟩, h.dropped hplain path, ?_⟩
    exact Carry.works hsees rfl (fun i hi => h.ok.dropped_views hin.entry hi) hsees' (fun _ => rfl)
      (Or.inr (Or.inl hdropped.names)) fun i hi => hi.append _

theorem undone_turn (h : Sound tr k) {path : FilePath} {fd ino : ℕ} {errno : Int32} {o : Outcome}
    {a : Answer (.unlink path)} (hst : (Stage.working (.undo path errno) fd ino).Holds k)
    (hcall : k.call (.unlink path) o = some (k', a)) (t : T) :
    Turned tr k k' (.working (.undo path errno) fd ino) (.called t k k' (.unlink path) a)
      (.call (.close fd) fun _ => .done (.file (.error errno))) := by
  have hplain : Plain (Report.called t k k' (.unlink path) a : TmpReport T) :=
    Plain.called fun fd path he => by cases he
  obtain ⟨hlt, hsees⟩ := hst
  obtain ⟨c, hin⟩ := id hsees
  cases o with
  | refuses errno' =>
    simp only [Kernel.call, Kernel.refuse, Option.some.injEq, Prod.mk.injEq] at hcall
    obtain ⟨rfl, rfl⟩ := hcall
    refine ⟨.working (.shut errno) fd ino, rfl, ⟨hlt, c, [path], hin⟩, h.same hplain, ?_⟩
    have hshut : (Work.shut errno).Sees (k.view ino) fd ino := ⟨c, [path], hin⟩
    -- the name stays, and this is reported
    apply Carry.works hsees rfl (fun _ _ => rfl) hshut (fun _ => rfl) _ fun i hi => hi.append _
    refine Or.inr (Or.inr ⟨t, k, k, path, errno', ?_, hin.entry⟩)
    exact List.mem_append_right _ (List.mem_singleton_self _)
  | works newfd newpath mode cloexec =>
    simp only [Kernel.call, Kernel.grant,
      if_pos (Kernel.taken_iff.mpr (Kernel.mem_names_of_mem hin.entry))] at hcall
    obtain ⟨rfl, rfl⟩ := Prod.mk.inj (Option.some.inj hcall)
    have hdropped := hin.dropped
    have hshut : (Work.shut errno).Sees ((k.dropEntry path).view ino) fd ino := ⟨c, [], hdropped⟩
    refine ⟨.working (.shut errno) fd ino, rfl, ⟨hlt, hshut⟩, h.dropped hplain path, ?_⟩
    exact Carry.works hsees rfl (fun i hi => h.ok.dropped_views hin.entry hi) hshut (fun _ => rfl)
      (Or.inr (Or.inl hdropped.names)) fun i hi => hi.append _

theorem Kernel.setDesc_fds_of_ne (k : Kernel) {n fd : ℕ} (hn : n ≠ fd) (d : Option Desc) :
    (k.setDesc fd d).fds n = k.fds n := Function.update_of_ne hn _ _

/-- Other files do not see what becomes of the descriptor. -/
theorem Work.Sees.desc_views {w : Work} {fd ino : ℕ} (h : w.Sees (k.view ino) fd ino) {d : Option Desc}
    (hd : ∀ d', d = some d' → d'.ino = ino) {i : ℕ} (hi : i ≠ ino) : (k.setDesc fd d).view i = k.view i := by
  obtain ⟨c, hc⟩ := h.desc
  apply Kernel.view_setDesc_of_ne
  · intro d' hd'
    rw [hc, Option.some.injEq] at hd'
    rw [← hd']
    exact fun he => hi he.symm
  · intro d' hd'
    rw [hd d' hd']
    exact fun he => hi he.symm

/-- The descriptor goes, and with it the file, unless a name stays. -/
theorem shut_carries {fd ino : ℕ} {errno : Int32} (hsees : (Work.shut errno).Sees (k.view ino) fd ino)
    (r : Result) (htr : ∀ i, Refused tr i → Refused tr' i) :
    Carry tr tr' k (k.setDesc fd none) (.working (.shut errno) fd ino) (.idle r) := by
  have hown : ∀ {i : ℕ}, (Stage.working (.shut errno) fd ino).Owns (.file i) ∨ (Stage.idle r).Owns (.file i) →
      i = ino := by
    intro i howns
    rcases howns with hfile | hidle
    · rcases hfile with hfile | hfd | ⟨-, hname⟩
      · exact Res.file.inj hfile
      · cases hfd
      · cases hname
    · exact hidle.elim
  constructor
  · exact le_rfl
  · intro i hi _
    exact hsees.desc_views (fun _ hd => by cases hd) fun he => hi (Or.inl (he ▸ rfl))
  · intro n d hd hheld
    have hne : n ≠ fd := by
      rintro rfl
      obtain ⟨c, hc⟩ := hsees.desc
      rw [hc, Option.some.injEq] at hd
      subst hd
      cases hheld
    rw [Kernel.setDesc_fds_of_ne k hne]
    exact hd
  · exact fun _ howns => howns.elim
  · intro i n d howns hd
    obtain rfl := hown howns
    obtain ⟨hd, hino⟩ := Kernel.view_fds.mp hd
    by_cases hn : n = fd
    · subst hn
      have hnone : (k.setDesc n none).fds n = none := Function.update_self _ _ _
      rw [hnone] at hd
      cases hd
    · rw [Kernel.setDesc_fds_of_ne k hn] at hd
      exact absurd (hsees.unique hd hino).1 hn
  · intro i howns hneeds
    obtain rfl := hown howns
    obtain ⟨harm, hnames, hrefused⟩ := hneeds
    rw [Kernel.view_setDesc] at hnames
    refine Or.inr ⟨⟨harm, hnames, fun hold => hrefused (htr i hold)⟩, ?_⟩
    intro hname
    rcases hname with hfile | hfd | ⟨hnamed, -⟩
    · cases hfile
    · cases hfd
    · cases hnamed
  · exact htr

theorem shut_turn (h : Sound tr k) {fd ino : ℕ} {errno : Int32} {o : Outcome} {a : Answer (.close fd)}
    (hst : (Stage.working (.shut errno) fd ino).Holds k) (hcall : k.call (.close fd) o = some (k', a)) (t : T) :
    Turned tr k k' (.working (.shut errno) fd ino) (.called t k k' (.close fd) a)
      (.done (.file (.error errno))) := by
  have hplain : Plain (Report.called t k k' (.close fd) a : TmpReport T) :=
    Plain.called fun fd path he => by cases he
  obtain ⟨c, hd⟩ := Work.Sees.desc hst.2
  have hclosed : k' = k.setDesc fd none := by
    cases o with
    | refuses errno' =>
      simp only [Kernel.call, Kernel.refuse, Option.some.injEq, Prod.mk.injEq] at hcall
      exact hcall.1.symm
    | works newfd newpath mode cloexec =>
      have hopen : ¬ k.fds fd = none := by
        rw [hd]
        exact Option.some_ne_none _
      simp only [Kernel.call, Kernel.grant, if_neg hopen, Option.some.injEq, Prod.mk.injEq] at hcall
      exact hcall.1.symm
  subst hclosed
  refine ⟨.idle (.file (.error errno)), rfl, ?_, ?_, ?_⟩
  · intro fd he
    cases he
  · apply h.plain hplain
    · exact h.ok.setDesc (fun _ hd => by cases hd) fun _ hd => by cases hd
    · exact fun p _ hentry harm => ⟨p, hentry, harm⟩
  · exact shut_carries hst.2 _ fun i hi => hi.append _

/-- What the rule asks of a call. -/
structure Led (tr tr' : List (TmpReport T)) (k k' : Kernel) (st st' : Stage) : Prop where
  holds : st'.Holds k'
  sound : Sound tr' k'
  others : ∀ su : Stage, su.Holds k → (∀ r, st.Owns r → ¬ su.Owns r) →
    su.Holds k' ∧ ∀ r, st'.Owns r → ¬ su.Owns r
  needs : ∀ r, Needs tr' k' r → st'.Owns r ∨ Needs tr k r ∧ ¬ st.Owns r

theorem Turned.led {st : Stage} {e : TmpReport T} {p : Call} (h : Turned tr k k' st e p) (hst : st.Holds k) :
    ∃ st' : Stage, st'.prog = p ∧ Led tr (tr ++ [e]) k k' st st' := by
  obtain ⟨st', hprog, hholds, hsound, hcarry⟩ := h
  exact ⟨st', hprog, hholds, hsound, fun _ hsu hapart => hcarry.others hsu hapart,
    fun _ hr => hcarry.needs hst hr⟩

theorem Kernel.addEntry_arm (k : Kernel) (path : FilePath) (i j : ℕ) :
    ((k.addEntry path i).inodes j).arm = (k.inodes j).arm := by
  by_cases hj : j = i
  · have hinode : (k.addEntry path i).inodes i = { k.inodes i with linkable := false } :=
      Function.update_self _ _ _
    rw [hj, hinode]
  · have hinode : (k.addEntry path i).inodes j = k.inodes j := Function.update_of_ne hj _ _
    rw [hinode]

/-- A file that is not in hand gets a name. -/
theorem Stage.Holds.addEntry {su : Stage} (hsu : su.Holds k) {path : FilePath} {ino : ℕ}
    (hino : ∀ w fd i, su = .working w fd i → i ≠ ino) : su.Holds (k.addEntry path ino) := by
  cases su with
  | idle r => exact hsu
  | asking dir => exact trivial
  | making dir => exact trivial
  | linking fd path => exact hsu
  | working w fd i =>
    refine ⟨hsu.1, ?_⟩
    rw [Kernel.view_addEntry_of_ne (hino w fd i rfl)]
    exact hsu.2

/-- Where a file that is not one of mkstemp gets a name, nothing else needs an owner. -/
theorem Needs.addEntry {path : FilePath} {ino : ℕ} (harm : (k.inodes ino).arm ≠ .mkstemp)
    (htr : ∀ i, Refused tr i → Refused tr' i) {r : Res} (h : Needs tr' (k.addEntry path ino) r) :
    Needs tr k r := by
  cases r with
  | file i => exact h
  | fd n => exact h
  | name i =>
    obtain ⟨hmk, hnames, hrefused⟩ := h
    rw [Kernel.addEntry_arm] at hmk
    have hne : i ≠ ino := by
      rintro rfl
      exact harm hmk
    rw [Kernel.view_addEntry_of_ne hne] at hnames
    exact ⟨hmk, hnames, fun hold => hrefused (htr i hold)⟩

theorem linkat_turn (h : Sound tr k) {fd : ℕ} {path : FilePath} {o : Outcome} {a : Answer (.linkat fd path)}
    (hst : (Stage.linking fd path).Holds k) (hcall : k.call (.linkat fd path) o = some (k', a)) (t : T) :
    Led tr (tr ++ [.called t k k' (.linkat fd path) a]) k k' (.linking fd path) (.idle (.link a)) := by
  obtain ⟨d, hd, hheld⟩ := hst
  have hidle : (Stage.idle (.link a)).Holds k' := by
    intro fd he
    cases he
  have hfails : ∀ errno, k' = k → a = .error errno →
      Led tr (tr ++ [.called t k k' (.linkat fd path) a]) k k' (.linking fd path) (.idle (.link a)) := by
    intro errno hk ha
    subst hk ha
    have hplain : Plain (Report.called t k' k' (.linkat fd path) (.error errno) : TmpReport T) := by
      constructor
      · intro t' j fd' he
        cases he
      · intro t' j j' fd' path' he
        cases he
    have hcarry : Carry tr (tr ++ [.called t k' k' (.linkat fd path) (.error errno)]) k' k' (.linking fd path)
        (.idle (.link (.error errno))) := Carry.waits (fun _ => id) (fun _ => id) fun i hi => hi.append _
    exact ⟨hidle, h.same hplain, fun su hsu hapart => hcarry.others hsu hapart,
      fun r hr => hcarry.needs ⟨d, hd, hheld⟩ hr⟩
  cases o with
  | refuses errno =>
    simp only [Kernel.call, Kernel.refuse, Option.some.injEq, Prod.mk.injEq] at hcall
    exact hfails errno hcall.1.symm hcall.2.symm
  | works newfd newpath mode cloexec =>
    simp only [Kernel.call, Kernel.grant, hd] at hcall
    by_cases htaken : k.taken path = true
    · rw [if_pos htaken] at hcall
      obtain ⟨hk, ha⟩ := Prod.mk.inj (Option.some.inj hcall)
      exact hfails eexist hk.symm ha.symm
    rw [if_neg htaken] at hcall
    by_cases hcan : k.named d.ino = true ∨ (k.inodes d.ino).linkable = true
    · rw [if_pos hcan] at hcall
      obtain ⟨rfl, rfl⟩ := Prod.mk.inj (Option.some.inj hcall)
      -- a file of mkstemp that a caller has could not have got here
      have harm : (k.inodes d.ino).arm ≠ .mkstemp := by
        intro harm
        obtain ⟨hnames, hlinkable⟩ := h.ok.gone fd d hd hheld harm
        rcases hcan with hnamed | hyes
        · exact Kernel.named_iff.mp hnamed hnames
        · rw [hlinkable] at hyes
          cases hyes
      refine ⟨hidle, ⟨h.ok.addEntry (Kernel.not_taken htaken) (h.ok.descs fd d hd) harm, ?_, ?_, ?_⟩, ?_, ?_⟩
      · intro p i hentry hanon
        rw [Kernel.addEntry_arm] at hanon
        rcases List.mem_cons.mp hentry with hnew | hold
        · refine ⟨t, k, _, fd, path, d, List.mem_append_right _ (List.mem_singleton_self _), hd, ?_⟩
          exact (Prod.mk.inj hnew).2.symm
        · exact (h.anon p i hold hanon).append _
      · intro t' j fd' hmem
        rcases List.mem_append.mp hmem with hold | hnew
        · exact h.given t' j fd' hold
        · cases List.mem_singleton.mp hnew
      · intro t' j j' fd' path' hmem
        rcases List.mem_append.mp hmem with hold | hnew
        · exact h.linked t' j j' fd' path' hold
        · cases List.mem_singleton.mp hnew
          exact ⟨Kernel.not_taken htaken, d, hd, harm, rfl⟩
      · intro su hsu _
        refine ⟨hsu.addEntry ?_, fun _ howns => howns.elim⟩
        intro w n i hsu'
        subst hsu'
        exact fun he => hsu.2.ne_of_held hd hheld he.symm
      · intro r hr
        exact Or.inr ⟨hr.addEntry harm fun i hi => hi.append _, id⟩
    · rw [if_neg hcan] at hcall
      obtain ⟨hk, ha⟩ := Prod.mk.inj (Option.some.inj hcall)
      exact hfails enoent hk.symm ha.symm

end SlipstreamIO.Tmpfile
