import SlipstreamIO.TmpfileSafe

/-! What a caller of slipstream_tmpfile gets, and what a link of it does, in every interleaving. -/
namespace SlipstreamIO.Tmpfile
open Engine Runs Interleaved

variable {T : Type} {anonArm : Bool} {tr : List (TmpReport T)} {s : TmpState T} {k₀ : Kernel}

/-- A call of either function starts at a stage that owns nothing. -/
theorem calls_start {p : Call} (hp : (∃ dir tmpdir, p = slipstreamTmpfile anonArm dir tmpdir) ∨
    ∃ fd path, p = slipstreamTmpfileLink anonArm fd path ∧
      (0 ≤ fd → ∃ d, s.shared.fds fd.toNat = some d ∧ d.held = true)) :
    ∃ st : Stage, st.prog = p ∧ st.Holds s.shared ∧ ∀ r, ¬ st.Owns r := by
  have hidle : ∀ a, ∃ st : Stage, st.prog = .done (.link a) ∧ st.Holds s.shared ∧ ∀ r, ¬ st.Owns r := by
    intro a
    refine ⟨.idle (.link a), rfl, ?_, fun _ => id⟩
    intro fd he
    cases he
  rcases hp with ⟨dir, tmpdir, rfl⟩ | ⟨fd, path, rfl, hfd⟩
  · cases anonArm with
    | true => exact ⟨.asking (tmpfileDir dir tmpdir), rfl, trivial, fun _ => id⟩
    | false => exact ⟨.making (tmpfileDir dir tmpdir), rfl, trivial, fun _ => id⟩
  · cases path with
    | none => exact hidle _
    | some path =>
      rw [slipstreamTmpfileLink]
      by_cases hbad : fd < 0 ∨ path = []
      · rw [if_pos hbad]
        exact hidle _
      · rw [if_neg hbad]
        cases anonArm with
        | false => exact hidle _
        | true => exact ⟨.linking fd.toNat path, rfl, hfd (not_lt.mp (not_or.mp hbad).1), fun _ => id⟩

/-- The outline of the two functions. -/
theorem tmp_valid [DecidableEq T] :
    (tmpOutline : Outline Kernel T SysCall Answer Result Stage Res).Valid tmpWorld (Usual anonArm) := by
  constructor
  · intro tr s t p hp _
    exact calls_start hp
  · intro tr k t st c next o k' a hinv hst hprog hcall
    obtain ⟨st', hprog', hled⟩ := calls_lead hinv hst hprog hcall t
    exact ⟨st', hprog', hled.holds, hled.sound, hled.others, hled.needs⟩
  · intro tr k t st r hinv hst hprog
    have hleaves := results_lead hinv hst hprog t
    exact ⟨hleaves.sound, hleaves.others, hleaves.needs⟩
  · intro tr s x k hu hinv hx
    exact others_spare hinv hx hu

/-- What is true of the reports and of the state: a descriptor that was handed back was of a private file at
that moment; a descriptor that no caller has, and a name of mkstemp whose removal was not refused, are those
of a call that goes on. -/
structure PrivateFiles (tr : List (TmpReport T)) (s : TmpState T) : Prop where
  given : ∀ t k fd, .left t k (.file (.ok fd)) ∈ tr → ∃ ino, Private (k.view ino) fd ino
  descs : ∀ fd d, s.shared.fds fd = some d → d.held = false → ∃ t w, s.prog t = some (Work.prog fd w)
  names : ∀ path ino, (path, ino) ∈ s.shared.entries → (s.shared.inodes ino).arm = .mkstemp →
    Refused tr ino ∨ ∃ t w fd d, s.prog t = some (Work.prog fd w) ∧ w.named = true ∧
      s.shared.fds fd = some d ∧ d.ino = ino

/-- What a call of slipstream_tmpfile_link comes to: it made no system call, and answers an error; or it made
one linkat of its arguments and answers what that did, and where that is 0 the file got the name. -/
def LinkEnds [DecidableEq T] (t : T) (fd : ℤ) (path : Option FilePath) (tr : List (TmpReport T))
    (r : Result) : Prop :=
  (∃ errno, r = .link (.error errno)) ∧ reportsOf t tr = [] ∨
  ∃ p answer k k', path = some p ∧ 0 ≤ fd ∧ r = .link answer ∧
    reportsOf t tr = [.called t k k' (.linkat fd.toNat p) answer] ∧
    (answer = .ok () → Gains k k' fd.toNat p)

/-- What is true of names: a link that starts from here comes to what it answers, in any interleaving; a link
that was granted gave the file a name that was free; a file that was made without a name has one only after
such a link; a file that was unlinked, and that a caller has, has none. -/
structure HonestLinks [DecidableEq T] (anonArm : Bool) (tr : List (TmpReport T)) (s : TmpState T) : Prop where
  answers : ∀ t fd path s₁ tr' s₂ r, Usual anonArm s (.starts t (slipstreamTmpfileLink anonArm fd path)) →
    tmpWorld.step s (.starts t (slipstreamTmpfileLink anonArm fd path)) = some s₁ →
    Run tmpWorld.machine (fun s l => Usual anonArm s l ∧ l ≠ .leaves t) s₁ tr' s₂ →
    s₂.prog t = some (.done r) → LinkEnds t fd path tr' r
  gains : ∀ t k k' fd path, .called t k k' (.linkat fd path) (.ok ()) ∈ tr → Gains k k' fd path
  linked : ∀ path ino, (path, ino) ∈ s.shared.entries → (s.shared.inodes ino).arm = .anon → Linked tr ino
  gone : ∀ fd d, s.shared.fds fd = some d → d.held = true → (s.shared.inodes d.ino).arm = .mkstemp →
    ∀ path, (path, d.ino) ∉ s.shared.entries

section
variable [DecidableEq T]

theorem tmpfiles_fit (hk : Clean k₀) (hr : Run tmpWorld.machine (Usual anonArm) ⟨k₀, fun _ => none⟩ tr s) :
    ∃ stage, (tmpOutline : Outline Kernel T SysCall Answer Result Stage Res).Fits tr s stage := by
  apply tmp_valid.fits _ _ hr
  · refine ⟨hk.ok, ?_, fun _ _ _ hmem => absurd hmem List.not_mem_nil,
      fun _ _ _ _ _ hmem => absurd hmem List.not_mem_nil⟩
    intro path ino _ harm
    rw [hk.arm] at harm
    cases harm
  · intro r hr
    cases r with
    | file ino => exact hr
    | fd n =>
      obtain ⟨d, hd, hheld⟩ := hr
      rw [(hk.descs n d hd).2] at hheld
      cases hheld
    | name ino =>
      have harm := hr.1
      rw [hk.arm] at harm
      cases harm

/-- Temporary files are private, in any interleaving, whichever calls are refused. -/
theorem tmpfiles_are_private (hk : Clean k₀)
    (hr : Run tmpWorld.machine (Usual anonArm) ⟨k₀, fun _ => none⟩ tr s) : PrivateFiles tr s := by
  obtain ⟨stage, hfits⟩ := tmpfiles_fit hk hr
  have howner : ∀ r, Needs tr s.shared r → ∃ t st, stage t = some st ∧ st.Owns r := hfits.owned
  refine ⟨hfits.inv.given, ?_, ?_⟩
  · intro fd d hd hheld
    obtain ⟨t, st, hst, howns⟩ := howner (.fd fd) ⟨d, hd, hheld⟩
    have hprog := hfits.prog t
    rw [hst] at hprog
    cases st with
    | working w n ino =>
      rcases howns with hfile | hfd | ⟨-, hname⟩
      · cases hfile
      · obtain rfl := Res.fd.inj hfd
        exact ⟨t, w, hprog⟩
      · cases hname
    | idle r => exact howns.elim
    | asking dir => exact howns.elim
    | making dir => exact howns.elim
    | linking n path => exact howns.elim
  · intro path ino hentry harm
    by_cases hrefused : Refused tr ino
    · exact Or.inl hrefused
    have hnames : (s.shared.view ino).names ≠ [] := List.ne_nil_of_mem (Kernel.mem_view_names.mpr hentry)
    obtain ⟨t, st, hst, howns⟩ := howner (.name ino) ⟨harm, hnames, hrefused⟩
    have hprog := hfits.prog t
    have hholds : st.Holds s.shared := hfits.holds t st hst
    rw [hst] at hprog
    cases st with
    | working w n i =>
      rcases howns with hfile | hfd | ⟨hnamed, hname⟩
      · cases hfile
      · cases hfd
      · obtain rfl := Res.name.inj hname
        obtain ⟨c, hc⟩ := hholds.2.desc
        exact Or.inr ⟨t, w, n, _, hprog, hnamed, hc, rfl⟩
    | idle r => exact howns.elim
    | asking dir => exact howns.elim
    | making dir => exact howns.elim
    | linking n path => exact howns.elim

/-- A kernel in which nothing was made. -/
def emptyKernel : Kernel where
  inodes := fun _ => ⟨0, false, .outside⟩

theorem emptyKernel_clean : Clean emptyKernel := by
  constructor
  · exact List.nodup_nil
  · exact fun _ he => absurd he List.not_mem_nil
  · exact fun _ _ hd => by cases hd
  · exact fun _ hseen => by cases hseen
  · exact fun _ => rfl

/-- Two calls at once: one gets a file without a name, the other one of mkstemp, and both hand back. -/
theorem tmpfiles_are_private_two : ∃ (tr : List (TmpReport Bool)) (s : TmpState Bool),
    PrivateFiles tr s ∧ tr.length = 9 ∧ s.shared.made = 2 ∧ s.shared.entries = [] := by
  have h : Run tmpWorld.machine (Usual true) ⟨emptyKernel, fun _ : Bool => none⟩ [] _ := .start
  have h := h.next (l := .starts true (slipstreamTmpfile true none none))
    (by exact Or.inl ⟨none, none, rfl⟩) rfl
  have h := h.next (l := .starts false (slipstreamTmpfile true none none))
    (by exact Or.inl ⟨none, none, rfl⟩) rfl
  have h := h.next (l := .calls false (.refuses eopnotsupp)) (by exact trivial) rfl
  have h := h.next (l := .calls false (.works 4 (bytesOf "/tmp/slipstream-a1b2c3") 0o644 false))
    (by exact trivial) rfl
  have h := h.next (l := .calls true (.works 3 [] 0 false)) (by exact trivial) rfl
  have h := h.next (l := .calls false (.works 0 [] 0 false)) (by exact trivial) rfl
  have h := h.next (l := .leaves true) (by exact trivial) rfl
  have h := h.next (l := .calls false (.works 0 [] 0 false)) (by exact trivial) rfl
  have h := h.next (l := .calls false (.works 0 [] 0 false)) (by exact trivial) rfl
  have h := h.next (l := .calls false (.works 0 [] 0 false)) (by exact trivial) rfl
  have h := h.next (l := .leaves false) (by exact trivial) rfl
  exact ⟨_, _, tmpfiles_are_private emptyKernel_clean h, rfl, rfl, rfl⟩

theorem link_done {fd : ℤ} {path : Option FilePath} {r : Result}
    (h : slipstreamTmpfileLink anonArm fd path = .done r) : ∃ errno, r = .link (.error errno) := by
  cases path with
  | none => exact ⟨einval, (Prog.done.inj h).symm⟩
  | some p =>
    rw [slipstreamTmpfileLink] at h
    by_cases hbad : fd < 0 ∨ p = []
    · rw [if_pos hbad] at h
      exact ⟨einval, (Prog.done.inj h).symm⟩
    · rw [if_neg hbad] at h
      cases anonArm with
      | false => exact ⟨eopnotsupp, (Prog.done.inj h).symm⟩
      | true => cases h

/-- The one system call of a link. -/
theorem link_call {fd : ℤ} {path : Option FilePath} {c : SysCall} {next : Answer c → Call}
    (h : slipstreamTmpfileLink anonArm fd path = .call c next) :
    ∃ p, path = some p ∧ 0 ≤ fd ∧
      Prog.call c next = .call (.linkat fd.toNat p) fun answer => .done (.link answer) := by
  cases path with
  | none => cases h
  | some p =>
    rw [slipstreamTmpfileLink] at h
    by_cases hbad : fd < 0 ∨ p = []
    · rw [if_pos hbad] at h
      cases h
    · rw [if_neg hbad] at h
      cases anonArm with
      | false => cases h
      | true => exact ⟨p, rfl, not_lt.mp (not_or.mp hbad).1, h.symm⟩

/-- A link in the middle of it: it is still to make its call, or it has made it and answers what that did. -/
def InLink (anonArm : Bool) (t : T) (fd : ℤ) (path : Option FilePath) (tr : List (TmpReport T))
    (s : TmpState T) : Prop :=
  s.prog t = some (slipstreamTmpfileLink anonArm fd path) ∧ reportsOf t tr = [] ∨
  ∃ p answer k k', path = some p ∧ 0 ≤ fd ∧ s.prog t = some (.done (.link answer)) ∧
    reportsOf t tr = [.called t k k' (.linkat fd.toNat p) answer]

/-- A turn of another thread, or of others, leaves it where it is. -/
theorem InLink.keep {t : T} {fd : ℤ} {path : Option FilePath} {ev : List (TmpReport T)} {s' : TmpState T}
    (h : InLink anonArm t fd path tr s) (hprog : s'.prog t = s.prog t) (hev : reportsOf t ev = []) :
    InLink anonArm t fd path (tr ++ ev) s' := by
  have hreports : reportsOf t (tr ++ ev) = reportsOf t tr := by
    rw [reportsOf_append, hev, List.append_nil]
  rw [InLink, hprog, hreports]
  exact h

theorem InLink.step {t : T} {fd : ℤ} {path : Option FilePath} {s' : TmpState T} {l : TmpTurn T}
    (h : InLink anonArm t fd path tr s) (hl : l ≠ .leaves t) (hs : tmpWorld.step s l = some s') :
    InLink anonArm t fd path (tr ++ tmpWorld.events s l) s' := by
  have hbusy : s.prog t ≠ none := by
    rcases h with ⟨hprog, -⟩ | ⟨p, answer, k, k', -, -, hprog, -⟩
    · exact fun hno => by cases hno.symm.trans hprog
    · exact fun hno => by cases hno.symm.trans hprog
  rcases World.step_cases hs with ⟨u, q, -, hnone, hev, rfl⟩ | ⟨u, o, c, next, k, a, -, hcalls, hcall, hev, rfl⟩ |
      ⟨u, r, rfl, -, hev, rfl⟩ | ⟨x, k, -, -, hev, rfl⟩
  · have hu : u ≠ t := fun he => hbusy (he ▸ hnone)
    rw [hev]
    exact h.keep (Function.update_of_ne hu.symm _ _) rfl
  · rw [hev]
    by_cases hu : u = t
    · subst hu
      rcases h with ⟨hprog, hnone⟩ | ⟨p, answer, k, k', -, -, hprog, -⟩
      · obtain ⟨p, hpath, hfd, heq⟩ := link_call (Option.some.inj (hprog.symm.trans hcalls))
        cases heq
        refine .inr ⟨p, a, s.shared, k, hpath, hfd, Function.update_self _ _ _, ?_⟩
        rw [reportsOf_append, hnone]
        exact reportsOf_own rfl
      · cases hcalls.symm.trans hprog
    · exact h.keep (Function.update_of_ne (Ne.symm hu) _ _) (reportsOf_other hu)
  · have hu : u ≠ t := fun he => hl (he ▸ rfl)
    rw [hev]
    exact h.keep (Function.update_of_ne hu.symm _ _) (reportsOf_other hu)
  · rw [hev]
    exact h.keep rfl rfl

/-- A link answers what its one linkat did; it never replaces, never gives a name to a file that was
unlinked, and is the only way to one for a file that was made without. -/
theorem links_are_honest (hk : Clean k₀)
    (hr : Run tmpWorld.machine (Usual anonArm) ⟨k₀, fun _ => none⟩ tr s) : HonestLinks anonArm tr s := by
  obtain ⟨stage, hfits⟩ := tmpfiles_fit hk hr
  refine ⟨?_, hfits.inv.linked, hfits.inv.anon, ?_⟩
  · intro t fd path s₁ tr' s₂ r husual hstart hr' hdone
    have hstep : tmpWorld.machine.step s (.starts t (slipstreamTmpfileLink anonArm fd path)) = some s₁ := hstart
    have hall := (hr.next husual hstep).append (hr'.mono fun _ _ h => h.1)
    obtain ⟨stage', hfits'⟩ := tmpfiles_fit hk hall
    have hlink : InLink anonArm t fd path tr' s₂ := by
      apply hr'.invariant fun tr s => InLink anonArm t fd path tr s
      · rcases World.step_cases hstart with ⟨u, q, he, -, -, rfl⟩ | ⟨u, o, c, next, k, a, he, -⟩ |
          ⟨u, r, he, -⟩ | ⟨x, k, he, -⟩
        · obtain ⟨rfl, rfl⟩ := Turn.starts.inj he
          exact .inl ⟨Function.update_self _ _ _, rfl⟩
        · cases he
        · cases he
        · cases he
      · exact fun _ _ _ _ _ h hl hs => h.step hl.2 hs
    rcases hlink with ⟨hprog, hnone⟩ | ⟨p, answer, k, k', hpath, hfd, hprog, hone⟩
    · exact .inl ⟨link_done (Option.some.inj (hprog.symm.trans hdone)), hnone⟩
    · have hanswer : r = .link answer := Prog.done.inj (Option.some.inj (hdone.symm.trans hprog))
      refine .inr ⟨p, answer, k, k', hpath, hfd, hanswer, hone, ?_⟩
      rintro rfl
      have hmem : Report.called t k k' (.linkat fd.toNat p) (.ok ()) ∈ reportsOf t tr' := by
        rw [hone]
        exact List.mem_singleton_self _
      have hmem := (List.mem_filter.mp hmem).1
      exact hfits'.inv.linked _ _ _ _ _ (List.mem_append_right _ hmem)
  · intro fd d hd hheld harm path hentry
    have hnames := (hfits.inv.ok.gone fd d hd hheld harm).1
    have hmem := Kernel.mem_view_names.mpr hentry
    rw [hnames] at hmem
    exact List.not_mem_nil hmem

/-- A file that was made without a name, and linked; a second link of it to this name is refused. -/
theorem links_are_honest_twice : ∃ (tr : List (TmpReport Bool)) (s : TmpState Bool),
    HonestLinks true tr s ∧ tr.length = 5 ∧ s.shared.entries = [(bytesOf "upload", 0)] := by
  have h : Run tmpWorld.machine (Usual true) ⟨emptyKernel, fun _ : Bool => none⟩ [] _ := .start
  have h := h.next (l := .starts true (slipstreamTmpfile true none none))
    (by exact Or.inl ⟨none, none, rfl⟩) rfl
  have h := h.next (l := .calls true (.works 3 [] 0 false)) (by exact trivial) rfl
  have h := h.next (l := .leaves true) (by exact trivial) rfl
  have h := h.next (l := .starts true (slipstreamTmpfileLink true 3 (some (bytesOf "upload"))))
    (by exact Or.inr ⟨3, _, rfl, fun _ => ⟨_, rfl, rfl⟩⟩) rfl
  have h := h.next (l := .calls true (.works 0 [] 0 false)) (by exact trivial) rfl
  have h := h.next (l := .leaves true) (by exact trivial) rfl
  have h := h.next (l := .starts true (slipstreamTmpfileLink true 3 (some (bytesOf "upload"))))
    (by exact Or.inr ⟨3, _, rfl, fun _ => ⟨_, rfl, rfl⟩⟩) rfl
  have h := h.next (l := .calls true (.works 0 [] 0 false)) (by exact trivial) rfl
  exact ⟨_, _, links_are_honest emptyKernel_clean h, rfl, rfl⟩

end

end SlipstreamIO.Tmpfile
