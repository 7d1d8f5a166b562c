import SlipstreamIO.InotifyWindows
import SlipstreamIO.LastWords

/-! Who speaks in an inotify instance. What a step says comes from watches that are there, and an
IGNORED from one that is there no longer when the step is over. -/
namespace SlipstreamIO.Inotify
open LastWords

/-- The record a watch ends with. -/
def Record.Bye (r : Record) : Prop := r.mask = inIgnored

instance (r : Record) : Decidable r.Bye := inferInstanceAs (Decidable (_ = _))

/-- What is said on the way from the watches `live` to the watches `live'`. -/
abbrev Says (live live' : List Int32) (rs : List Record) : Prop := Speaks Record.wd Record.Bye live live' rs

/-- Records of one watch that do not end it. -/
def Quiet (wd : Int32) (rs : List Record) : Prop := ∀ r ∈ rs, r.wd = wd ∧ ¬ r.Bye

section Quiet
variable {wd : Int32} {rs rs' : List Record} {w : Watch} {m cookie : UInt32} {n : Option Name} {d : Bool}

theorem quiet_nil : Quiet wd [] := fun _ hr => absurd hr List.not_mem_nil

theorem Quiet.append (h : Quiet wd rs) (h' : Quiet wd rs') : Quiet wd (rs ++ rs') := by
  intro r hr
  rcases List.mem_append.mp hr with hr | hr
  · exact h r hr
  · exact h' r hr

/-- A mask that, with or without the directory bit, is not IGNORED. -/
abbrev Speech (m : UInt32) : Prop := ∀ d : Bool, m ||| (if d then inIsdir else 0) ≠ inIgnored

theorem quiet_emitMasked (hm : Speech m) : Quiet w.wd (emitMasked w m cookie n d) := by
  intro r hr
  unfold emitMasked at hr
  split at hr
  · cases hr
  · rw [List.eq_of_mem_singleton hr]
    exact ⟨rfl, hm d⟩

theorem quiet_say {w : WinWatch} (hm : Speech m) : Quiet w.wd (w.say m cookie n d) := by
  intro r hr
  unfold WinWatch.say at hr
  split at hr
  · cases hr
  · rw [List.eq_of_mem_singleton hr]
    exact ⟨rfl, hm d⟩

theorem quiet_ite {p : Prop} [Decidable p] (h : p → Quiet wd rs) (h' : ¬ p → Quiet wd rs') :
    Quiet wd (if p then rs else rs') := by
  split
  · next hp => exact h hp
  · next hp => exact h' hp

end Quiet

section Diff
variable {w : Watch} {kids fs : List Entry} {cookie : UInt32}

theorem quiet_compareKid (had f : Entry) : Quiet w.wd (compareKid w had f) := by
  unfold compareKid
  refine quiet_ite (fun _ => ?_) fun _ => quiet_ite (fun _ => ?_) fun _ => quiet_ite (fun _ => ?_)
    fun _ => quiet_nil
  · exact (quiet_emitMasked (by decide)).append (quiet_emitMasked (by decide))
  · exact quiet_emitMasked (by decide)
  · exact quiet_emitMasked (by decide)

theorem quiet_sameNames : Quiet w.wd (sameNames w kids fs).2.2 := by
  induction fs generalizing kids with
  | nil => exact quiet_nil
  | cons f fs ih =>
    unfold sameNames
    split
    · exact ih
    split
    · exact quiet_nil
    · exact (quiet_compareKid _ _).append ih

theorem quiet_leavers : Quiet w.wd (leavers w kids fs cookie).2.2 := by
  induction kids generalizing fs cookie with
  | nil => exact quiet_nil
  | cons old kids ih =>
    unfold leavers
    split
    · exact ih
    split
    · exact (quiet_emitMasked (by decide)).append ih
    split
    · exact quiet_nil
    · exact ((quiet_emitMasked (by decide)).append (quiet_emitMasked (by decide))).append ih

theorem quiet_arrivals : Quiet w.wd (arrivals w fs) := by
  intro r hr
  obtain ⟨f, -, hr⟩ := List.mem_flatMap.mp hr
  split at hr
  · cases hr
  · exact quiet_emitMasked (by decide) r hr

/-- A directory's difference is told by its watch, which keeps its wd. -/
theorem quiet_directoryChanged (scanned : Scanned) :
    (directoryChanged w scanned cookie).1.wd = w.wd ∧
      Quiet w.wd (directoryChanged w scanned cookie).2.2 := by
  unfold directoryChanged
  split
  · exact ⟨rfl, quiet_nil⟩
  · exact ⟨rfl, (quiet_sameNames.append quiet_leavers).append quiet_arrivals⟩

end Diff

section Erase
variable {α : Type} {l : List α} {i : ℕ} {a : α}

theorem not_mem_eraseIdx (hl : l.Nodup) (hi : l[i]? = some a) : a ∉ l.eraseIdx i := by
  rw [List.mem_eraseIdx_iff_getElem?]
  rintro ⟨j, hj, hja⟩
  exact hj ((List.getElem?_inj (List.getElem?_eq_some_iff.mp hi).1 hl).mp (hi.trans hja.symm)).symm

theorem map_set_same {β : Type} {f : α → β} {b : α} (hi : l[i]? = some a) (hf : f b = f a) :
    (l.set i b).map f = l.map f := by
  apply List.ext_getElem?
  intro j
  rw [List.getElem?_map, List.getElem?_map]
  by_cases hij : i = j
  · subst hij
    rw [List.getElem?_set_self (List.getElem?_eq_some_iff.mp hi).1, hi, Option.map_some, Option.map_some, hf]
  · rw [List.getElem?_set_ne hij]

theorem map_eraseIdx {β : Type} {f : α → β} : (l.eraseIdx i).map f = (l.map f).eraseIdx i := by
  induction l generalizing i with
  | nil => rfl
  | cons x l ih =>
    cases i with
    | zero => rfl
    | succ i => simpa using ih

/-- A watch says some words, IGNORED, and is forgotten. -/
theorem speech_forget {live : List Int32} {wd : Int32} {rs : List Record} (hl : live.Nodup)
    (hi : live[i]? = some wd) (hrs : Quiet wd rs) :
    Says live (live.eraseIdx i) (rs ++ [{ wd, mask := inIgnored }]) :=
  speaks_bye (List.eraseIdx_sublist ..) (List.mem_of_getElem? hi) (not_mem_eraseIdx hl hi) hrs rfl

/-- A watch that is there says some words. -/
theorem speech_quiet {live live' : List Int32} {wd : Int32} {rs : List Record} (hs : live'.Sublist live)
    (hi : wd ∈ live) (hrs : Quiet wd rs) : Says live live' rs :=
  speaks_on hs fun r hr => ⟨(hrs r hr).1 ▸ hi, (hrs r hr).2⟩

end Erase

section Kqueue

def Inst.live (inst : Inst) : List Int32 := inst.watches.map Watch.wd

/-- A step that changes what the watches are and know, and nothing else of the instance. -/
structure Inst.Within (inst inst' : Inst) : Prop where
  queue : inst'.queue = inst.queue
  nextWd : inst'.nextWd = inst.nextWd

variable {inst : Inst} {i : ℕ} {w : Watch}

theorem live_get (hi : inst.watches[i]? = some w) : inst.live[i]? = some w.wd := by
  simp [Inst.live, hi]

theorem noted_spec (hi : inst.watches[i]? = some w) (ke : KEvent) :
    Quiet w.wd (inst.noted i w ke).2 ∧ (inst.noted i w ke).1.live = inst.live ∧
      inst.Within (inst.noted i w ke).1 := by
  have hrest (rs : List Record) (hrs : Quiet w.wd rs) : Quiet w.wd (rs ++
      (if ke.fflags &&& noteAttrib ≠ 0 then emitMasked w inAttrib 0 none w.isDir else []) ++
      (if ke.fflags &&& noteRename ≠ 0 then emitMasked w inMoveSelf 0 none w.isDir else [])) :=
    (hrs.append (quiet_ite (fun _ => quiet_emitMasked (by decide)) fun _ => quiet_nil)).append
      (quiet_ite (fun _ => quiet_emitMasked (by decide)) fun _ => quiet_nil)
  unfold Inst.noted
  split
  · next hchanged =>
    split at hchanged
    · split at hchanged
      · obtain ⟨hwd, hquiet⟩ := @quiet_directoryChanged w inst.nextCookie (ke.look.scan w.path)
        rcases hd : directoryChanged w (ke.look.scan w.path) inst.nextCookie with ⟨w', cookie', rs⟩
        rw [hd] at hwd hquiet hchanged
        cases hchanged
        exact ⟨hrest _ hquiet, map_set_same hi hwd, rfl, rfl⟩
      · cases hchanged
        exact ⟨hrest _ (quiet_emitMasked (by decide)), rfl, rfl, rfl⟩
    · cases hchanged
      exact ⟨hrest _ quiet_nil, rfl, rfl, rfl⟩

theorem translate_speaks (hl : inst.live.Nodup) (ke : KEvent) :
    Says inst.live (inst.translate ke).1.live (inst.translate ke).2 ∧
      inst.Within (inst.translate ke).1 := by
  unfold Inst.translate
  split
  · exact ⟨speaks_nil (List.Sublist.refl _), rfl, rfl⟩
  next i _ =>
  split
  · exact ⟨speaks_nil (List.Sublist.refl _), rfl, rfl⟩
  next w hi =>
  obtain ⟨hquiet, hlive, hwithin⟩ := noted_spec hi ke
  rcases hn : inst.noted i w ke with ⟨inst', rs⟩
  rw [hn] at hquiet hlive hwithin
  dsimp only at hquiet hlive hwithin ⊢
  split
  · -- gone: DELETE_SELF, IGNORED, and the watch is forgotten
    have hforget : (inst'.forget i).live = inst.live.eraseIdx i := by
      rw [← hlive]
      exact map_eraseIdx
    rw [hforget]
    exact ⟨speech_forget hl (live_get hi) (hquiet.append (quiet_emitMasked (by decide))), hwithin.queue,
      hwithin.nextWd⟩
  · rw [hlive]
    exact ⟨speech_quiet (List.Sublist.refl _) (List.mem_of_getElem? (live_get hi)) hquiet, hwithin⟩

theorem takeEvents_speaks (hl : inst.live.Nodup) (evs : List KEvent) :
    Says inst.live (inst.takeEvents evs).1.live (inst.takeEvents evs).2 ∧
      inst.Within (inst.takeEvents evs).1 := by
  induction evs generalizing inst with
  | nil => exact ⟨speaks_nil (List.Sublist.refl _), rfl, rfl⟩
  | cons ke evs ih =>
    obtain ⟨hspeaks, hwithin⟩ := translate_speaks hl ke
    obtain ⟨hrest, hwithin'⟩ := ih (hl.sublist hspeaks.sub)
    exact ⟨hspeaks.trans hrest, hwithin'.queue.trans hwithin.queue, hwithin'.nextWd.trans hwithin.nextWd⟩

end Kqueue

section Windows

def WinInst.live (inst : WinInst) : List Int32 := inst.watches.map WinWatch.wd

/-- A watch but for the directories it knows. -/
def WinWatch.face (w : WinWatch) : WinWatch := { w with dirs := [] }

/-- A step that forgets watches and changes what the others know, and nothing that was said. -/
structure WinInst.Within (inst inst' : WinInst) : Prop where
  queue : inst'.queue = inst.queue
  nextWd : inst'.nextWd = inst.nextWd
  faces : (inst'.watches.map WinWatch.face).Sublist (inst.watches.map WinWatch.face)

theorem WinInst.Within.refl (inst : WinInst) : inst.Within inst := ⟨rfl, rfl, List.Sublist.refl _⟩

theorem WinInst.Within.trans {inst inst' inst'' : WinInst} (h : inst.Within inst')
    (h' : inst'.Within inst'') : inst.Within inst'' :=
  ⟨h'.queue.trans h.queue, h'.nextWd.trans h.nextWd, h'.faces.trans h.faces⟩

/-- No entry a single-file watch hears about says that the file is gone. -/
def KeepsFile (w : WinWatch) (chain : List Fni) : Prop :=
  ∀ e ∈ chain, w.only ≠ none → e.named = true → w.hears e = true → e.action ≠ fileActionRemoved

/-- After the entry of the chain above that says the watch is gone, none has anything to say of it. -/
def GoesOnce (w : WinWatch) (chain : List Fni) : Prop :=
  chain.Pairwise fun e e' => w.upGone e = true → upOne w e' = []

/-- A completion that ends no watch without its being forgotten, and ends none twice. -/
def Calm (inst : WinInst) (c : Completion) : Prop :=
  c.ok = true → ∀ w ∈ inst.watches, (w.wd = c.key → c.pathIsDir = true → KeepsFile w c.chain) ∧
    (w.wd ≠ c.key → upKey w.wd = c.key → GoesOnce w c.chain)

instance (w : WinWatch) (chain : List Fni) : Decidable (KeepsFile w chain) :=
  inferInstanceAs (Decidable (∀ e ∈ chain, w.only ≠ none → e.named = true → w.hears e = true →
    e.action ≠ fileActionRemoved))

instance (w : WinWatch) (chain : List Fni) : Decidable (GoesOnce w chain) :=
  inferInstanceAs (Decidable (chain.Pairwise fun e e' => w.upGone e = true → upOne w e' = []))

instance (inst : WinInst) (c : Completion) : Decidable (Calm inst c) :=
  inferInstanceAs (Decidable (c.ok = true → ∀ w ∈ inst.watches, _))

variable {inst inst' : WinInst} {i : ℕ} {w : WinWatch} {e : Fni} {chain : List Fni}

/-- What a completion does to watches does not depend on the directories they know. -/
theorem Calm.of_faces {c : Completion} (h : Calm inst c)
    (hf : (inst'.watches.map WinWatch.face).Sublist (inst.watches.map WinWatch.face)) :
    Calm inst' c := by
  intro hok w hmem
  obtain ⟨w', hmem', hface⟩ := List.mem_map.mp (hf.subset (List.mem_map_of_mem hmem))
  have hcalm := h hok w' hmem'
  have hwd : w'.wd = w.wd := (congrArg WinWatch.wd hface :)
  rw [hwd] at hcalm
  have hkeeps : KeepsFile w'.face c.chain = KeepsFile w.face c.chain := by rw [hface]
  have hgoes : GoesOnce w'.face c.chain = GoesOnce w.face c.chain := by rw [hface]
  exact ⟨fun hk hd => hkeeps.mp (hcalm.1 hk hd), fun hk hu => hgoes.mp (hcalm.2 hk hu)⟩

theorem ends_spec : ∃ rs, Quiet w.wd rs ∧ w.ends = rs ++ [{ wd := w.wd, mask := inIgnored }] :=
  ⟨_, quiet_say (by decide), rfl⟩

theorem learn_face : (learn w e).2.face = w.face := by
  unfold learn
  split
  · rfl
  split <;> rfl

theorem act_spec (c : Cookies) (isdir : Bool) (hk : w.only ≠ none → e.action ≠ fileActionRemoved) :
    Quiet w.wd (act c w e isdir).2.2 ∧ (act c w e isdir).2.1.face = w.face := by
  unfold act
  dsimp only
  split
  · exact ⟨quiet_say (by decide), rfl⟩
  split
  · next hremoved =>
    exact ⟨quiet_ite (fun honly => absurd hremoved (hk honly)) fun _ => quiet_say (by decide), rfl⟩
  split
  · exact ⟨quiet_say (by decide), rfl⟩
  split
  · exact ⟨quiet_ite (fun _ => quiet_say (by decide)) fun _ => quiet_say (by decide), rfl⟩
  split
  · exact ⟨quiet_ite (fun _ => quiet_say (by decide)) fun _ => quiet_nil, rfl⟩
  · exact ⟨quiet_nil, rfl⟩

/-- An entry of a watch's own chain ends nothing, unless it tells a single-file watch of its file's
end. -/
theorem translateOne_spec (c : Cookies)
    (hk : w.only ≠ none → e.named = true → w.hears e = true → e.action ≠ fileActionRemoved) :
    Quiet w.wd (translateOne c w e).2.2 ∧ (translateOne c w e).2.1.face = w.face := by
  unfold translateOne
  split
  · exact ⟨quiet_nil, rfl⟩
  next hnamed =>
  have hface : (learn w e).2.face = w.face := learn_face
  have hwd : (learn w e).2.wd = w.wd := (congrArg WinWatch.wd hface :)
  have honly : (learn w e).2.only = w.only := (congrArg WinWatch.only hface :)
  dsimp only
  split
  · exact ⟨quiet_nil, hface⟩
  · next hhears =>
    have hheard : w.hears e = true := by
      rw [WinWatch.hears, honly, ← WinWatch.hears] at hhears
      simpa using hhears
    obtain ⟨hquiet, hact⟩ := act_spec (w := (learn w e).2) c (learn w e).1
      fun ho => hk (honly ▸ ho) (by simpa using hnamed) hheard
    exact ⟨hwd ▸ hquiet, hact.trans hface⟩

theorem translateChain_spec (c : Cookies) (hk : KeepsFile w chain) :
    Quiet w.wd (translateChain c w chain).2.2 ∧ (translateChain c w chain).2.1.face = w.face := by
  induction chain generalizing c w with
  | nil => exact ⟨quiet_nil, rfl⟩
  | cons e chain ih =>
    obtain ⟨hquiet, hface⟩ := translateOne_spec c (hk e List.mem_cons_self)
    have hwd : (translateOne c w e).2.1.wd = w.wd := (congrArg WinWatch.wd hface :)
    have hkeeps : KeepsFile (translateOne c w e).2.1 chain := by
      have hrest : KeepsFile w.face chain := fun x hx => hk x (List.mem_cons_of_mem _ hx)
      rw [← hface] at hrest
      exact hrest
    obtain ⟨hquiet', hface'⟩ := ih (translateOne c w e).1 hkeeps
    exact ⟨hquiet.append (hwd ▸ hquiet'), hface'.trans hface⟩

/-- A chain of the directory above, read up to the end of the watch. -/
theorem translateUp_spec (hg : GoesOnce w chain) :
    if (translateUp w chain).1 then
      ∃ rs, Quiet w.wd rs ∧ (translateUp w chain).2 = rs ++ [{ wd := w.wd, mask := inIgnored }]
    else Quiet w.wd (translateUp w chain).2 := by
  induction chain with
  | nil => exact quiet_nil
  | cons e chain ih =>
    obtain ⟨hfirst, hrest⟩ := List.pairwise_cons.mp hg
    have ih := ih hrest
    unfold translateUp at ih ⊢
    rw [List.any_cons, List.flatMap_cons]
    dsimp only at ih ⊢
    cases hgone : w.upGone e with
    | true =>
      -- the rest of the chain has nothing to say
      obtain ⟨hself, haction⟩ := Bool.and_eq_true_iff.mp hgone
      have hone : upOne w e = w.ends := by simp [upOne, hself, beq_iff_eq.mp haction]
      have hnil : chain.flatMap (upOne w) = [] :=
        List.flatMap_eq_nil_iff.mpr fun x hx => hfirst x hx hgone
      rw [hone, hnil, List.append_nil]
      exact ends_spec
    | false =>
      have hone : Quiet w.wd (upOne w e) := by
        unfold upOne
        split
        · exact quiet_nil
        split
        · next hself haction =>
          rw [WinWatch.upGone, haction] at hgone
          simp at hself hgone
          rw [hself] at hgone
          cases hgone
        split
        · exact quiet_say (by decide)
        · exact quiet_ite (fun _ => quiet_say (by decide)) fun _ => quiet_nil
      rw [Bool.false_or]
      cases hany : chain.any w.upGone with
      | true =>
        rw [hany] at ih
        obtain ⟨rs, hquiet, heq⟩ := ih
        rw [heq, ← List.append_assoc]
        exact ⟨_, hone.append hquiet, rfl⟩
      | false =>
        rw [hany] at ih
        exact hone.append ih

theorem win_live_get (hi : inst.watches[i]? = some w) : inst.live[i]? = some w.wd := by
  simp [WinInst.live, hi]

theorem win_forget_live : (inst.forget i).live = inst.live.eraseIdx i := map_eraseIdx

theorem win_forget_within : inst.Within (inst.forget i) :=
  ⟨rfl, rfl, (List.eraseIdx_sublist ..).map _⟩

/-- A watch that says its end is forgotten. -/
theorem forget_speaks (hl : inst.live.Nodup) (hi : inst.watches[i]? = some w) {rs : List Record}
    (hrs : ∃ rs', Quiet w.wd rs' ∧ rs = rs' ++ [{ wd := w.wd, mask := inIgnored }]) :
    Says inst.live (inst.forget i).live rs := by
  obtain ⟨rs', hquiet, rfl⟩ := hrs
  rw [win_forget_live]
  exact speech_forget hl (win_live_get hi) hquiet

theorem checkGone_speaks (hl : inst.live.Nodup) (there : ℕ → Presence) (n : ℕ) :
    Says inst.live (inst.checkGone there n).1.live (inst.checkGone there n).2 ∧
      inst.Within (inst.checkGone there n).1 := by
  induction n generalizing inst with
  | zero => exact ⟨speaks_nil (List.Sublist.refl _), .refl _⟩
  | succ n ih =>
    unfold WinInst.checkGone
    split
    · exact ih hl
    next w hi =>
    split
    · exact ih hl
    · have hends := forget_speaks hl hi ends_spec
      obtain ⟨hspeaks, hwithin⟩ := ih (hl.sublist hends.sub)
      exact ⟨hends.trans hspeaks, win_forget_within.trans hwithin⟩

theorem takeOne_speaks (hl : inst.live.Nodup) {c : Completion} (hc : Calm inst c) :
    Says inst.live (inst.takeOne c).1.live (inst.takeOne c).2 ∧ inst.Within (inst.takeOne c).1 := by
  unfold WinInst.takeOne
  split
  · exact ⟨speaks_nil (List.Sublist.refl _), .refl _⟩
  next i hfind =>
  split
  · exact ⟨speaks_nil (List.Sublist.refl _), .refl _⟩
  next w hi =>
  have hmem := List.mem_of_getElem? hi
  split
  · next hkey =>
    have hup : upKey w.wd = c.key := by
      obtain ⟨hlt, hp, -⟩ := List.findIdx?_eq_some_iff_getElem.mp hfind
      rw [(List.getElem?_eq_some_iff.mp hi).2] at hp
      simpa [hkey] using hp
    cases hok : c.ok with
    | false => exact ⟨speaks_nil (win_forget_live ▸ List.eraseIdx_sublist ..), win_forget_within⟩
    | true =>
      have hspec := translateUp_spec ((hc hok w hmem).2 hkey hup)
      rw [if_pos rfl]
      dsimp only
      split at hspec
      · next hgone =>
        rw [if_pos hgone]
        exact ⟨forget_speaks hl hi hspec, win_forget_within⟩
      · next hgone =>
        rw [if_neg hgone]
        exact ⟨speech_quiet (List.Sublist.refl _) (List.mem_of_getElem? (win_live_get hi)) hspec, .refl _⟩
  next hkey =>
  split
  · exact ⟨forget_speaks hl hi ends_spec, win_forget_within⟩
  · next hok =>
    have hok : c.ok = true ∧ c.pathIsDir = true := by simpa [not_or] using hok
    obtain ⟨hquiet, hface⟩ := translateChain_spec ⟨inst.nextCookie, inst.openCookie⟩
      ((hc hok.1 w hmem).1 (not_not.mp hkey) hok.2)
    have hlive : (inst.watches.set i (translateChain ⟨inst.nextCookie, inst.openCookie⟩ w c.chain).2.1).map
        WinWatch.wd = inst.live := map_set_same hi (congrArg WinWatch.wd hface :)
    refine ⟨?_, rfl, rfl, (map_set_same hi hface).symm ▸ List.Sublist.refl _⟩
    show Says inst.live (List.map WinWatch.wd _) _
    rw [hlive]
    exact speech_quiet (List.Sublist.refl _) (List.mem_of_getElem? (win_live_get hi)) hquiet

theorem win_takeEvents_speaks (hl : inst.live.Nodup) {cs : List Completion} (hc : ∀ c ∈ cs, Calm inst c) :
    Says inst.live (inst.takeEvents cs).1.live (inst.takeEvents cs).2 ∧
      inst.Within (inst.takeEvents cs).1 := by
  induction cs generalizing inst with
  | nil => exact ⟨speaks_nil (List.Sublist.refl _), .refl _⟩
  | cons c cs ih =>
    obtain ⟨hspeaks, hwithin⟩ := takeOne_speaks hl (hc c List.mem_cons_self)
    obtain ⟨hrest, hwithin'⟩ := ih (hl.sublist hspeaks.sub)
      fun x hx => (hc x (List.mem_cons_of_mem _ hx)).of_faces hwithin.faces
    exact ⟨hspeaks.trans hrest, hwithin.trans hwithin'⟩

end Windows

end SlipstreamIO.Inotify
