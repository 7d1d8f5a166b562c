import SlipstreamIO.InotifyLastWord
import SlipstreamIO.DiffReplay

/-! The cookies of the Windows arm. The one that waits for its other half is a field of the instance,
while the halves of a rename come from one watch's reads, which may be two. -/
namespace SlipstreamIO.Inotify
open Runs

def Fni.isOld (e : Fni) : Bool := e.action == fileActionRenamedOldName

def Fni.isNew (e : Fni) : Bool := e.action == fileActionRenamedNewName

/-- The halves of a rename in a directory, as a record shows them: which half, and its cookie. -/
def Record.move (wd : Int32) (r : Record) : Option (Bool × UInt32) :=
  if r.wd ≠ wd then none
  else if r.mask &&& inMovedFrom ≠ 0 then some (true, r.cookie)
  else if r.mask &&& inMovedTo ≠ 0 then some (false, r.cookie)
  else none

def moves (wd : Int32) (tr : List Record) : List (Bool × UInt32) := tr.filterMap (Record.move wd)

def Record.fromCookie (r : Record) : Option UInt32 :=
  if r.mask &&& inMovedFrom ≠ 0 then some r.cookie else none

/-- The cookies of the first halves, of all watches. -/
def fromCookies (tr : List Record) : List UInt32 := tr.filterMap Record.fromCookie

/-- A second half comes right after a first one of its watch with the same cookie, which is not 0. -/
def Follows (pre : List (Bool × UInt32)) (m : Bool × UInt32) : Prop :=
  m.1 = false → pre.getLast? = some (true, m.2) ∧ m.2 ≠ 0

/-- Records that are no half of a rename. -/
def Still (rs : List Record) : Prop := ∀ r ∈ rs, r.mask &&& (inMovedFrom ||| inMovedTo) = 0

section Still
variable {rs rs' : List Record} {w : WinWatch} {m cookie : UInt32} {n : Option Name} {d : Bool}

theorem still_nil : Still [] := fun _ hr => absurd hr List.not_mem_nil

theorem Still.append (h : Still rs) (h' : Still rs') : Still (rs ++ rs') := by
  intro r hr
  rcases List.mem_append.mp hr with hr | hr
  · exact h r hr
  · exact h' r hr

theorem still_say (hm : ∀ d : Bool, (m ||| (if d then inIsdir else 0)) &&&
    (inMovedFrom ||| inMovedTo) = 0) : Still (w.say m cookie n d) := by
  intro r hr
  unfold WinWatch.say at hr
  split at hr
  · cases hr
  · rw [List.eq_of_mem_singleton hr]
    exact hm d

theorem still_ends (w : WinWatch) : Still w.ends := by
  apply (still_say (by decide)).append
  intro r hr
  rw [List.eq_of_mem_singleton hr]
  show inIgnored &&& (inMovedFrom ||| inMovedTo) = 0
  decide

theorem Still.bits {r : Record} (h : Still rs) (hr : r ∈ rs) :
    r.mask &&& inMovedFrom = 0 ∧ r.mask &&& inMovedTo = 0 := by
  have hor : r.mask &&& inMovedFrom ||| r.mask &&& inMovedTo = 0 := by
    have hdist : r.mask &&& (inMovedFrom ||| inMovedTo) =
        r.mask &&& inMovedFrom ||| r.mask &&& inMovedTo := by
      apply UInt32.toBitVec_inj.mp
      exact BitVec.and_or_distrib_left
    rw [← hdist]
    exact h r hr
  exact UInt32.or_eq_zero_iff.mp hor

theorem Still.moves (h : Still rs) (wd : Int32) : moves wd rs = [] := by
  apply List.filterMap_eq_nil_iff.mpr
  intro r hr
  obtain ⟨hfrom, hto⟩ := h.bits hr
  simp [Record.move, hfrom, hto]

theorem Still.fromCookies (h : Still rs) : fromCookies rs = [] := by
  apply List.filterMap_eq_nil_iff.mpr
  intro r hr
  simp [Record.fromCookie, (h.bits hr).1]

end Still

/-- What holds after the records `tr` with the cookies `c`, when the watches of `half` are between the
two halves of a rename and `n` first halves have been heard. -/
structure Pairs (tr : List Record) (c : Cookies) (half : Int32 → Bool) (n : ℕ) : Prop where
  count : c.nextCookie = UInt32.ofNat n
  used : (fromCookies tr).Sublist ((List.range n).map fun j => UInt32.ofNat (j + 1))
  paired : ∀ wd, AtEach Follows (moves wd tr)
  waits : ∀ wd, half wd = true → (moves wd tr).getLast? = some (true, c.openCookie) ∧ c.openCookie ≠ 0

section Pairs
variable {tr rs : List Record} {c : Cookies} {half half' : Int32 → Bool} {n : ℕ} {wd : Int32}

theorem moves_append (wd : Int32) (tr rs : List Record) : moves wd (tr ++ rs) = moves wd tr ++ moves wd rs :=
  List.filterMap_append

theorem fromCookies_append (tr rs : List Record) :
    fromCookies (tr ++ rs) = fromCookies tr ++ fromCookies rs := List.filterMap_append

theorem Pairs.still (h : Pairs tr c half n) (hrs : Still rs) : Pairs (tr ++ rs) c half n := by
  refine ⟨h.count, ?_, fun wd => ?_, fun wd => ?_⟩
  · rw [fromCookies_append, hrs.fromCookies, List.append_nil]
    exact h.used
  · rw [moves_append, hrs.moves, List.append_nil]
    exact h.paired wd
  · rw [moves_append, hrs.moves, List.append_nil]
    exact h.waits wd

theorem Pairs.fewer (h : Pairs tr c half n) (hle : ∀ wd, half' wd = true → half wd = true) :
    Pairs tr c half' n := ⟨h.count, h.used, h.paired, fun wd hw => h.waits wd (hle wd hw)⟩

theorem cookie_next (h : c.nextCookie = UInt32.ofNat n) :
    c.nextCookie + 1 = UInt32.ofNat (n + 1) := by
  rw [h, UInt32.ofNat_add]
  rfl

theorem cookie_ne_zero (hn : n + 1 < 2 ^ 32) : UInt32.ofNat (n + 1) ≠ 0 := by
  intro hzero
  have hnat := congrArg UInt32.toNat hzero
  rw [UInt32.toNat_ofNat_of_lt' hn] at hnat
  exact absurd hnat (Nat.succ_ne_zero n)

theorem range_grows (n : ℕ) : (List.range (n + 1)).map (fun j => UInt32.ofNat (j + 1)) =
    (List.range n).map (fun j => UInt32.ofNat (j + 1)) ++ [UInt32.ofNat (n + 1)] := by
  rw [List.range_succ, List.map_append, List.map_singleton]

/-- The first half of a rename in a directory, while no watch waits for a second one. -/
theorem Pairs.from (h : Pairs tr c half n) {r : Record} (hwd : r.wd = wd)
    (hmask : r.mask &&& inMovedFrom ≠ 0) (hcookie : r.cookie = c.nextCookie + 1)
    (hnone : ∀ wd, half wd = false) (hn : n + 1 < 2 ^ 32) :
    Pairs (tr ++ [r]) ⟨c.nextCookie + 1, c.nextCookie + 1⟩
      (fun x => if x = wd then true else half x) (n + 1) := by
  have hnext := cookie_next h.count
  have hmove (x : Int32) : moves x [r] = if x = wd then [(true, r.cookie)] else [] := by
    by_cases hx : x = wd
    · simp [moves, Record.move, hwd, hx, hmask]
    · simp [moves, Record.move, hwd, hx, Ne.symm hx]
  refine ⟨hnext, ?_, ?_, ?_⟩
  · have hfrom : fromCookies [r] = [UInt32.ofNat (n + 1)] := by
      simp [fromCookies, Record.fromCookie, hmask, hcookie, hnext]
    rw [fromCookies_append, range_grows, hfrom]
    exact h.used.append (List.Sublist.refl _)
  · intro x
    rw [moves_append, hmove]
    split
    · exact (h.paired x).concat fun hfalse => absurd hfalse (by simp)
    · rw [List.append_nil]
      exact h.paired x
  · intro x hx
    by_cases hxwd : x = wd
    · rw [moves_append, hmove, if_pos hxwd, hcookie]
      refine ⟨by simp, ?_⟩
      rw [hnext]
      exact cookie_ne_zero hn
    · rw [if_neg hxwd, hnone x] at hx
      cases hx

/-- The second half, of the one watch that waits for it. -/
theorem Pairs.to (h : Pairs tr c half n) {r : Record} (hwd : r.wd = wd)
    (hmask : r.mask &&& inMovedFrom = 0 ∧ r.mask &&& inMovedTo ≠ 0)
    (hcookie : r.cookie = c.openCookie) (hhalf : half wd = true)
    (hone : ∀ x, half x = true → x = wd) :
    Pairs (tr ++ [r]) { c with openCookie := 0 } (fun x => if x = wd then false else half x) n := by
  have hmove (x : Int32) : moves x [r] = if x = wd then [(false, r.cookie)] else [] := by
    by_cases hx : x = wd
    · simp [moves, Record.move, hwd, hx, hmask.1, hmask.2]
    · simp [moves, Record.move, hwd, hx, Ne.symm hx]
  refine ⟨h.count, ?_, ?_, ?_⟩
  · have hnil : fromCookies [r] = [] := by simp [fromCookies, Record.fromCookie, hmask.1]
    rw [fromCookies_append, hnil, List.append_nil]
    exact h.used
  · intro x
    rw [moves_append, hmove]
    split
    · next hx =>
      apply (h.paired x).concat
      intro _
      rw [hx, hcookie]
      exact h.waits wd hhalf
    · rw [List.append_nil]
      exact h.paired x
  · intro x hx
    by_cases hxwd : x = wd
    · rw [if_pos hxwd] at hx
      cases hx
    · rw [if_neg hxwd] at hx
      exact absurd (hone x hx) hxwd

/-- A watch on a file hears a first half: a cookie is used up, and no directory waited. -/
theorem Pairs.skips (h : Pairs tr c half n) (hnone : ∀ wd, half wd = false) :
    Pairs tr ⟨c.nextCookie + 1, c.nextCookie + 1⟩ half (n + 1) := by
  refine ⟨cookie_next h.count, ?_, h.paired, ?_⟩
  · rw [range_grows]
    exact h.used.trans (List.sublist_append_left _ _)
  · intro x hx
    rw [hnone x] at hx
    cases hx

/-- A watch on a file hears a second half, and no directory waited. -/
theorem Pairs.clears (h : Pairs tr c half n) (hnone : ∀ wd, half wd = false) :
    Pairs tr { c with openCookie := 0 } half n := by
  refine ⟨h.count, h.used, h.paired, ?_⟩
  intro x hx
  rw [hnone x] at hx
  cases hx

end Pairs

/-- The halves in a chain, as Windows reports them in one directory: a second half right behind a
first one, which may be the last of the chain before. Whether the last one is still to come. -/
def reported : Bool → List Fni → Option Bool
  | half, [] => some half
  | true, e :: chain => if e.isNew then reported false chain else none
  | false, e :: chain => if e.isNew then none else reported e.isOld chain

/-- The watch hears of a half of a rename. -/
def WinWatch.hearsHalf (w : WinWatch) (e : Fni) : Bool :=
  e.named && w.hears e && (e.isOld || e.isNew)

def WinWatch.hearsOld (w : WinWatch) (e : Fni) : Bool := e.named && w.hears e && e.isOld

/-- The watches that wait for a second half, after a chain of the watch `w`. -/
def halfAfter (half : Int32 → Bool) (w : WinWatch) (chain : List Fni) : Int32 → Bool :=
  if w.only = none then
    fun wd => if wd = w.wd then (reported (half w.wd) chain).getD false else half wd
  else half

def WinWatch.AsksAll (w : WinWatch) : Prop := w.mask &&& inAllEvents = inAllEvents

instance (w : WinWatch) : Decidable w.AsksAll := inferInstanceAs (Decidable (_ = _))

section Chain
variable {tr rs : List Record} {c : Cookies} {half : Int32 → Bool} {n : ℕ} {w : WinWatch} {e : Fni}

theorem say_asked (hw : w.AsksAll) {m cookie : UInt32} {name : Name} {d : Bool}
    (hm : m &&& inAllEvents = m) (hm0 : m ≠ 0) : w.say m cookie (some name) d =
      [{ wd := w.wd, mask := m ||| (if d then inIsdir else 0), cookie, name := some name }] := by
  have hsame : w.say m cookie (some name) d =
      emitMasked ⟨w.wd, 0, [], w.mask, false, []⟩ m cookie (some name) d := rfl
  rw [hsame]
  exact emitMasked_asked hw hm hm0

theorem learn_watch (w : WinWatch) (e : Fni) : ∃ dirs, (learn w e).2 = { w with dirs } := by
  unfold learn
  split
  · exact ⟨w.dirs, rfl⟩
  split
  · exact ⟨_, rfl⟩
  · exact ⟨w.dirs, rfl⟩

/-- A watch is changed in the directories it knows, if at all. -/
theorem translateOne_watch (c : Cookies) (w : WinWatch) (e : Fni) :
    ∃ dirs, (translateOne c w e).2.1 = { w with dirs } := by
  obtain ⟨dirs, hdirs⟩ := learn_watch w e
  unfold translateOne
  split
  · exact ⟨w.dirs, rfl⟩
  dsimp only
  split
  · exact ⟨dirs, hdirs⟩
  · rw [hdirs]
    unfold act
    dsimp only
    (repeat' split) <;> exact ⟨_, rfl⟩

theorem translateChain_watch (c : Cookies) (w : WinWatch) (chain : List Fni) :
    ∃ dirs, (translateChain c w chain).2.1 = { w with dirs } := by
  induction chain generalizing c w with
  | nil => exact ⟨w.dirs, rfl⟩
  | cons e chain ih =>
    obtain ⟨dirs, hdirs⟩ := translateOne_watch c w e
    obtain ⟨dirs', hdirs'⟩ := ih (translateOne c w e).1 (translateOne c w e).2.1
    refine ⟨dirs', ?_⟩
    calc (translateChain c w (e :: chain)).2.1
        = { (translateOne c w e).2.1 with dirs := dirs' } := hdirs'
      _ = { w with dirs := dirs' } := by rw [hdirs]

/-- The record of a first half. -/
def IsFrom (w : WinWatch) (cookie : UInt32) (r : Record) : Prop :=
  r.wd = w.wd ∧ r.mask &&& inMovedFrom ≠ 0 ∧ r.cookie = cookie

/-- The record of a second half. -/
def IsTo (w : WinWatch) (cookie : UInt32) (r : Record) : Prop :=
  r.wd = w.wd ∧ (r.mask &&& inMovedFrom = 0 ∧ r.mask &&& inMovedTo ≠ 0) ∧ r.cookie = cookie

section Act
variable (c : Cookies) (isdir : Bool)

theorem act_still (hold : e.isOld = false) (hnew : e.isNew = false) :
    (act c w e isdir).1 = c ∧ Still (act c w e isdir).2.2 := by
  simp only [Fni.isOld, Fni.isNew, beq_eq_false_iff_ne] at hold hnew
  unfold act
  dsimp only
  split
  · exact ⟨rfl, still_say (by decide)⟩
  split
  · refine ⟨rfl, ?_⟩
    dsimp only
    split
    · exact still_ends w
    · exact still_say (by decide)
  split
  · exact ⟨rfl, still_say (by decide)⟩
  exact ⟨rfl, still_nil⟩

theorem act_old (hw : w.AsksAll) (hold : e.isOld = true) :
    (act c w e isdir).1 = ⟨c.nextCookie + 1, c.nextCookie + 1⟩ ∧
      if w.only = none then ∃ r, (act c w e isdir).2.2 = [r] ∧ IsFrom w (c.nextCookie + 1) r
      else Still (act c w e isdir).2.2 := by
  have haction : e.action = fileActionRenamedOldName := by simpa [Fni.isOld] using hold
  have hact : act c w e isdir = (⟨c.nextCookie + 1, c.nextCookie + 1⟩,
      { w with dirs := forgetDir w.dirs e.name },
      if w.only ≠ none then w.say inMoveSelf 0 none w.isDir
      else w.say inMovedFrom (c.nextCookie + 1) (if w.only ≠ none then none else some e.name) isdir) := by
    unfold act
    rw [haction]
    rfl
  rw [hact]
  refine ⟨rfl, ?_⟩
  by_cases honly : w.only = none
  · simp only [honly, ne_eq, not_true_eq_false, if_false, if_true]
    have hbit : ∀ d : Bool, (inMovedFrom ||| (if d then inIsdir else 0)) &&& inMovedFrom ≠ 0 := by
      decide
    rw [say_asked hw rfl (by decide)]
    exact ⟨_, rfl, rfl, hbit isdir, rfl⟩
  · simp only [honly, ne_eq, not_false_eq_true, if_true, if_false]
    exact still_say (by decide)

theorem act_new (hw : w.AsksAll) (hnew : e.isNew = true) :
    (act c w e isdir).1 = { c with openCookie := 0 } ∧
      if w.only = none then ∃ r, (act c w e isdir).2.2 = [r] ∧ IsTo w c.openCookie r
      else (act c w e isdir).2.2 = [] := by
  have haction : e.action = fileActionRenamedNewName := by simpa [Fni.isNew] using hnew
  have hact : act c w e isdir = ({ c with openCookie := 0 }, w,
      if w.only = none then
        w.say inMovedTo c.openCookie (if w.only ≠ none then none else some e.name) isdir
      else []) := by
    unfold act
    rw [haction]
    rfl
  rw [hact]
  refine ⟨rfl, ?_⟩
  by_cases honly : w.only = none
  · simp only [honly, ne_eq, not_true_eq_false, if_false, if_true]
    have hbit : ∀ d : Bool, (inMovedTo ||| (if d then inIsdir else 0)) &&& inMovedFrom = 0 ∧
        (inMovedTo ||| (if d then inIsdir else 0)) &&& inMovedTo ≠ 0 := by decide
    rw [say_asked hw rfl (by decide)]
    exact ⟨_, rfl, rfl, hbit isdir, rfl⟩
  · simp only [honly, if_false]

end Act

/-- An entry that is heard is acted on, and one that is not changes nothing that is said. -/
theorem translateOne_eq (c : Cookies) (w : WinWatch) (e : Fni) :
    (e.named && w.hears e) = true ∧ (∃ dirs isdir, ∀ r, r = act c { w with dirs } e isdir →
      translateOne c w e = r) ∨
    (e.named && w.hears e) = false ∧ (translateOne c w e).1 = c ∧ (translateOne c w e).2.2 = [] := by
  obtain ⟨dirs, hdirs⟩ := learn_watch w e
  unfold translateOne
  by_cases hnamed : e.named = true
  · have hhears : (learn w e).2.hears e = w.hears e := by
      rw [hdirs]
      rfl
    by_cases hheard : w.hears e = true
    · left
      refine ⟨by simp [hnamed, hheard], dirs, (learn w e).1, ?_⟩
      rintro r rfl
      simp only [hnamed, hhears, hheard, Bool.not_true, Bool.false_eq_true, if_false]
      rw [hdirs]
    · right
      rw [Bool.not_eq_true] at hheard
      simp [hnamed, hheard, hhears]
  · right
    rw [Bool.not_eq_true] at hnamed
    simp [hnamed]

/-- The watches that wait, after an entry that Windows reports in its place. -/
def halfStep (half : Int32 → Bool) (w : WinWatch) (e : Fni) : Int32 → Bool :=
  if w.only = none then fun wd => if wd = w.wd then e.isOld else half wd else half

/-- An entry that Windows reports in its place, and no other watch waits while it is heard as a half. -/
structure InPlace (half : Int32 → Bool) (w : WinWatch) (e : Fni) : Prop where
  place : w.only = none → half w.wd = e.isNew
  named : w.only = none → e.isOld = true → e.named = true
  apart : w.hearsHalf e = true → ∀ wd, half wd = true → wd = w.wd ∧ w.only = none

section Entry
variable {c' : Cookies}

/-- An entry that is not heard as a half leaves everything in place. -/
theorem Pairs.unheard (h : Pairs tr c half n) (hin : InPlace half w e) (hno : w.hearsHalf e = false)
    (hrs : Still rs) : Pairs (tr ++ rs) c (halfStep half w e) n := by
  apply (h.still hrs).fewer
  intro wd hwd
  unfold halfStep at hwd
  split at hwd
  · next honly =>
    dsimp only at hwd
    split at hwd
    · -- a directory hears of every name
      have hheard : w.hears e = true := by simp [WinWatch.hears, honly]
      have hhalf : w.hearsHalf e = true := by
        simp [WinWatch.hearsHalf, hin.named honly hwd, hheard, hwd]
      rw [hno] at hhalf
      cases hhalf
    · exact hwd
  · exact hwd

/-- While a watch on a file hears a half, no directory waits. -/
theorem InPlace.none_waits (hin : InPlace half w e) (hhalf : w.hearsHalf e = true)
    (honly : w.only ≠ none) (wd : Int32) : half wd = false := by
  by_contra hwait
  rw [Bool.not_eq_false] at hwait
  exact honly (hin.apart hhalf wd hwait).2

theorem Pairs.heardOld (h : Pairs tr c half n) (hin : InPlace half w e) (hhalf : w.hearsHalf e = true)
    (hold : e.isOld = true) (hn : n + 1 < 2 ^ 32)
    (hrs : if w.only = none then ∃ r, rs = [r] ∧ IsFrom w (c.nextCookie + 1) r else Still rs) :
    Pairs (tr ++ rs) ⟨c.nextCookie + 1, c.nextCookie + 1⟩ (halfStep half w e) (n + 1) := by
  by_cases honly : w.only = none
  · rw [if_pos honly] at hrs
    obtain ⟨r, rfl, hwd, hmask, hcookie⟩ := hrs
    have hnew : e.isNew = false := by
      simp only [Fni.isOld, Fni.isNew, beq_iff_eq, beq_eq_false_iff_ne] at hold ⊢
      rw [hold]
      decide
    have hnone : ∀ wd, half wd = false := by
      intro wd
      by_contra hwait
      rw [Bool.not_eq_false] at hwait
      have hself := hin.place honly
      rw [← (hin.apart hhalf wd hwait).1, hwait, hnew] at hself
      cases hself
    have hpairs := h.from hwd hmask hcookie hnone hn
    rw [halfStep, if_pos honly, hold]
    exact hpairs
  · rw [if_neg honly] at hrs
    rw [halfStep, if_neg honly]
    exact (h.still hrs).skips (hin.none_waits hhalf honly)

theorem Pairs.heardNew (h : Pairs tr c half n) (hin : InPlace half w e) (hhalf : w.hearsHalf e = true)
    (hold : e.isOld = false) (hnew : e.isNew = true)
    (hrs : if w.only = none then ∃ r, rs = [r] ∧ IsTo w c.openCookie r else rs = []) :
    Pairs (tr ++ rs) { c with openCookie := 0 } (halfStep half w e) n := by
  by_cases honly : w.only = none
  · rw [if_pos honly] at hrs
    obtain ⟨r, rfl, hwd, hmask, hcookie⟩ := hrs
    have hself := (hin.place honly).trans hnew
    have hpairs := h.to hwd hmask hcookie hself fun x hx => (hin.apart hhalf x hx).1
    rw [halfStep, if_pos honly, hold]
    exact hpairs
  · rw [if_neg honly] at hrs
    rw [hrs, List.append_nil, halfStep, if_neg honly]
    exact h.clears (hin.none_waits hhalf honly)

/-- An entry in its place keeps the pairs. -/
theorem Pairs.entry (h : Pairs tr c half n) (hw : w.AsksAll) (hin : InPlace half w e)
    (hn : n + (if w.hearsOld e then 1 else 0) < 2 ^ 32) :
    Pairs (tr ++ (translateOne c w e).2.2) (translateOne c w e).1 (halfStep half w e)
      (n + if w.hearsOld e then 1 else 0) := by
  rcases translateOne_eq c w e with ⟨hheard, dirs, isdir, hact⟩ | ⟨hheard, hc, hrs⟩
  · have heq := hact _ rfl
    have hw' : WinWatch.AsksAll { w with dirs } := hw
    by_cases hold : e.isOld = true
    · have hhalf : w.hearsHalf e = true := by simp [WinWatch.hearsHalf, hheard, hold]
      have hearsOld : w.hearsOld e = true := by simp [WinWatch.hearsOld, hheard, hold]
      obtain ⟨hc, hrs⟩ := act_old (w := { w with dirs }) c isdir hw' hold
      rw [← heq] at hc hrs
      rw [hearsOld, if_pos rfl] at hn ⊢
      rw [hc]
      exact h.heardOld hin hhalf hold hn hrs
    rw [Bool.not_eq_true] at hold
    have hearsOld : w.hearsOld e = false := by simp [WinWatch.hearsOld, hold]
    rw [hearsOld]
    by_cases hnew : e.isNew = true
    · have hhalf : w.hearsHalf e = true := by simp [WinWatch.hearsHalf, hheard, hnew]
      obtain ⟨hc, hrs⟩ := act_new (w := { w with dirs }) c isdir hw' hnew
      rw [← heq] at hc hrs
      rw [hc]
      exact h.heardNew hin hhalf hold hnew hrs
    · rw [Bool.not_eq_true] at hnew
      obtain ⟨hc, hrs⟩ := act_still (w := { w with dirs }) c isdir hold hnew
      rw [← heq] at hc hrs
      rw [hc]
      exact h.unheard hin (by simp [WinWatch.hearsHalf, hold, hnew]) hrs
  · have hno : w.hearsHalf e = false := by simp only [WinWatch.hearsHalf, hheard, Bool.false_and]
    have hearsOld : w.hearsOld e = false := by simp only [WinWatch.hearsOld, hheard, Bool.false_and]
    rw [hc, hrs, hearsOld]
    exact h.unheard hin hno still_nil

end Entry

/-- How many first halves of a chain a watch hears. -/
def WinWatch.olds (w : WinWatch) (chain : List Fni) : ℕ := chain.countP w.hearsOld

theorem reported_cons {half : Bool} {chain : List Fni}
    (h : (reported half (e :: chain)).isSome = true) :
    half = e.isNew ∧ reported half (e :: chain) = reported e.isOld chain := by
  cases half with
  | true =>
    rw [reported] at h ⊢
    by_cases hnew : e.isNew = true
    · have hold : e.isOld = false := by
        simp only [Fni.isOld, Fni.isNew, beq_iff_eq, beq_eq_false_iff_ne] at hnew ⊢
        rw [hnew]
        decide
      rw [if_pos hnew, hold]
      exact ⟨hnew.symm, rfl⟩
    · rw [if_neg hnew] at h
      cases h
  | false =>
    rw [reported] at h ⊢
    by_cases hnew : e.isNew = true
    · rw [if_pos hnew] at h
      cases h
    · rw [if_neg hnew]
      exact ⟨(Bool.eq_false_iff.mpr hnew).symm, rfl⟩

theorem halfAfter_cons {chain : List Fni} (dirs : List Name)
    (hreported : w.only = none → (reported (half w.wd) (e :: chain)).isSome = true) :
    halfAfter (halfStep half w e) { w with dirs } chain = halfAfter half w (e :: chain) := by
  unfold halfAfter halfStep
  by_cases honly : w.only = none
  · rw [if_pos honly, if_pos honly, if_pos honly]
    ext wd
    dsimp only
    by_cases hwd : wd = w.wd
    · rw [if_pos hwd, if_pos hwd, if_pos rfl, (reported_cons (hreported honly)).2]
    · rw [if_neg hwd, if_neg hwd, if_neg hwd]
  · rw [if_neg honly, if_neg honly, if_neg honly]

/-- A chain keeps the pairs, if no other watch waits while one of its halves is heard. -/
theorem Pairs.chain {chain : List Fni} (h : Pairs tr c half n) (hw : w.AsksAll)
    (hreported : w.only = none → (reported (half w.wd) chain).isSome = true ∧
      ∀ e ∈ chain, e.isOld = true → e.named = true)
    (hapart : (∃ e ∈ chain, w.hearsHalf e = true) →
      ∀ wd, half wd = true → wd = w.wd ∧ w.only = none)
    (hn : n + w.olds chain < 2 ^ 32) :
    Pairs (tr ++ (translateChain c w chain).2.2) (translateChain c w chain).1
      (halfAfter half w chain) (n + w.olds chain) := by
  induction chain generalizing tr c half n w with
  | nil =>
    rw [show (translateChain c w []).2.2 = [] from rfl, List.append_nil]
    apply h.fewer
    intro wd hwd
    unfold halfAfter at hwd
    split at hwd
    · dsimp only [reported, Option.getD_some] at hwd
      split at hwd
      · next heq => rwa [heq]
      · exact hwd
    · exact hwd
  | cons e chain ih =>
    have hcount : w.olds (e :: chain) = w.olds chain + if w.hearsOld e then 1 else 0 :=
      List.countP_cons
    rw [hcount] at hn ⊢
    have hin : InPlace half w e := by
      refine ⟨fun honly => ?_, fun honly => ?_, fun hhalf => ?_⟩
      · exact (reported_cons (hreported honly).1).1
      · exact (hreported honly).2 e List.mem_cons_self
      · exact hapart ⟨e, List.mem_cons_self, hhalf⟩
    have hone := h.entry hw hin (by omega)
    obtain ⟨dirs, hdirs⟩ := translateOne_watch c w e
    have hrest := ih (w := { w with dirs }) hone hw ?_ ?_ (by
      show n + (if w.hearsOld e then 1 else 0) + w.olds chain < 2 ^ 32
      omega)
    · show Pairs (tr ++ ((translateOne c w e).2.2 ++
        (translateChain (translateOne c w e).1 (translateOne c w e).2.1 chain).2.2))
        (translateChain (translateOne c w e).1 (translateOne c w e).2.1 chain).1 _ _
      rw [hdirs, ← List.append_assoc]
      rw [← halfAfter_cons dirs fun honly => (hreported honly).1, Nat.add_comm (w.olds chain),
        ← Nat.add_assoc]
      exact hrest
    · intro honly
      refine ⟨?_, fun x hx => (hreported honly).2 x (List.mem_cons_of_mem _ hx)⟩
      have hself : halfStep half w e w.wd = e.isOld := by simp [halfStep, show w.only = none from honly]
      have hcons := reported_cons (hreported honly).1
      show (reported (halfStep half w e w.wd) chain).isSome = true
      rw [hself, ← hcons.2]
      exact (hreported honly).1
    · rintro ⟨x, hx, hhalf⟩ wd hwait
      have hbefore := hapart ⟨x, List.mem_cons_of_mem _ hx, hhalf⟩
      unfold halfStep at hwait
      split at hwait
      · next honly =>
        dsimp only at hwait
        split at hwait
        · next heq => exact ⟨heq, honly⟩
        · exact hbefore wd hwait
      · exact hbefore wd hwait

end Chain

/-- The watch whose own chain a completion brings, if its directory can still be read. -/
def WinInst.reads (inst : WinInst) (c : Completion) : Option WinWatch :=
  match inst.watches.findIdx? fun w => w.wd == c.key || upKey w.wd == c.key with
  | none => none
  | some i =>
    match inst.watches[i]? with
    | none => none
    | some w => if w.wd ≠ c.key ∨ c.ok = false ∨ c.pathIsDir = false then none else some w

/-- An instance while its completions are translated. Ghost: the watches on directories that wait for
the second half of a rename, and how many first halves were heard. -/
structure Translating where
  inst : WinInst := {}
  half : Int32 → Bool := fun _ => false
  renames : ℕ := 0

/-- What may happen to the watches of an instance, and the completions in the order they come. -/
inductive PairLabel
  | take (c : Completion)
  | addWatch (path : Option Name) (mask : UInt32) (os : WinAnswers)
  | rmWatch (wd : Int32)
  | checkGone (there : ℕ → Presence)

namespace Translating

/-- A watch that is gone waits no longer. -/
def alive (inst : WinInst) (half : Int32 → Bool) (wd : Int32) : Bool :=
  half wd && inst.watches.any fun w => w.wd == wd && w.only == none

def withInst (s : Translating) (inst : WinInst) : Translating :=
  { s with inst, half := alive inst s.half }

def step (s : Translating) : PairLabel → Translating
  | .take c =>
    match s.inst.reads c with
    | none => s.withInst (s.inst.takeOne c).1
    | some w =>
      { inst := (s.inst.takeOne c).1
        half := alive (s.inst.takeOne c).1 (halfAfter s.half w c.chain)
        renames := s.renames + w.olds c.chain }
  | .addWatch path mask os => s.withInst (s.inst.addWatch path mask os).2.1
  | .rmWatch wd => s.withInst (s.inst.rmWatch 0 (fun _ => true) wd).2.1
  | .checkGone there => s.withInst (s.inst.checkGone there s.inst.watches.length).1

def records (s : Translating) : PairLabel → List Record
  | .take c => (s.inst.takeOne c).2
  | .addWatch _ _ _ => []
  | .rmWatch wd => if wd ∈ s.inst.live then [{ wd, mask := inIgnored }] else []
  | .checkGone there => (s.inst.checkGone there s.inst.watches.length).2

end Translating

def pairMachine : Machine Translating PairLabel Record where
  step s l := some (s.step l)
  events := Translating.records

/-- Watches ask for all events, and Windows reports the two halves of a rename in a directory one
behind the other, in one completed read of it or in two. -/
def Reports (s : Translating) : PairLabel → Prop
  | .take c => ∀ w ∈ s.inst.reads c, w.only = none → (reported (s.half w.wd) c.chain).isSome = true
  | .addWatch _ mask _ => mask &&& inAllEvents = inAllEvents
  | _ => True

/-- No watch hears of a half of a rename while another watch, on a directory, waits for the second
half of one, and a directory's old names are ones that are heard. -/
def Apart (s : Translating) : PairLabel → Prop
  | .take c => ∀ w ∈ s.inst.reads c,
      ((∃ e ∈ c.chain, w.hearsHalf e = true) →
        ∀ x ∈ s.inst.watches, s.half x.wd = true → x.wd = w.wd ∧ w.only = none) ∧
      (w.only = none → ∀ e ∈ c.chain, e.isOld = true → e.named = true)
  | _ => True

instance (s : Translating) (l : PairLabel) : Decidable (Reports s l) :=
  match l with
  | .take c => inferInstanceAs (Decidable (∀ w ∈ s.inst.reads c, _))
  | .addWatch _ mask _ => inferInstanceAs (Decidable (mask &&& inAllEvents = inAllEvents))
  | .rmWatch _ => isTrue trivial
  | .checkGone _ => isTrue trivial

instance (s : Translating) (l : PairLabel) : Decidable (Apart s l) :=
  match l with
  | .take c => inferInstanceAs (Decidable (∀ w ∈ s.inst.reads c, _))
  | .addWatch _ _ _ => isTrue trivial
  | .rmWatch _ => isTrue trivial
  | .checkGone _ => isTrue trivial

def WinInst.cookies (inst : WinInst) : Cookies := ⟨inst.nextCookie, inst.openCookie⟩

/-- What forgets watches at most, and says no half of a rename. -/
structure Forgets (inst : WinInst) (r : WinInst × List Record) : Prop where
  cookies : r.1.cookies = inst.cookies
  watches : r.1.watches.Sublist inst.watches
  still : Still r.2

section Forgets
variable {inst : WinInst} {w : WinWatch} {c : Completion}

theorem Forgets.nothing (inst : WinInst) : Forgets inst (inst, []) :=
  ⟨rfl, List.Sublist.refl _, still_nil⟩

theorem Forgets.one (inst : WinInst) (i : ℕ) {rs : List Record} (hrs : Still rs) :
    Forgets inst (inst.forget i, rs) := ⟨rfl, List.eraseIdx_sublist .., hrs⟩

theorem still_upOne (w : WinWatch) (e : Fni) : Still (upOne w e) := by
  unfold upOne
  split
  · exact still_nil
  split
  · exact still_ends w
  split
  · exact still_say (by decide)
  split
  · exact still_say (by decide)
  · exact still_nil

theorem still_translateUp (w : WinWatch) (chain : List Fni) : Still (translateUp w chain).2 := by
  intro r hr
  obtain ⟨e, -, hr⟩ := List.mem_flatMap.mp hr
  exact still_upOne w e r hr

theorem checkGone_forgets (inst : WinInst) (there : ℕ → Presence) (n : ℕ) :
    Forgets inst (inst.checkGone there n) := by
  induction n generalizing inst with
  | zero => exact .nothing inst
  | succ n ih =>
    unfold WinInst.checkGone
    split
    · exact ih inst
    next w hi =>
    split
    · exact ih inst
    · have hrest := ih (inst.forget n)
      exact ⟨hrest.cookies, hrest.watches.trans (List.eraseIdx_sublist ..),
        (still_ends w).append hrest.still⟩

/-- A completion that is not a directory's own chain. -/
theorem takeOne_forgets (h : inst.reads c = none) : Forgets inst (inst.takeOne c) := by
  cases hfind : inst.watches.findIdx? fun w => w.wd == c.key || upKey w.wd == c.key with
  | none =>
    simp only [WinInst.takeOne, hfind]
    exact .nothing inst
  | some i =>
    cases hi : inst.watches[i]? with
    | none =>
      simp only [WinInst.takeOne, hfind, hi]
      exact .nothing inst
    | some w =>
      simp only [WinInst.reads, hfind, hi] at h
      simp only [WinInst.takeOne, hfind, hi]
      by_cases hkey : w.wd ≠ c.key
      · have hup (r : Bool × List Record) (hr : Still r.2) :
            Forgets inst (if r.1 then (inst.forget i, r.2) else (inst, r.2)) := by
          split
          · exact .one inst i hr
          · exact ⟨rfl, List.Sublist.refl _, hr⟩
        rw [if_pos hkey]
        apply hup (if c.ok then translateUp w c.chain else (true, []))
        split
        · exact still_translateUp w c.chain
        · exact still_nil
      by_cases hgone : c.ok = false ∨ c.pathIsDir = false
      · rw [if_neg hkey, if_pos hgone]
        exact .one inst i (still_ends w)
      · rw [if_neg (by rintro (hne | hdir); exacts [hkey hne, hgone hdir])] at h
        cases h

/-- A directory's own chain is translated. -/
theorem takeOne_chain (h : inst.reads c = some w) : w ∈ inst.watches ∧ ∃ i dirs,
    inst.watches[i]? = some w ∧ (translateChain inst.cookies w c.chain).2.1 = { w with dirs } ∧
    (inst.takeOne c).1.cookies = (translateChain inst.cookies w c.chain).1 ∧
    (inst.takeOne c).1.watches = inst.watches.set i { w with dirs } ∧
    (inst.takeOne c).2 = (translateChain inst.cookies w c.chain).2.2 := by
  obtain ⟨dirs, hdirs⟩ := translateChain_watch inst.cookies w c.chain
  cases hfind : inst.watches.findIdx? fun w => w.wd == c.key || upKey w.wd == c.key with
  | none =>
    simp only [WinInst.reads, hfind] at h
    cases h
  | some i =>
    cases hi : inst.watches[i]? with
    | none =>
      simp only [WinInst.reads, hfind, hi] at h
      cases h
    | some w' =>
      simp only [WinInst.reads, hfind, hi] at h
      by_cases hreads : w'.wd ≠ c.key ∨ c.ok = false ∨ c.pathIsDir = false
      · rw [if_pos hreads] at h
        cases h
      rw [if_neg hreads] at h
      cases h
      rw [not_or] at hreads
      simp only [WinInst.takeOne, hfind, hi]
      rw [if_neg hreads.1, if_neg hreads.2]
      refine ⟨List.mem_of_getElem? hi, i, dirs, hi, hdirs, rfl, ?_, rfl⟩
      rw [← hdirs]
      rfl

end Forgets

section Asks
variable {inst : WinInst}

theorem addWatch_asks (h : ∀ w ∈ inst.watches, w.AsksAll) {mask : UInt32}
    (hmask : mask &&& inAllEvents = inAllEvents) (path : Option Name) (os : WinAnswers) :
    (inst.addWatch path mask os).2.1.cookies = inst.cookies ∧
      ∀ w ∈ (inst.addWatch path mask os).2.1.watches, w.AsksAll := by
  unfold WinInst.addWatch
  split
  · exact ⟨rfl, h⟩
  split
  · exact ⟨rfl, h⟩
  split
  · exact ⟨rfl, h⟩
  split
  · split
    · exact ⟨rfl, h⟩
    · refine ⟨rfl, fun w hw => ?_⟩
      rcases List.mem_or_eq_of_mem_set hw with hw | rfl
      · exact h w hw
      · exact hmask
  split
  · exact ⟨rfl, h⟩
  · next w hnew =>
    refine ⟨rfl, fun x hx => ?_⟩
    rcases List.mem_append.mp hx with hx | hx
    · exact h x hx
    · rw [List.eq_of_mem_singleton hx, WinWatch.AsksAll, (newWatch_given hnew).2]
      exact hmask

theorem rmWatch_forgets (inst : WinInst) (wd : Int32) (rs : List Record) (hrs : Still rs) :
    Forgets inst ((inst.rmWatch 0 (fun _ => true) wd).2.1, rs) := by
  unfold WinInst.rmWatch
  split
  · exact ⟨rfl, List.Sublist.refl _, hrs⟩
  · exact ⟨rfl, List.eraseIdx_sublist .., hrs⟩

end Asks

/-- What holds of the instance in every state of a run whose steps are all reported in place. -/
structure Translating.Sound (tr : List Record) (s : Translating) : Prop where
  asks : ∀ w ∈ s.inst.watches, w.AsksAll
  watched : ∀ wd, s.half wd = true → ∃ w ∈ s.inst.watches, w.wd = wd ∧ w.only = none
  pairs : s.renames < 2 ^ 32 → Pairs tr s.inst.cookies s.half s.renames

namespace Translating
variable {tr rs : List Record} {s : Translating} {inst : WinInst} {half : Int32 → Bool} {n : ℕ}

theorem alive_half {wd : Int32} (h : alive inst half wd = true) :
    half wd = true ∧ ∃ w ∈ inst.watches, w.wd = wd ∧ w.only = none := by
  obtain ⟨hhalf, hany⟩ := Bool.and_eq_true_iff.mp h
  obtain ⟨w, hw, hwd⟩ := List.any_eq_true.mp hany
  obtain ⟨hwd, honly⟩ := Bool.and_eq_true_iff.mp hwd
  exact ⟨hhalf, w, hw, beq_iff_eq.mp hwd, beq_iff_eq.mp honly⟩

/-- Whatever was said, those that wait are watched. -/
theorem sound_alive (hasks : ∀ w ∈ inst.watches, w.AsksAll)
    (hpairs : n < 2 ^ 32 → Pairs tr inst.cookies half n) : Sound tr ⟨inst, alive inst half, n⟩ :=
  ⟨hasks, fun _ h => (alive_half h).2, fun hn => (hpairs hn).fewer fun _ h => (alive_half h).1⟩

theorem Sound.forgets (h : s.Sound tr) {r : WinInst × List Record} (hr : Forgets s.inst r) :
    (s.withInst r.1).Sound (tr ++ r.2) := by
  apply sound_alive
  · exact fun w hw => h.asks w (hr.watches.subset hw)
  · intro hn
    rw [hr.cookies]
    exact (h.pairs hn).still hr.still

theorem Sound.chain (h : s.Sound tr) {c : Completion} {w : WinWatch} (hreads : s.inst.reads c = some w)
    (hreports : w.only = none → (reported (s.half w.wd) c.chain).isSome = true)
    (hapart : ((∃ e ∈ c.chain, w.hearsHalf e = true) →
        ∀ x ∈ s.inst.watches, s.half x.wd = true → x.wd = w.wd ∧ w.only = none) ∧
      (w.only = none → ∀ e ∈ c.chain, e.isOld = true → e.named = true)) :
    Sound (tr ++ (s.inst.takeOne c).2) ⟨(s.inst.takeOne c).1,
      alive (s.inst.takeOne c).1 (halfAfter s.half w c.chain), s.renames + w.olds c.chain⟩ := by
  obtain ⟨hmem, i, dirs, -, -, hcookies, hwatches, hrecords⟩ := takeOne_chain hreads
  apply sound_alive
  · intro x hx
    rw [hwatches] at hx
    rcases List.mem_or_eq_of_mem_set hx with hx | rfl
    · exact h.asks x hx
    · exact h.asks w hmem
  · intro hn
    rw [hcookies, hrecords]
    apply (h.pairs (by omega)).chain (h.asks w hmem)
    · exact fun honly => ⟨hreports honly, hapart.2 honly⟩
    · intro hheard wd hwait
      obtain ⟨x, hx, hwd, -⟩ := h.watched wd hwait
      rw [← hwd] at hwait ⊢
      exact hapart.1 hheard x hx hwait
    · exact hn

theorem Sound.take (h : s.Sound tr) {c : Completion} (hreports : Reports s (.take c))
    (hapart : Apart s (.take c)) : (s.step (.take c)).Sound (tr ++ (s.inst.takeOne c).2) := by
  cases hreads : s.inst.reads c with
  | none =>
    have hstep : s.step (.take c) = s.withInst (s.inst.takeOne c).1 := by simp only [step, hreads]
    rw [hstep]
    exact h.forgets (takeOne_forgets hreads)
  | some w =>
    have hstep : s.step (.take c) = ⟨(s.inst.takeOne c).1,
        alive (s.inst.takeOne c).1 (halfAfter s.half w c.chain), s.renames + w.olds c.chain⟩ := by
      simp only [step, hreads]
    rw [hstep]
    exact h.chain hreads (hreports w hreads) (hapart w hreads)

theorem still_gone (live : List Int32) (wd : Int32) :
    Still (if wd ∈ live then [{ wd, mask := inIgnored }] else []) := by
  intro r hr
  split at hr
  · rw [List.eq_of_mem_singleton hr]
    show inIgnored &&& (inMovedFrom ||| inMovedTo) = 0
    decide
  · cases hr

theorem Sound.step (h : s.Sound tr) {l : PairLabel} (hreports : Reports s l) (hapart : Apart s l) :
    (s.step l).Sound (tr ++ s.records l) := by
  cases l with
  | take c => exact h.take hreports hapart
  | addWatch path mask os =>
    obtain ⟨hcookies, hasks⟩ := addWatch_asks h.asks hreports path os
    show Sound (tr ++ []) _
    rw [List.append_nil]
    apply sound_alive hasks
    intro hn
    rw [hcookies]
    exact h.pairs hn
  | rmWatch wd => exact h.forgets (rmWatch_forgets s.inst wd _ (still_gone s.inst.live wd))
  | checkGone there => exact h.forgets (checkGone_forgets s.inst there _)

end Translating

/-- An instance but for what is queued. -/
def WinInst.bare (inst : WinInst) : WinInst := { inst with queue := {} }

/-- The record a call handed to the queue. -/
def InstEvent.told : InstEvent → List Record
  | .queue (.kept r) => [r]
  | .queue (.lost r) => [r]
  | _ => []

/-- The records `tr` are those of a run that leaves the watches and cookies of `inst`. -/
def Translates (tr : List Record) (inst : WinInst) : Prop :=
  ∃ s, Run pairMachine (fun _ _ => True) {} tr s ∧ s.inst.bare = inst.bare

section Calls
variable {inst inst' : WinInst} {tr : List Record} {q : Queue}

theorem takeOne_bare (inst : WinInst) (q : Queue) (c : Completion) :
    WinInst.takeOne { inst with queue := q } c =
      ({ (inst.takeOne c).1 with queue := q }, (inst.takeOne c).2) := by
  unfold WinInst.takeOne
  dsimp only
  repeat' split
  all_goals rfl

theorem checkGone_bare (inst : WinInst) (q : Queue) (there : ℕ → Presence) (n : ℕ) :
    WinInst.checkGone { inst with queue := q } there n =
      ({ (inst.checkGone there n).1 with queue := q }, (inst.checkGone there n).2) := by
  induction n generalizing inst with
  | zero => rfl
  | succ n ih =>
    unfold WinInst.checkGone
    dsimp only
    split
    · exact ih inst
    split
    · exact ih inst
    · have hrest := ih (inst.forget n)
      have hforget : WinInst.forget { inst with queue := q } n = { inst.forget n with queue := q } := rfl
      rw [hforget, hrest]

theorem Translates.requeue (h : Translates tr inst) (q : Queue) :
    Translates tr { inst with queue := q } := h

/-- A run goes on from the same watches and cookies. -/
theorem Translates.next (h : Translates tr inst) (l : PairLabel) {rs : List Record}
    (hl : ∀ s : Translating, s.inst = { inst with queue := s.inst.queue } →
      (s.step l).inst.bare = inst'.bare ∧ s.records l = rs) : Translates (tr ++ rs) inst' := by
  obtain ⟨s, hr, hbare⟩ := h
  have hs : s.inst = { inst with queue := s.inst.queue } :=
    calc s.inst = { s.inst.bare with queue := s.inst.queue } := rfl
      _ = { inst with queue := s.inst.queue } := by rw [hbare]; rfl
  obtain ⟨hinst, hrecords⟩ := hl s hs
  rw [← hrecords]
  exact ⟨s.step l, hr.next (l := l) trivial rfl, hinst⟩

theorem Translates.takeEvents (h : Translates tr inst) (cs : List Completion) :
    Translates (tr ++ (inst.takeEvents cs).2) (inst.takeEvents cs).1 := by
  induction cs generalizing inst tr with
  | nil =>
    show Translates (tr ++ []) inst
    rwa [List.append_nil]
  | cons c cs ih =>
    have hone : Translates (tr ++ (inst.takeOne c).2) (inst.takeOne c).1 := by
      apply h.next (.take c)
      intro s hs
      have htake := takeOne_bare inst s.inst.queue c
      rw [← hs] at htake
      have hstep : (s.step (.take c)).inst = (s.inst.takeOne c).1 := by
        unfold Translating.step
        dsimp only
        split <;> rfl
      have hrecords : s.records (.take c) = (s.inst.takeOne c).2 := rfl
      rw [hstep, hrecords, htake]
      exact ⟨rfl, rfl⟩
    have hrest := ih hone
    rw [List.append_assoc] at hrest
    exact hrest

theorem Translates.checkGone (h : Translates tr inst) (there : ℕ → Presence) :
    Translates (tr ++ (inst.checkGone there inst.watches.length).2)
      (inst.checkGone there inst.watches.length).1 := by
  apply h.next (.checkGone there)
  intro s hs
  have hgone := checkGone_bare inst s.inst.queue there inst.watches.length
  have hlen : s.inst.watches.length = inst.watches.length := by rw [hs]
  show (s.inst.checkGone there s.inst.watches.length).1.bare = _ ∧
    (s.inst.checkGone there s.inst.watches.length).2 = _
  rw [← hs, ← hlen] at hgone
  rw [hgone, hlen]
  exact ⟨rfl, rfl⟩

theorem Translates.addWatch (h : Translates tr inst) (path : Option Name) (mask : UInt32)
    (os : WinAnswers) : Translates tr (inst.addWatch path mask os).2.1 := by
  rw [← List.append_nil tr]
  apply h.next (.addWatch path mask os)
  intro s hs
  refine ⟨?_, rfl⟩
  show (s.inst.addWatch path mask os).2.1.bare = _
  rw [hs]
  unfold WinInst.addWatch WinInst.newWatch WinInst.openWatch
  dsimp only
  repeat' split
  all_goals rfl

theorem Translates.rmWatch (h : Translates tr inst) (queueMax : ℕ) (grown : ℕ → Bool) (wd : Int32) :
    Translates (tr ++ if wd ∈ inst.live then [{ wd, mask := inIgnored }] else [])
      (inst.rmWatch queueMax grown wd).2.1 := by
  apply h.next (.rmWatch wd)
  intro s hs
  have hlive : s.inst.live = inst.live := by rw [hs]; rfl
  have hwatches : s.inst.watches = inst.watches := by rw [hs]
  constructor
  · show (s.inst.rmWatch 0 (fun _ => true) wd).2.1.bare = _
    unfold WinInst.rmWatch
    rw [hwatches]
    split
    · rw [hs]
      rfl
    · rw [hs]
      rfl
  · show (if wd ∈ s.inst.live then _ else _) = _
    rw [hlive]

theorem told_emits (queueMax : ℕ) (grown : ℕ → Bool) (q : Queue) (rs : List Record) :
    (((q.emitsEvents queueMax grown rs).map InstEvent.queue).flatMap InstEvent.told).Sublist rs := by
  induction rs generalizing q grown with
  | nil => exact List.Sublist.refl _
  | cons r rs ih =>
    have hone : (((q.emitEvents queueMax (grown 0) r).map InstEvent.queue).flatMap
        InstEvent.told).Sublist [r] := by
      unfold Queue.emitEvents
      repeat' split
      · exact List.Sublist.refl [r]
      · exact List.Sublist.refl [r]
      · exact List.nil_sublist _
      · exact List.Sublist.refl [r]
    rw [Queue.emitsEvents, List.map_append, List.flatMap_append]
    exact hone.append (ih _ _)

/-- The events of an instance's calls are of records of a run. -/
def Recounts (evs : List InstEvent) (inst : WinInst) : Prop :=
  ∃ tr, Translates tr inst ∧ (evs.flatMap InstEvent.told).Sublist tr

variable {evs evs' : List InstEvent} {queueMax : ℕ}

/-- What a step says, it says in the calls' order. -/
theorem Recounts.says (h : Recounts evs inst) (queueMax : ℕ) {r : WinInst × List Record}
    (hr : ∀ tr, Translates tr inst → Translates (tr ++ r.2) r.1) (grown : ℕ → Bool) :
    Recounts (evs ++ (r.1.say queueMax grown r.2).2) (r.1.say queueMax grown r.2).1 := by
  obtain ⟨tr, htr, hsub⟩ := h
  refine ⟨tr ++ r.2, (hr tr htr).requeue _, ?_⟩
  rw [List.flatMap_append]
  exact hsub.append (told_emits queueMax grown r.1.queue r.2)

theorem Recounts.round (h : Recounts evs inst) (queueMax : ℕ) (r : WinInst.Round) :
    Recounts (evs ++ (inst.round queueMax r).2) (inst.round queueMax r).1 := by
  have htaken := h.says queueMax (fun tr htr => htr.takeEvents r.completions) r.grown
  unfold WinInst.round
  dsimp only
  split
  · rw [← List.append_assoc]
    exact htaken.says queueMax (fun tr htr => htr.checkGone r.there) r.grownIdle
  · exact htaken

theorem Recounts.rounds {rs : List WinInst.Round} (h : Recounts evs inst)
    (hr : inst.rounds queueMax rs = some (inst', evs')) : Recounts (evs ++ evs') inst' := by
  have hsame : Recounts (evs ++ []) inst := by rwa [List.append_nil]
  induction rs generalizing inst evs evs' with
  | nil =>
    unfold WinInst.rounds at hr
    split at hr
    · cases hr
    · cases hr
      exact hsame
  | cons r rs ih =>
    have hround := h.round queueMax r
    unfold WinInst.rounds at hr
    split at hr
    · cases hr
      exact hsame
    dsimp only at hr
    split at hr
    · cases hr
      exact hround
    split at hr
    · cases hr
    · next hrest =>
      cases hr
      rw [← List.append_assoc]
      exact ih hround hrest (by rwa [List.append_nil])

theorem Recounts.read {len : ℕ} {rs : List WinInst.Round} {n : Int} (h : Recounts evs inst)
    (hr : inst.read queueMax len rs = some (n, inst', evs')) : Recounts (evs ++ evs') inst' := by
  unfold WinInst.read at hr
  split at hr
  · cases hr
    rwa [List.append_nil]
  split at hr
  · cases hr
  · next told hrounds =>
    cases hr
    obtain ⟨tr, htr, hsub⟩ := h.rounds hrounds
    refine ⟨tr, htr.requeue _, ?_⟩
    have htold (buf : List UInt8) : [InstEvent.queue (.took buf)].flatMap InstEvent.told = [] := rfl
    rw [← List.append_assoc, List.flatMap_append, htold, List.append_nil]
    exact hsub

theorem Recounts.rmWatch (h : Recounts evs inst) (wd : Int32) (grown : ℕ → Bool) :
    Recounts (evs ++ (inst.rmWatch queueMax grown wd).2.2) (inst.rmWatch queueMax grown wd).2.1 := by
  obtain ⟨tr, htr, hsub⟩ := h
  refine ⟨_, htr.rmWatch queueMax grown wd, ?_⟩
  rw [List.flatMap_append]
  apply hsub.append
  unfold WinInst.rmWatch
  split
  · exact List.nil_sublist _
  · next i hfind =>
    obtain ⟨hlt, hp, -⟩ := List.findIdx?_eq_some_iff_getElem.mp hfind
    have hlive : wd ∈ inst.live :=
      List.mem_map.mpr ⟨_, List.getElem_mem hlt, beq_iff_eq.mp hp⟩
    rw [if_pos hlive]
    exact told_emits queueMax grown inst.queue [{ wd, mask := inIgnored }]

/-- What an instance's calls say is said in a run of its translations, which leaves the same watches
and cookies. -/
theorem win_run_recounts {C : WinInst → WinLabel → Prop} (hr : Run (winMachine queueMax) C {} evs inst) :
    Recounts evs inst := by
  apply hr.invariant fun evs inst => Recounts evs inst
  · exact ⟨[], ⟨{}, .start, rfl⟩, List.Sublist.refl _⟩
  intro evs inst l inst' _ h _ hs
  cases l with
  | addWatch path mask os =>
    cases hs
    obtain ⟨tr, htr, hsub⟩ := h
    refine ⟨tr, htr.addWatch path mask os, ?_⟩
    have hnone : (inst.addWatch path mask os).2.2.flatMap InstEvent.told = [] := by
      unfold WinInst.addWatch
      repeat' split
      all_goals rfl
    show ((evs ++ (inst.addWatch path mask os).2.2).flatMap InstEvent.told).Sublist tr
    rw [List.flatMap_append, hnone, List.append_nil]
    exact hsub
  | rmWatch wd grown =>
    cases hs
    exact h.rmWatch wd grown
  | read len rs =>
    obtain ⟨⟨n, inst'', evs'⟩, hread, heq⟩ := Option.map_eq_some_iff.mp hs
    cases heq
    have hevs : (winMachine queueMax).events inst (.read len rs) = evs' := by
      show ((inst.read queueMax len rs).map fun r => r.2.2).getD [] = evs'
      rw [hread]
      rfl
    rw [hevs]
    exact h.read hread

end Calls

theorem cookies_nodup {n : ℕ} (hn : n < 2 ^ 32) :
    ((List.range n).map fun j => UInt32.ofNat (j + 1)).Nodup := by
  apply List.Nodup.map_on _ List.nodup_range
  intro j hj k hk heq
  have hsize : UInt32.size = 2 ^ 32 := rfl
  rw [List.mem_range] at hj hk
  have hnat := congrArg UInt32.toNat heq
  rw [UInt32.toNat_ofNat_of_lt' (by omega), UInt32.toNat_ofNat_of_lt' (by omega)] at hnat
  omega

/-- In every run in which no watch hears of a half of a rename while a directory waits for a second
half, each second half has the cookie of its first half, and no two first halves share one. -/
theorem moves_pair_apart {tr : List Record} {s : Translating}
    (hr : Run pairMachine (fun s l => Reports s l ∧ Apart s l) {} tr s) (hfew : s.renames < 2 ^ 32) :
    (∀ wd, AtEach Follows (moves wd tr)) ∧ (fromCookies tr).Nodup := by
  have hsound : s.Sound tr := by
    apply hr.invariant fun tr s => s.Sound tr
    · refine ⟨fun w hw => absurd hw List.not_mem_nil, fun wd hwd => ?_, fun _ => ?_⟩
      · cases hwd
      · have hnone : AtEach Follows ([] : List (Bool × UInt32)) := by
          intro pre m post he
          simp at he
        exact ⟨rfl, List.Sublist.refl _, fun _ => hnone, fun _ hwd => by cases hwd⟩
    · intro tr s l s' _ h hc hs
      cases hs
      exact h.step hc.1 hc.2
  have hpairs := hsound.pairs hfew
  exact ⟨hpairs.paired, (cookies_nodup hfew).sublist hpairs.used⟩

/-- A rename whose halves come in two reads of a watched directory, with a watch on a file in it. -/
theorem moves_pair_apart_halved : ∃ tr s,
    Run pairMachine (fun s l => Reports s l ∧ Apart s l) {} tr s ∧
      moves 1 tr = [(true, 1), (false, 1), (true, 2), (false, 2)] ∧ s.renames < 2 ^ 32 ∧
      (∀ wd, AtEach Follows (moves wd tr)) ∧ (fromCookies tr).Nodup := by
  obtain ⟨tr, s, hr, hmoves, hfew⟩ := Run.of_exec pairMachine
    (fun s l => Reports s l ∧ Apart s l) {}
    (fun tr s => moves 1 tr = [(true, 1), (false, 1), (true, 2), (false, 2)] ∧ s.renames < 2 ^ 32)
    [.addWatch (some [100]) inAllEvents { attrs := some true },
      .addWatch (some [100, 92, 102]) inAllEvents { attrs := some false },
      .take { key := 1, chain := [⟨fileActionRenamedOldName, [97], false, true⟩] },
      .take { key := 2, chain := [⟨fileActionModified, [102], false, true⟩] },
      .take { key := 1, chain := [⟨fileActionRenamedNewName, [98], false, true⟩,
        ⟨fileActionRenamedOldName, [98], false, true⟩, ⟨fileActionRenamedNewName, [97], false, true⟩] }]
    (by decide +kernel)
  exact ⟨tr, s, hr, hmoves, hfew, moves_pair_apart hr hfew⟩

/-- Another directory's rename comes between the two halves, and the second half has the cookie 0. -/
theorem moves_pair_crossed : ∃ tr s, Run pairMachine Reports {} tr s ∧ s.renames < 2 ^ 32 ∧
    ¬ ((∀ wd, AtEach Follows (moves wd tr)) ∧ (fromCookies tr).Nodup) := by
  obtain ⟨tr, s, hr, hmoves, hfew⟩ := Run.of_exec pairMachine Reports {}
    (fun tr s => moves 1 tr = [(true, 1), (false, 0)] ∧ s.renames < 2 ^ 32)
    [.addWatch (some [100]) inAllEvents { attrs := some true },
      .addWatch (some [101]) inAllEvents { attrs := some true },
      .take { key := 1, chain := [⟨fileActionRenamedOldName, [97], false, true⟩] },
      .take { key := 2, chain := [⟨fileActionRenamedOldName, [99], false, true⟩,
        ⟨fileActionRenamedNewName, [100], false, true⟩] },
      .take { key := 1, chain := [⟨fileActionRenamedNewName, [98], false, true⟩] }]
    (by decide +kernel)
  refine ⟨tr, s, hr, hfew, fun h => ?_⟩
  have heach := h.1 1
  rw [hmoves] at heach
  exact (heach [(true, 1)] (false, 0) [] rfl rfl).2 rfl

end SlipstreamIO.Inotify
