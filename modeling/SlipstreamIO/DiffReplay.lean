import Mathlib.Data.List.Nodup
import SlipstreamIO.InotifyWindows
import SlipstreamIO.SetReplay

/-! The records of a directory's difference, replayed on the set of its names. Each loop of
directory_changed has its share: the names on both sides stay, the ones that left go and take the
places they moved to, and what is new is added last. -/
namespace SlipstreamIO.Inotify
open SetReplay

/-- The watch asks for all events. -/
def Watch.AsksAll (w : Watch) : Prop := w.mask &&& inAllEvents = inAllEvents

inductive Fate
  | adds
  | drops
  | touches
  deriving DecidableEq

/-- What a mask says of the name it comes with. -/
def fate (mask : UInt32) : Option Fate :=
  if mask &&& (inCreate ||| inMovedTo) ≠ 0 then some .adds
  else if mask &&& (inDelete ||| inMovedFrom) ≠ 0 then some .drops
  else if mask &&& (inModify ||| inAttrib) ≠ 0 then some .touches
  else none

/-- What a record says of the set of names. -/
def Record.change (r : Record) : Option (Change Name) :=
  match fate r.mask, r.name with
  | some .adds, some n => some (.add n)
  | some .drops, some n => some (.drop n)
  | some .touches, some n => some (.touch n)
  | _, _ => none

def Means (rs : List Record) (cs : List (Change Name)) : Prop := rs.map Record.change = cs.map some

theorem means_nil : Means [] [] := rfl

theorem Means.append {rs rs' : List Record} {cs cs' : List (Change Name)} (h : Means rs cs)
    (h' : Means rs' cs') : Means (rs ++ rs') (cs ++ cs') := by
  unfold Means at *
  rw [List.map_append, List.map_append, h, h']

theorem Means.flatMap {α : Type} (l : List α) {f : α → List Record} {g : α → List (Change Name)}
    (h : ∀ x ∈ l, Means (f x) (g x)) : Means (l.flatMap f) (l.flatMap g) := by
  induction l with
  | nil => rfl
  | cons x l ih =>
    rw [List.flatMap_cons, List.flatMap_cons]
    exact (h x List.mem_cons_self).append (ih fun y hy => h y (List.mem_cons_of_mem _ hy))

/-- The bytes a record with this name takes. -/
def nameRoom (n : Name) : ℕ := eventSize + (nameLen (some n)).toNat

def weight (rs : List Record) : ℕ := (rs.map Record.total).sum

def entryRoom (es : List Entry) : ℕ := (es.map fun e => nameRoom e.name).sum

@[simp] theorem weight_append (rs rs' : List Record) : weight (rs ++ rs') = weight rs + weight rs' := by
  simp [weight]

section Emit
variable {w : Watch} {m cookie : UInt32} {n : Name} {d : Bool}

theorem emitMasked_asked (hw : w.AsksAll) (hm : m &&& inAllEvents = m) (hm0 : m ≠ 0) :
    emitMasked w m cookie (some n) d =
      [{ wd := w.wd, mask := m ||| (if d then inIsdir else 0), cookie, name := some n }] := by
  unfold emitMasked
  rw [if_neg]
  intro h
  apply hm0
  have hask : m &&& w.mask = m := by
    calc m &&& w.mask = m &&& inAllEvents &&& w.mask := by rw [hm]
      _ = m &&& (w.mask &&& inAllEvents) := by rw [UInt32.and_assoc, UInt32.and_comm w.mask]
      _ = m := by rw [hw, hm]
  have hor : m &&& (w.mask ||| (inIgnored ||| inQOverflow ||| inUnmount)) =
      m &&& w.mask ||| m &&& (inIgnored ||| inQOverflow ||| inUnmount) := by
    apply UInt32.toBitVec_inj.mp
    exact BitVec.and_or_distrib_left
  rw [hor, hask, UInt32.or_eq_zero_iff] at h
  exact h.1

theorem weight_emit (hw : w.AsksAll) (hm : m &&& inAllEvents = m) (hm0 : m ≠ 0) :
    weight (emitMasked w m cookie (some n) d) = nameRoom n := by
  rw [emitMasked_asked hw hm hm0]
  simp [weight, Record.total, nameRoom]

/-- The directory bit changes nothing of what a mask says. -/
theorem fate_isdir {k : Fate} (hk : ∀ d : Bool, fate (m ||| (if d then inIsdir else 0)) = some k)
    (hw : w.AsksAll) (hm : m &&& inAllEvents = m) (hm0 : m ≠ 0) :
    (emitMasked w m cookie (some n) d).map Record.change = [match k with
      | .adds => some (.add n)
      | .drops => some (.drop n)
      | .touches => some (.touch n)] := by
  rw [emitMasked_asked hw hm hm0, List.map_singleton, Record.change, hk d]
  cases k <;> rfl

theorem means_add (hw : w.AsksAll) (hm : m = inCreate ∨ m = inMovedTo) :
    Means (emitMasked w m cookie (some n) d) [.add n] := by
  rcases hm with rfl | rfl <;> exact fate_isdir (k := .adds) (by decide) hw rfl (by decide)

theorem means_drop (hw : w.AsksAll) (hm : m = inDelete ∨ m = inMovedFrom) :
    Means (emitMasked w m cookie (some n) d) [.drop n] := by
  rcases hm with rfl | rfl <;> exact fate_isdir (k := .drops) (by decide) hw rfl (by decide)

theorem means_touch (hw : w.AsksAll) (hm : m = inModify ∨ m = inAttrib) :
    Means (emitMasked w m cookie (some n) d) [.touch n] := by
  rcases hm with rfl | rfl <;> exact fate_isdir (k := .touches) (by decide) hw rfl (by decide)

end Emit

/-- A name on both sides: it stays, whatever is said of it. -/
theorem compareKid_spec {w : Watch} (hw : w.AsksAll) {had f : Entry} (hname : had.name = f.name) :
    ∃ cs, Means (compareKid w had f) cs ∧ weight (compareKid w had f) ≤ 2 * nameRoom f.name ∧
      (cs = [] ∨ cs = [.touch f.name] ∨ cs = [.drop f.name, .add f.name]) := by
  unfold compareKid
  rw [hname]
  split_ifs
  · refine ⟨_, (means_drop hw (Or.inl rfl)).append (means_add hw (Or.inl rfl)), ?_, Or.inr (Or.inr rfl)⟩
    rw [weight_append, weight_emit hw rfl (by decide), weight_emit hw rfl (by decide)]
    omega
  · refine ⟨_, means_touch hw (Or.inl rfl), ?_, Or.inr (Or.inl rfl)⟩
    rw [weight_emit hw rfl (by decide)]
    omega
  · refine ⟨_, means_touch hw (Or.inr rfl), ?_, Or.inr (Or.inl rfl)⟩
    rw [weight_emit hw rfl (by decide)]
    omega
  · exact ⟨[], means_nil, Nat.zero_le _, Or.inl rfl⟩

section SameNames
variable {w : Watch} {kids fs : List Entry} {f : Entry}

def names (es : List Entry) : List Name := es.map Entry.name

/-- The entry, marked if its name is one of `ns`. -/
def Entry.note (ns : List Name) (e : Entry) : Entry := { e with seen := e.seen || decide (e.name ∈ ns) }

theorem Entry.note_of_not_mem {ns : List Name} {e : Entry} (h : e.name ∉ ns) : e.note ns = e := by
  simp [Entry.note, h]

theorem Entry.note_of_mem {ns : List Name} {e : Entry} (h : e.name ∈ ns) :
    e.note ns = { e with seen := true } := by
  simp [Entry.note, h]

theorem Entry.note_note (ns : List Name) (n : Name) (e : Entry) :
    (e.note [n]).note ns = e.note (n :: ns) := by
  simp [Entry.note, Bool.or_assoc]

@[simp] theorem names_note (ns : List Name) (es : List Entry) : names (es.map (Entry.note ns)) = names es := by
  simp [names, Entry.note]

/-- What is said of a name of the new content. -/
def sameRecords (w : Watch) (kids : List Entry) (f : Entry) : List Record :=
  match kids.find? fun k => k.name == f.name with
  | none => []
  | some had => compareKid w had f

theorem sameRecords_note (ns : List Name) :
    sameRecords w (kids.map (Entry.note ns)) = sameRecords w kids := by
  funext f
  unfold sameRecords
  rw [List.find?_map]
  show (match (kids.find? fun k => k.name == f.name).map (Entry.note ns) with
    | none => []
    | some had => compareKid w had f) = _
  cases kids.find? fun k => k.name == f.name <;> rfl

/-- Marking the first entry of a name is marking every entry of it, where names are distinct. -/
theorem set_seen (hk : (names kids).Nodup) {i : ℕ} {had : Entry} (hi : kids[i]? = some had) :
    kids.set i { had with seen := true } = kids.map (Entry.note [had.name]) := by
  apply List.ext_getElem?
  intro j
  rw [List.getElem?_map]
  by_cases hij : i = j
  · subst hij
    obtain ⟨hlt, -⟩ := List.getElem?_eq_some_iff.mp hi
    rw [List.getElem?_set_self hlt, hi, Option.map_some, Entry.note_of_mem List.mem_cons_self]
  · rw [List.getElem?_set_ne hij]
    cases hj : kids[j]? with
    | none => rfl
    | some e =>
      have hne : e.name ∉ [had.name] := by
        intro hmem
        have hname := List.eq_of_mem_singleton hmem
        have hni : (names kids)[i]? = some had.name := by simp [names, hi]
        have hnj : (names kids)[j]? = some had.name := by simp [names, hj, hname]
        apply hij
        exact (List.getElem?_inj (List.getElem?_eq_some_iff.mp hni).1 hk).mp (hni.trans hnj.symm)
      rw [Option.map_some, Entry.note_of_not_mem hne]

theorem map_note_of_absent {ns : List Name} {es : List Entry} (h : ∀ e ∈ es, e.name ∉ ns) :
    es.map (Entry.note ns) = es := by
  calc es.map (Entry.note ns) = es.map id :=
        List.map_congr_left fun e he => Entry.note_of_not_mem (h e he)
    _ = es := List.map_id es

theorem kidByName_none (hf : kidByName kids f.name = none) : f.name ∉ names kids := by
  intro hmem
  obtain ⟨e, he, hname⟩ := List.mem_map.mp hmem
  have := List.findIdx?_eq_none_iff.mp hf e he
  simp [hname] at this

theorem kidByName_some {i : ℕ} (hf : kidByName kids f.name = some i) :
    ∃ had, kids[i]? = some had ∧ had.name = f.name ∧
      kids.find? (fun k => k.name == f.name) = some had := by
  obtain ⟨hi, hname, hfirst⟩ := List.findIdx?_eq_some_iff_getElem.mp hf
  refine ⟨kids[i], List.getElem?_eq_getElem hi, beq_iff_eq.mp hname, ?_⟩
  exact List.find?_eq_some_iff_getElem.mpr ⟨hname, i, hi, rfl, fun j hj => by simpa using hfirst j hj⟩

/-- The first loop marks the names on both sides, on both sides. -/
theorem sameNames_eq (hk : (names kids).Nodup) :
    sameNames w kids fs = (kids.map (Entry.note (names fs)), fs.map (Entry.note (names kids)),
      fs.flatMap (sameRecords w kids)) := by
  induction fs generalizing kids with
  | nil =>
    rw [names, List.map_nil, map_note_of_absent fun e _ => List.not_mem_nil]
    rfl
  | cons f fs ih =>
    rw [sameNames, List.map_cons, List.flatMap_cons]
    cases hf : kidByName kids f.name with
    | none =>
      have habsent := kidByName_none hf
      have hkids : kids.map (Entry.note (names (f :: fs))) = kids.map (Entry.note (names fs)) := by
        apply List.map_congr_left
        intro e he
        rw [names, List.map_cons, ← Entry.note_note, @Entry.note_of_not_mem [f.name]]
        · rfl
        · intro hmem
          exact habsent (List.eq_of_mem_singleton hmem ▸ List.mem_map_of_mem he)
      have hrecords : sameRecords w kids f = [] := by
        rw [sameRecords, List.find?_eq_none.mpr]
        intro e he hname
        exact habsent (List.mem_map.mpr ⟨e, he, beq_iff_eq.mp hname⟩)
      rw [ih hk, hkids, hrecords, Entry.note_of_not_mem habsent]
      rfl
    | some i =>
      obtain ⟨had, hi, hname, hfind⟩ := kidByName_some hf
      have hmem : f.name ∈ names kids := hname ▸ List.mem_map_of_mem (List.mem_of_getElem? hi)
      have hkids : (kids.map (Entry.note [f.name])).map (Entry.note (names fs)) =
          kids.map (Entry.note (names (f :: fs))) := by
        rw [List.map_map]
        exact List.map_congr_left fun e _ => Entry.note_note (names fs) f.name e
      have hrecords : sameRecords w kids f = compareKid w had f := by rw [sameRecords, hfind]
      simp only [hi]
      rw [set_seen hk hi, hname, ih (by rwa [names_note]), hkids, names_note, hrecords,
        Entry.note_of_mem hmem, sameRecords_note]

/-- The first loop leaves every set with the old names in it as it was. -/
theorem sameRecords_spec (hw : w.AsksAll) (f : Entry) :
    ∃ cs, Means (sameRecords w kids f) cs ∧
      weight (sameRecords w kids f) ≤ (if f.name ∈ names kids then 2 * nameRoom f.name else 0) ∧
      (∀ a, .touch a ∈ cs → a = f.name ∧ a ∈ names kids) ∧
      ∀ s : Finset Name, (∀ n ∈ names kids, n ∈ s) → replay s cs = some s := by
  unfold sameRecords
  cases hfind : kids.find? fun k => k.name == f.name with
  | none => exact ⟨[], means_nil, Nat.zero_le _, fun a ha => absurd ha List.not_mem_nil, fun _ _ => rfl⟩
  | some had =>
    have hname : had.name = f.name := by simpa using List.find?_some hfind
    have hmem : f.name ∈ names kids := hname ▸ List.mem_map_of_mem (List.mem_of_find?_eq_some hfind)
    obtain ⟨cs, hmeans, hweight, hcs⟩ := compareKid_spec hw hname
    rw [if_pos hmem]
    refine ⟨cs, hmeans, hweight, fun a ha => ?_, fun s hs => ?_⟩
    · rcases hcs with rfl | rfl | rfl <;> simp at ha
      exact ⟨ha, ha ▸ hmem⟩
    · rcases hcs with rfl | rfl | rfl
      · rfl
      · exact replay_touch (hs _ hmem)
      · exact replay_replace (hs _ hmem)

end SameNames

section Leavers
variable {w : Watch} {fresh olds : List Entry} {cookie : UInt32}

/-- The entries no loop has spoken of yet, and the names of the others. -/
def unseen (es : List Entry) : List Entry := es.filter fun e => !e.seen

def seenNames (es : List Entry) : Finset Name := (names (es.filter Entry.seen)).toFinset

def Entry.unmark (e : Entry) : Entry := { e with seen := false }

/-- The entry a name moved to, in its place among the others. -/
theorem landed_spec {ino : UInt64} {k : ℕ}
    (hk : fresh.findIdx? (fun f => !f.seen && f.ino == ino) = some k) :
    ∃ l landed l', fresh[k]? = some landed ∧ landed.seen = false ∧ fresh = l ++ landed :: l' ∧
      ∀ e, fresh.set k e = l ++ e :: l' := by
  obtain ⟨hlt, hp, -⟩ := List.findIdx?_eq_some_iff_getElem.mp hk
  refine ⟨fresh.take k, fresh[k], fresh.drop (k + 1), List.getElem?_eq_getElem hlt, by simpa using
    (Bool.and_eq_true_iff.mp hp).1, ?_, fun e => List.set_eq_take_append_cons_drop.trans (if_pos hlt)⟩
  rw [List.getElem_cons_drop, List.take_append_drop]

theorem seenNames_put {l l' : List Entry} {e : Entry} (he : e.seen = false) :
    seenNames (l ++ { e with seen := true } :: l') = insert e.name (seenNames (l ++ e :: l')) := by
  ext n
  simp [seenNames, names, he]

theorem seenNames_unseen {l l' : List Entry} {e : Entry} (hn : (names (l ++ e :: l')).Nodup)
    (he : e.seen = false) : e.name ∉ seenNames (l ++ e :: l') := by
  rw [names, List.map_append, List.map_cons] at hn
  obtain ⟨-, hl', hdisj⟩ := List.nodup_append.mp hn
  intro hmem
  obtain ⟨x, hx, hname⟩ := List.mem_map.mp (List.mem_toFinset.mp hmem)
  obtain ⟨hx, hseen⟩ := List.mem_filter.mp hx
  rcases List.mem_append.mp hx with hx | hx
  · exact hdisj x.name (List.mem_map_of_mem hx) e.name List.mem_cons_self hname
  · rcases List.mem_cons.mp hx with rfl | hx
    · rw [he] at hseen
      cases hseen
    · exact (List.nodup_cons.mp hl').1 (hname ▸ List.mem_map_of_mem hx)

theorem seenNames_subset {n : Name} (h : n ∈ seenNames fresh) : n ∈ names fresh := by
  obtain ⟨e, he, hn⟩ := List.mem_map.mp (List.mem_toFinset.mp h)
  exact List.mem_map.mpr ⟨e, List.mem_of_mem_filter he, hn⟩

theorem names_cons (e : Entry) (es : List Entry) : names (e :: es) = e.name :: names es := rfl

theorem entryRoom_cons (e : Entry) (es : List Entry) :
    entryRoom (e :: es) = nameRoom e.name + entryRoom es := rfl

theorem room_put {l l' : List Entry} {e : Entry} (he : e.seen = false) :
    entryRoom (unseen (l ++ e :: l')) =
      nameRoom e.name + entryRoom (unseen (l ++ { e with seen := true } :: l')) := by
  simp [unseen, entryRoom, he]
  omega

/-- The second loop: what is left of the old names goes, or moves to a new one. -/
theorem leavers_spec (hw : w.AsksAll) {fresh' : List Entry} {cookie' : UInt32} {rs : List Record}
    (hl : leavers w olds fresh cookie = (fresh', cookie', rs)) (holds : (names (unseen olds)).Nodup)
    (hfresh : (names fresh).Nodup) (hdisj : ∀ n ∈ names (unseen olds), n ∉ names fresh) :
    ∃ cs, Means rs cs ∧ (∀ a, .touch a ∉ cs) ∧
      weight rs + entryRoom (unseen fresh') ≤ entryRoom (unseen olds) + entryRoom (unseen fresh) ∧
      fresh'.map Entry.unmark = fresh.map Entry.unmark ∧
      replay ((names (unseen olds)).toFinset ∪ seenNames fresh) cs = some (seenNames fresh') := by
  induction olds generalizing fresh cookie fresh' rs with
  | nil =>
    cases hl
    exact ⟨[], means_nil, by simp, by simp [weight], rfl, by simp [replay, unseen, names]⟩
  | cons old olds ih =>
    unfold leavers at hl
    split at hl
    · next hseen =>
      have hskip : unseen (old :: olds) = unseen olds := by simp [unseen, hseen]
      rw [hskip] at holds hdisj ⊢
      exact ih hl holds hfresh hdisj
    next hseen =>
    have hcons : unseen (old :: olds) = old :: unseen olds := by simp [unseen, hseen]
    rw [hcons] at holds hdisj ⊢
    obtain ⟨hold, holds⟩ := List.nodup_cons.mp holds
    have hnot := hdisj old.name List.mem_cons_self
    have hgone : old.name ∉ (names (unseen olds)).toFinset ∪ seenNames fresh := by
      simp only [Finset.mem_union, List.mem_toFinset, not_or]
      exact ⟨hold, fun hm => hnot (seenNames_subset hm)⟩
    rw [names_cons, List.toFinset_cons, Finset.insert_union, entryRoom_cons]
    cases hk : fresh.findIdx? fun f => !f.seen && f.ino == old.ino with
    | none =>
      rw [hk] at hl
      rcases hrec : leavers w olds fresh cookie with ⟨fresh'', cookie'', rs'⟩
      rw [hrec] at hl
      cases hl
      obtain ⟨cs, hmeans, htouch, hweight, hsame, hreplay⟩ := ih hrec holds hfresh
        fun n hn => hdisj n (List.mem_cons_of_mem _ hn)
      refine ⟨.drop old.name :: cs, (means_drop hw (Or.inl rfl)).append hmeans, ?_, ?_, hsame, ?_⟩
      · simpa using htouch
      · rw [weight_append, weight_emit hw rfl (by decide)]
        omega
      · refine replay_trans (replay_drop (Finset.mem_insert_self _ _)) ?_
        rw [Finset.erase_insert hgone]
        exact hreplay
    | some k =>
      obtain ⟨l, landed, l', hget, hunseen, hfreq, hset⟩ := landed_spec hk
      rw [hk] at hl
      simp only [hget, hset] at hl
      rcases hrec : leavers w olds (l ++ { landed with seen := true } :: l') (cookie + 1) with
        ⟨fresh'', cookie'', rs'⟩
      rw [hrec] at hl
      cases hl
      have hnames : names (l ++ { landed with seen := true } :: l') = names fresh := by
        rw [hfreq]
        simp [names]
      obtain ⟨cs, hmeans, htouch, hweight, hsame, hreplay⟩ := ih hrec holds (hnames ▸ hfresh)
        fun n hn => hnames ▸ hdisj n (List.mem_cons_of_mem _ hn)
      rw [seenNames_put hunseen, ← hfreq] at hreplay
      -- the name it moved to is new: unseen, and no other entry has it
      have hland : landed.name ∉ insert old.name ((names (unseen olds)).toFinset ∪ seenNames fresh) := by
        have hmem : landed.name ∈ names fresh := by
          rw [hfreq]
          simp [names]
        simp only [Finset.mem_insert, Finset.mem_union, List.mem_toFinset, not_or]
        refine ⟨fun he => hnot (he ▸ hmem), fun hin => hdisj _ (List.mem_cons_of_mem _ hin) hmem, ?_⟩
        rw [hfreq] at hfresh ⊢
        exact seenNames_unseen hfresh hunseen
      refine ⟨.drop old.name :: .add landed.name :: cs, ((means_drop hw (Or.inr rfl)).append
        (means_add hw (Or.inr rfl))).append hmeans, ?_, ?_, hsame.trans ?_, ?_⟩
      · simpa using htouch
      · rw [weight_append, weight_append, weight_emit hw rfl (by decide),
          weight_emit hw rfl (by decide), hfreq, room_put hunseen]
        dsimp only
        omega
      · rw [hfreq]
        simp [Entry.unmark]
      · refine replay_trans (replay_move (Finset.mem_insert_self _ _) hland) ?_
        rw [Finset.erase_insert hgone, ← Finset.union_insert]
        exact hreplay

theorem mem_unseen_not_seen (hn : (names fresh).Nodup) {n : Name} (h : n ∈ names (unseen fresh)) :
    n ∉ seenNames fresh := by
  obtain ⟨e, he, rfl⟩ := List.mem_map.mp h
  obtain ⟨he, hseen⟩ := List.mem_filter.mp he
  obtain ⟨l, l', rfl⟩ := List.append_of_mem he
  exact seenNames_unseen hn (by simpa using hseen)

/-- The third loop: the names no loop has spoken of are added. -/
theorem arrivals_spec (hw : w.AsksAll) :
    Means (arrivals w fresh) ((names (unseen fresh)).map .add) ∧
      weight (arrivals w fresh) = entryRoom (unseen fresh) := by
  induction fresh with
  | nil => exact ⟨rfl, rfl⟩
  | cons f fresh ih =>
    obtain ⟨hmeans, hweight⟩ := ih
    rw [arrivals, List.flatMap_cons]
    cases hf : f.seen with
    | true =>
      have hskip : unseen (f :: fresh) = unseen fresh := by simp [unseen, hf]
      rw [hskip]
      exact ⟨hmeans, hweight⟩
    | false =>
      have hcons : unseen (f :: fresh) = f :: unseen fresh := by simp [unseen, hf]
      rw [hcons, if_neg Bool.false_ne_true, weight_append, weight_emit hw rfl (by decide), entryRoom_cons]
      exact ⟨(means_add hw (Or.inl rfl)).append hmeans, congrArg _ hweight⟩

theorem replay_arrivals (hn : (names fresh).Nodup) :
    replay (seenNames fresh) ((names (unseen fresh)).map .add) = some (names fresh).toFinset := by
  have hunseen : (names (unseen fresh)).Nodup := hn.sublist (List.filter_sublist.map _)
  rw [replay_adds _ hunseen fun n hm => mem_unseen_not_seen hn hm]
  congr 1
  ext n
  constructor
  · intro hm
    rcases Finset.mem_union.mp hm with hm | hm
    · exact List.mem_toFinset.mpr (seenNames_subset hm)
    · obtain ⟨e, he, rfl⟩ := List.mem_map.mp (List.mem_toFinset.mp hm)
      exact List.mem_toFinset.mpr (List.mem_map_of_mem (List.mem_of_mem_filter he))
  · intro hm
    obtain ⟨e, he, rfl⟩ := List.mem_map.mp (List.mem_toFinset.mp hm)
    cases hs : e.seen with
    | true =>
      apply Finset.mem_union_left
      exact List.mem_toFinset.mpr (List.mem_map_of_mem (List.mem_filter.mpr ⟨he, hs⟩))
    | false =>
      apply Finset.mem_union_right
      exact List.mem_toFinset.mpr (List.mem_map_of_mem (List.mem_filter.mpr ⟨he, by simp [hs]⟩))

end Leavers

section Whole
variable {w : Watch} {es content : List Entry}

theorem entryRoom_eq (es : List Entry) : entryRoom es = ((names es).map nameRoom).sum := by
  rw [entryRoom, names, List.map_map]
  rfl

theorem entryRoom_split (es : List Entry) :
    entryRoom es = entryRoom (es.filter Entry.seen) + entryRoom (unseen es) := by
  induction es with
  | nil => rfl
  | cons e es ih =>
    rw [entryRoom_cons, ih]
    cases he : e.seen <;> simp [unseen, he, entryRoom_cons] <;> omega

/-- The entries the first loop marked, by name. -/
theorem names_filter_note {ns : List Name} (hes : ∀ e ∈ es, e.seen = false) :
    names ((es.map (Entry.note ns)).filter Entry.seen) = (names es).filter (· ∈ ns) := by
  induction es with
  | nil => rfl
  | cons e es ih =>
    have hrest := ih fun x hx => hes x (List.mem_cons_of_mem _ hx)
    have he := hes e List.mem_cons_self
    by_cases hin : e.name ∈ ns
    · simp [Entry.note, he, hin, names_cons] at hrest ⊢
      exact hrest
    · simp [Entry.note, he, hin, names_cons] at hrest ⊢
      exact hrest

theorem names_unseen_note {ns : List Name} (hes : ∀ e ∈ es, e.seen = false) :
    names (unseen (es.map (Entry.note ns))) = (names es).filter (· ∉ ns) := by
  induction es with
  | nil => rfl
  | cons e es ih =>
    have hrest := ih fun x hx => hes x (List.mem_cons_of_mem _ hx)
    have he := hes e List.mem_cons_self
    by_cases hin : e.name ∈ ns
    · simp [Entry.note, he, hin, names_cons, unseen] at hrest ⊢
      exact hrest
    · simp [Entry.note, he, hin, names_cons, unseen] at hrest ⊢
      exact hrest

/-- What the first loop has to say takes as much room as the names on both sides. -/
theorem weight_sameRecords (hw : w.AsksAll) (kids : List Entry) :
    weight (es.flatMap (sameRecords w kids)) ≤
      2 * (((names es).filter (· ∈ names kids)).map nameRoom).sum := by
  induction es with
  | nil => exact Nat.zero_le _
  | cons f es ih =>
    obtain ⟨-, -, hweight, -, -⟩ := @sameRecords_spec _ kids hw f
    rw [List.flatMap_cons, weight_append, names_cons]
    by_cases hin : f.name ∈ names kids
    · rw [if_pos hin] at hweight
      rw [List.filter_cons_of_pos (by simpa using hin), List.map_cons, List.sum_cons]
      omega
    · rw [if_neg hin] at hweight
      rw [List.filter_cons_of_neg (by simpa using hin)]
      omega

@[simp] theorem names_unmark (es : List Entry) : names (es.map Entry.unmark) = names es := by
  simp [names, Entry.unmark]

theorem map_unmark_note (ns : List Name) (hes : ∀ e ∈ es, e.seen = false) :
    (es.map (Entry.note ns)).map Entry.unmark = es := by
  calc (es.map (Entry.note ns)).map Entry.unmark = es.map id := by
        rw [List.map_map]
        apply List.map_congr_left
        intro e he
        show { e with seen := false } = e
        rw [← hes e he]
    _ = es := List.map_id es

/-- The names on both sides, in the order of either. -/
theorem filter_names_perm {ns ms : List Name} (hn : ns.Nodup) (hm : ms.Nodup) :
    (ns.filter (· ∈ ms)).Perm (ms.filter (· ∈ ns)) := by
  apply (List.perm_ext_iff_of_nodup (hn.filter _) (hm.filter _)).mpr
  intro n
  simp [and_comm]

/-- What directory_changed does when it goes on: the three loops, one after the other. -/
theorem directoryChanged_eq {scanned : Scanned} (cookie : UInt32)
    (hgo : ¬ (scanned.alloc = false ∧ scanned.fresh.length = 0)) (hk : (names w.kids).Nodup) :
    ∃ fresh cookie' left,
      leavers w ((w.kids.map Entry.unmark).map (Entry.note (names scanned.fresh)))
        (scanned.fresh.map (Entry.note (names w.kids))) cookie = (fresh, cookie', left) ∧
      directoryChanged w scanned cookie = ({ w with kids := fresh }, cookie',
        scanned.fresh.flatMap (sameRecords w (w.kids.map Entry.unmark)) ++ left ++ arrivals w fresh) := by
  rcases hl : leavers w ((w.kids.map Entry.unmark).map (Entry.note (names scanned.fresh)))
    (scanned.fresh.map (Entry.note (names w.kids))) cookie with ⟨fresh, cookie', left⟩
  refine ⟨fresh, cookie', left, rfl, ?_⟩
  have hsame := @sameNames_eq w _ scanned.fresh ((names_unmark w.kids).symm ▸ hk)
  rw [names_unmark] at hsame
  -- the loop that forgets the marks of the last diff
  have hunmark : (w.kids.map fun e => { e with seen := false }) = w.kids.map Entry.unmark := rfl
  simp only [directoryChanged, if_neg hgo, hunmark, hsame, hl]

/-- The difference of two snapshots tells how the old names became the new ones. -/
theorem directoryChanged_tells (hw : w.AsksAll) {alloc : Bool} (cookie : UInt32)
    (hgo : ¬ (alloc = false ∧ content.length = 0)) (hk : (names w.kids).Nodup)
    (hc : (names content).Nodup) (hfresh : ∀ e ∈ content, e.seen = false) {w' : Watch}
    {cookie' : UInt32} {rs : List Record}
    (hd : directoryChanged w ⟨alloc, content⟩ cookie = (w', cookie', rs)) :
    (∃ cs, Means rs cs ∧ Tells (names w.kids).toFinset (names content).toFinset cs) ∧
      weight rs ≤ entryRoom w.kids + entryRoom content ∧ w'.kids.map Entry.unmark = content := by
  obtain ⟨fresh, cookie'', left, hl, heq⟩ := @directoryChanged_eq _ ⟨alloc, content⟩ cookie
    hgo hk
  dsimp only at hl heq
  rw [hd] at heq
  cases heq
  have hunmark : ∀ e ∈ w.kids.map Entry.unmark, e.seen = false := by
    intro e he
    obtain ⟨x, -, rfl⟩ := List.mem_map.mp he
    rfl
  have hleft := @names_unseen_note _ (names content) hunmark
  rw [names_unmark] at hleft
  have hseen := @names_filter_note _ (names w.kids) hfresh
  obtain ⟨cs, hmeans, htouch, hweight, hkeep, hreplay⟩ := leavers_spec hw hl
    (by rw [hleft]; exact hk.filter _) (by rw [names_note]; exact hc)
    (by rw [hleft, names_note]; intro n hn; simpa using (List.mem_filter.mp hn).2)
  choose same hsame using fun f => @sameRecords_spec _ (w.kids.map Entry.unmark) hw f
  obtain ⟨hadd, haddw⟩ := @arrivals_spec _ fresh hw
  have hfreshNames : names fresh = names content := by
    rw [← names_unmark, hkeep, names_unmark, names_note]
  refine ⟨⟨content.flatMap same ++ cs ++ (names (unseen fresh)).map .add, ?_, ?_, ?_⟩, ?_, ?_⟩
  · exact ((Means.flatMap content fun f _ => (hsame f).1).append hmeans).append hadd
  · -- the old names, as the second loop finds them: the unmarked ones, and those marked on both sides
    have hsplit : (names (unseen ((w.kids.map Entry.unmark).map (Entry.note (names content))))).toFinset ∪
        seenNames (content.map (Entry.note (names w.kids))) = (names w.kids).toFinset := by
      ext n
      rw [seenNames, hleft, hseen]
      simp only [Finset.mem_union, List.mem_toFinset, List.mem_filter, decide_eq_true_eq]
      tauto
    rw [hsplit] at hreplay
    have hstay := replay_flatMap_self (s := (names w.kids).toFinset) content same fun f _ =>
      (hsame f).2.2.2 _ fun n hn => List.mem_toFinset.mpr (names_unmark w.kids ▸ hn)
    have hlast := @replay_arrivals fresh (hfreshNames ▸ hc)
    rw [hfreshNames] at hlast
    exact replay_trans (replay_trans hstay hreplay) hlast
  · intro n hn
    rcases List.mem_append.mp hn with hn | hn
    · rcases List.mem_append.mp hn with hn | hn
      · obtain ⟨f, hf, hn⟩ := List.mem_flatMap.mp hn
        obtain ⟨rfl, hold⟩ := (hsame f).2.2.1 n hn
        rw [names_unmark] at hold
        exact ⟨List.mem_toFinset.mpr hold, List.mem_toFinset.mpr (List.mem_map_of_mem hf)⟩
      · exact absurd hn (htouch n)
    · obtain ⟨m, -, hm⟩ := List.mem_map.mp hn
      cases hm
  · have hsames := @weight_sameRecords _ content hw (w.kids.map Entry.unmark)
    have hkids := entryRoom_split ((w.kids.map Entry.unmark).map (Entry.note (names content)))
    have hcontent := entryRoom_split (content.map (Entry.note (names w.kids)))
    have hboth := @names_filter_note _ (names content) hunmark
    have hperm := ((filter_names_perm hk hc).map nameRoom).sum_nat
    rw [names_unmark] at hsames hboth
    rw [entryRoom_eq, names_note, names_unmark, ← entryRoom_eq, entryRoom_eq (List.filter _ _), hboth] at hkids
    rw [entryRoom_eq, names_note, ← entryRoom_eq, entryRoom_eq (List.filter _ _), hseen] at hcontent
    rw [weight_append, weight_append, haddw]
    omega
  · rw [hkeep, map_unmark_note _ hfresh]

end Whole

end SlipstreamIO.Inotify
