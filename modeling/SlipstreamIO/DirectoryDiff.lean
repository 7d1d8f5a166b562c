import SlipstreamIO.DiffReplay

/-! The directory diff on a scan that succeeds. It replays exactly, except for the directory that was
emptied, which the diff takes for one that could not be read. -/
namespace SlipstreamIO.Inotify
open SetReplay

variable {d : Dir}

/-- The entries of a directory, but for the two it has of itself. -/
def contentOf (d : Dir) : List Entry :=
  d.filterMap fun p => if p.1 = [46] ∨ p.1 = [46, 46] then none else p.2.map (fill p.1)

/-- lstat answers for every name, which a path of 4096 bytes or more would not let it do. -/
def Readable (path : Name) (d : Dir) : Prop :=
  ∀ p ∈ d, (p.2.isSome ∧ path.length + 1 + p.1.length < 4096)

instance (path : Name) (d : Dir) : Decidable (Readable path d) :=
  inferInstanceAs (Decidable (∀ p ∈ d, (p.2.isSome ∧ path.length + 1 + p.1.length < 4096)))

theorem scanLoop_eq {path : Name} (hd : Readable path d) (cap : ℕ) (s : Scanned) :
    scanLoop path (fun _ => true) (fun _ => true) d cap s =
      { alloc := s.alloc || !(contentOf d).isEmpty, fresh := s.fresh ++ contentOf d } := by
  induction d generalizing cap s with
  | nil => simp [scanLoop, contentOf]
  | cons p d ih =>
    obtain ⟨name, st⟩ := p
    obtain ⟨hst, hpath⟩ := hd _ List.mem_cons_self
    have hrest : Readable path d := fun p hp => hd p (List.mem_cons_of_mem _ hp)
    obtain ⟨st, rfl⟩ := Option.isSome_iff_exists.mp hst
    by_cases hdot : name = [46] ∨ name = [46, 46]
    · have hskip : contentOf ((name, some st) :: d) = contentOf d := by simp [contentOf, hdot]
      rw [scanLoop, if_pos hdot, ih hrest, hskip]
    · have hcons : contentOf ((name, some st) :: d) = fill name st :: contentOf d := by
        simp [contentOf, hdot]
      rw [scanLoop, if_neg hdot, if_neg (Nat.not_le.mpr hpath), hcons]
      simp only [Bool.true_eq_false, and_false, if_false]
      rw [ih hrest]
      simp

/-- A scan that succeeds. -/
theorem scan_eq {path : Name} (hd : Readable path d) :
    scan path (fun _ => true) (fun _ => true) (some d) = ⟨!(contentOf d).isEmpty, contentOf d⟩ := by
  rw [scan, scanLoop_eq hd]
  simp

theorem contentOf_unseen : ∀ e ∈ contentOf d, e.seen = false := by
  intro e he
  obtain ⟨p, -, hp⟩ := List.mem_filterMap.mp he
  split at hp
  · cases hp
  · obtain ⟨st, -, rfl⟩ := Option.map_eq_some_iff.mp hp
    rfl

theorem names_contentOf (d : Dir) : (names (contentOf d)).Sublist (d.map Prod.fst) := by
  induction d with
  | nil => exact List.Sublist.refl _
  | cons p d ih =>
    rw [contentOf, List.filterMap_cons, List.map_cons]
    split
    · exact ih.cons _
    · next e he =>
      split at he
      · cases he
      · obtain ⟨st, -, rfl⟩ := Option.map_eq_some_iff.mp he
        exact ih.cons_cons _

/-- The records that were appended tell how the old names became the new ones, and the watch has the
new content. -/
structure Replayed (w w' : Watch) (q q' : Queue) (content : List Entry) : Prop where
  tells : ∃ rs cs, q'.queue = q.queue ++ rs.flatMap Record.bytes ∧ Means rs cs ∧
    Tells (names w.kids).toFinset (names content).toFinset cs
  kids : w'.kids.map Entry.unmark = content

theorem flatMap_bytes_nil {rs : List Record} (h : rs.flatMap Record.bytes = []) : rs = [] := by
  cases rs with
  | nil => rfl
  | cons r rs =>
    rw [List.flatMap_cons] at h
    have hlen := congrArg List.length (List.append_eq_nil_iff.mp h).1
    rw [r.length_bytes, Record.total] at hlen
    simp [eventSize] at hlen

/-- The difference replays, unless the directory was emptied. -/
theorem diff_replays_iff (queueMax : ℕ) (w : Watch) (q : Queue) (d : Dir) (cookie : UInt32)
    (hkids : (names w.kids).Nodup) (hdir : (d.map Prod.fst).Nodup) (hread : Readable w.path d)
    (hw : w.AsksAll) (hroom : q.qlen + entryRoom w.kids + entryRoom (contentOf d) ≤ queueMax) :
    let r := directoryChanged w (scan w.path (fun _ => true) (fun _ => true) (some d)) cookie
    Replayed w r.1 q (q.emits queueMax (fun _ => true) r.2.2) (contentOf d) ↔
      contentOf d ≠ [] ∨ w.kids = [] := by
  have hcontent : (names (contentOf d)).Nodup := hdir.sublist (names_contentOf d)
  rw [scan_eq hread]
  by_cases hempty : contentOf d = []
  · -- directory_changed returns at once, as if the scan had failed
    have hstop : directoryChanged w ⟨!(contentOf d).isEmpty, contentOf d⟩ cookie = (w, cookie, []) := by
      rw [hempty]
      rfl
    rw [hstop]
    constructor
    · intro h
      obtain ⟨rs, cs, hq, hmeans, htells⟩ := h.tells
      have hnil : rs = [] := flatMap_bytes_nil (List.append_right_eq_self.mp hq.symm)
      subst hnil
      have hcs : cs = [] := by simpa [Means] using hmeans.symm
      subst hcs
      have hsame := Option.some.inj htells.replay
      rw [hempty] at hsame
      right
      simpa [names] using hsame
    · rintro (h | h)
      · exact absurd hempty h
      · refine ⟨⟨[], [], by simp [Queue.emits], rfl, ?_, fun a ha => by simp at ha⟩, ?_⟩
        · rw [hempty, h]
          rfl
        · rw [hempty, h]
          rfl
  · refine ⟨fun _ => Or.inl hempty, fun _ => ?_⟩
    rcases hd : directoryChanged w ⟨!(contentOf d).isEmpty, contentOf d⟩ cookie with ⟨w', cookie', rs⟩
    obtain ⟨⟨cs, hmeans, htells⟩, hweight, hkids'⟩ := directoryChanged_tells hw cookie
      (by simp [hempty]) hkids hcontent contentOf_unseen hd
    have hfit : q.qlen + (rs.map Record.total).sum ≤ queueMax := by
      change q.qlen + weight rs ≤ queueMax
      omega
    exact ⟨⟨rs, cs, Queue.emits_fit hfit, hmeans, htells⟩, hkids'⟩

/-- Of four files one stays, one is replaced by another, one is renamed and one deleted. -/
theorem diff_replays_four :
    ∃ (w : Watch) (d : Dir), names w.kids = [[97], [98], [99], [100]] ∧
      names (contentOf d) = [[97], [98], [101]] ∧
      Replayed w (directoryChanged w (scan w.path (fun _ => true) (fun _ => true) (some d)) 0).1 {}
        (Queue.emits inotifyQueueMax (fun _ => true) {} (directoryChanged w
          (scan w.path (fun _ => true) (fun _ => true) (some d)) 0).2.2) (contentOf d) := by
  let entry (n : UInt8) (ino : UInt64) : Entry := ⟨[n], ino, 0, 0, 0, 0, false⟩
  let stat (ino : UInt64) : Option Stat := some ⟨ino, 0, 0, 0, 0⟩
  let w : Watch := ⟨1, 5, [47], inAllEvents, true, [entry 97 1, entry 98 2, entry 99 3, entry 100 4]⟩
  let d : Dir := [([46], stat 9), ([97], stat 1), ([98], stat 7), ([101], stat 3)]
  refine ⟨w, d, by decide, by decide, ?_⟩
  exact (diff_replays_iff inotifyQueueMax w {} d 0 (by decide) (by decide) (by decide)
    UInt32.and_self (by decide)).mpr (Or.inl (by decide))

/-- A directory whose one file was deleted: the deletion is not told, and the watch keeps the file. -/
theorem emptied_directory_is_silent :
    ∃ (w : Watch) (d : Dir), (names w.kids).Nodup ∧ (d.map Prod.fst).Nodup ∧ Readable w.path d ∧
      w.AsksAll ∧ contentOf d = [] ∧
      directoryChanged w (scan w.path (fun _ => true) (fun _ => true) (some d)) 0 = (w, 0, []) ∧
      ¬ Replayed w (directoryChanged w (scan w.path (fun _ => true) (fun _ => true) (some d)) 0).1 {}
        (Queue.emits inotifyQueueMax (fun _ => true) {} (directoryChanged w
          (scan w.path (fun _ => true) (fun _ => true) (some d)) 0).2.2) (contentOf d) := by
  let w : Watch := ⟨1, 5, [47], inAllEvents, true, [⟨[97], 1, 0, 0, 0, 0, false⟩]⟩
  let d : Dir := [([46], some ⟨9, 0, 0, 0, 0⟩), ([46, 46], some ⟨8, 0, 0, 0, 0⟩)]
  have hsilent : directoryChanged w (scan w.path (fun _ => true) (fun _ => true) (some d)) 0 =
      (w, 0, []) := by decide
  refine ⟨w, d, by decide, by decide, by decide, UInt32.and_self, by decide, hsilent, fun h => ?_⟩
  have hnone := congrArg List.length h.kids
  rw [hsilent] at hnone
  revert hnone
  decide

end SlipstreamIO.Inotify
