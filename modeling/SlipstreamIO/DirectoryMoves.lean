import Mathlib.Data.Finset.Card
import SlipstreamIO.DirectoryDiff
import SlipstreamIO.InotifyKqueue

/-! A rename inside a watched directory, as directory_changed tells it. The scan may run out of memory
or find names too long for it, and the cookies are those of all the calls an instance has made. -/
namespace SlipstreamIO.Inotify
open SetReplay Runs

section Scan

/-- The names that scan asks lstat about: its buffer holds a path of 4095 bytes. -/
def Fits (path name : Name) : Prop := path.length + 1 + name.length < 4096

instance (path name : Name) : Decidable (Fits path name) :=
  inferInstanceAs (Decidable (path.length + 1 + name.length < 4096))

/-- The entries that a scan with enough memory finds. -/
def visible (path : Name) (d : Dir) : List Entry :=
  d.filterMap fun p =>
    if p.1 = [46] ∨ p.1 = [46, 46] ∨ ¬ Fits path p.1 then none else p.2.map (fill p.1)

/-- The room in scan's array when it has `n` entries. -/
def capacity : ℕ → ℕ
  | 0 => 0
  | n + 1 =>
    if n = capacity n then (if capacity n = 0 then 16 else capacity n * 2) else capacity n

/-- There is memory for the next entry when the array has `n`. -/
def Remembers (grown named : ℕ → Bool) (n : ℕ) : Prop :=
  (n = capacity n → grown n = true) ∧ named n = true

instance (grown named : ℕ → Bool) (n : ℕ) : Decidable (Remembers grown named n) :=
  inferInstanceAs (Decidable (_ ∧ _))

variable {path : Name} {d : Dir} {grown named : ℕ → Bool}

theorem mem_visible {e : Entry} : e ∈ visible path d ↔
    ∃ n st, (n, some st) ∈ d ∧ n ≠ [46] ∧ n ≠ [46, 46] ∧ Fits path n ∧ fill n st = e := by
  constructor
  · intro he
    obtain ⟨⟨n, st⟩, hp, hfill⟩ := List.mem_filterMap.mp he
    split at hfill
    · cases hfill
    · next hn =>
      obtain ⟨st, rfl, rfl⟩ := Option.map_eq_some_iff.mp hfill
      rw [not_or, not_or, not_not] at hn
      exact ⟨n, st, hp, hn.1, hn.2.1, hn.2.2, rfl⟩
  · rintro ⟨n, st, hp, hdot, hdots, hfits, rfl⟩
    apply List.mem_filterMap.mpr
    refine ⟨(n, some st), hp, ?_⟩
    rw [if_neg (by simp [hdot, hdots, hfits]), Option.map_some]

theorem visible_unseen : ∀ e ∈ visible path d, e.seen = false := by
  intro e he
  obtain ⟨n, st, -, -, -, -, rfl⟩ := mem_visible.mp he
  rfl

theorem names_visible (path : Name) (d : Dir) : (names (visible path d)).Sublist (d.map Prod.fst) := by
  induction d with
  | nil => exact List.Sublist.refl _
  | cons p d ih =>
    rw [visible, List.filterMap_cons, List.map_cons]
    split
    · exact ih.cons _
    · next e he =>
      split at he
      · cases he
      · obtain ⟨st, -, rfl⟩ := Option.map_eq_some_iff.mp he
        exact ih.cons_cons _

/-- A name that scan passes over. -/
theorem scanLoop_skip {p : Name × Option Stat} {cap : ℕ} {s : Scanned}
    (h : p.1 = [46] ∨ p.1 = [46, 46] ∨ ¬ Fits path p.1 ∨ p.2 = none) :
    visible path (p :: d) = visible path d ∧
      scanLoop path grown named (p :: d) cap s = scanLoop path grown named d cap s := by
  obtain ⟨name, st⟩ := p
  cases st with
  | none =>
    constructor
    · simp [visible]
    · rw [scanLoop]
      split_ifs <;> rfl
  | some st =>
    have hhide : name = [46] ∨ name = [46, 46] ∨ ¬ Fits path name := by simpa using h
    constructor
    · rw [visible, List.filterMap_cons, if_pos hhide]
      rfl
    · rw [scanLoop]
      by_cases hdot : name = [46] ∨ name = [46, 46]
      · rw [if_pos hdot]
      · have hlong : 4096 ≤ path.length + 1 + name.length := by
          rw [← or_assoc] at hhide
          exact Nat.not_lt.mp (hhide.resolve_left hdot)
        rw [if_neg hdot, if_pos hlong]

theorem scanLoop_see {name : Name} (st : Stat) {cap : ℕ} {s : Scanned} (hdot : name ≠ [46])
    (hdots : name ≠ [46, 46]) (hfits : Fits path name) :
    visible path ((name, some st) :: d) = fill name st :: visible path d ∧
      scanLoop path grown named ((name, some st) :: d) cap s =
        if s.fresh.length = cap ∧ grown s.fresh.length = false then s
        else if named s.fresh.length = false then { s with alloc := true }
        else scanLoop path grown named d
          (if s.fresh.length = cap then (if cap = 0 then 16 else cap * 2) else cap)
          { alloc := true, fresh := s.fresh ++ [fill name st] } := by
  have hshort : ¬ 4096 ≤ path.length + 1 + name.length := Nat.not_le.mpr hfits
  constructor
  · simp [visible, hdot, hdots, hfits]
  · rw [scanLoop, if_neg (by simp [hdot, hdots]), if_neg hshort]

/-- The scan finds the first of the visible entries, and all of them if its memory lasts. -/
theorem scanLoop_take (path : Name) (d : Dir) (grown named : ℕ → Bool) (s : Scanned) :
    ∃ m ≤ (visible path d).length,
      (scanLoop path grown named d (capacity s.fresh.length) s).fresh =
        s.fresh ++ (visible path d).take m ∧
      (m = (visible path d).length ↔
        ∀ i < (visible path d).length, Remembers grown named (s.fresh.length + i)) := by
  induction d generalizing s with
  | nil => exact ⟨0, le_rfl, by simp [scanLoop, visible], by simp [visible]⟩
  | cons p d ih =>
    by_cases hskip : p.1 = [46] ∨ p.1 = [46, 46] ∨ ¬ Fits path p.1 ∨ p.2 = none
    · obtain ⟨hvis, hloop⟩ := scanLoop_skip (d := d) (s := s) hskip
      rw [hvis, hloop]
      exact ih s
    obtain ⟨name, st⟩ := p
    rw [not_or, not_or, not_or, not_not] at hskip
    obtain ⟨hdot, hdots, hfits, hst⟩ := hskip
    obtain ⟨st, rfl⟩ := Option.ne_none_iff_exists'.mp hst
    obtain ⟨hvis, hloop⟩ := scanLoop_see (d := d) (s := s) st hdot hdots hfits
    rw [hvis, hloop]
    by_cases hmem : Remembers grown named s.fresh.length
    · have hroom : ¬ (s.fresh.length = capacity s.fresh.length ∧ grown s.fresh.length = false) := by
        rintro ⟨hfull, hno⟩
        rw [hmem.1 hfull] at hno
        cases hno
      rw [if_neg hroom, if_neg (by simp [hmem.2])]
      obtain ⟨m, hm, hfresh, hall⟩ := ih { alloc := true, fresh := s.fresh ++ [fill name st] }
      rw [List.length_append, List.length_singleton] at hfresh hall
      refine ⟨m + 1, Nat.succ_le_succ hm, ?_, ?_⟩
      · rw [capacity] at hfresh
        rw [hfresh, List.take_succ_cons, List.append_assoc, List.singleton_append]
      · rw [List.length_cons, Nat.add_right_cancel_iff, hall]
        constructor
        · intro h i hi
          cases i with
          | zero => exact hmem
          | succ i =>
            have hi' := h i (Nat.lt_of_succ_lt_succ hi)
            rwa [Nat.add_assoc, Nat.add_comm 1 i] at hi'
        · intro h i hi
          have hi' := h (i + 1) (Nat.succ_lt_succ hi)
          rwa [Nat.add_assoc, Nat.add_comm 1 i]
    · refine ⟨0, Nat.zero_le _, ?_, ?_⟩
      · rw [List.take_zero, List.append_nil]
        by_cases hfull : s.fresh.length = capacity s.fresh.length ∧ grown s.fresh.length = false
        · rw [if_pos hfull]
        · have hnamed : named s.fresh.length = false := by
            apply Bool.eq_false_of_not_eq_true
            intro hname
            apply hmem
            refine ⟨fun heq => ?_, hname⟩
            by_contra hno
            exact hfull ⟨heq, Bool.eq_false_of_not_eq_true hno⟩
          rw [if_neg hfull, if_pos hnamed]
      · constructor
        · intro h
          cases h
        · intro h
          exact absurd (h 0 (Nat.succ_pos _)) hmem

theorem scan_take (path : Name) (d : Dir) (grown named : ℕ → Bool) :
    ∃ m ≤ (visible path d).length,
      (scan path grown named (some d)).fresh = (visible path d).take m ∧
      (m = (visible path d).length ↔
        ∀ i < (visible path d).length, Remembers grown named i) := by
  have h := scanLoop_take path d grown named {}
  simp only [List.length_nil, List.nil_append, Nat.zero_add] at h
  exact h

end Scan

section Cookies

/-- The cookies of the pairs the second loop of directory_changed makes. -/
def pairCookies : List Entry → List Entry → UInt32 → List UInt32
  | [], _, _ => []
  | old :: olds, fresh, cookie =>
    if old.seen then pairCookies olds fresh cookie
    else
      match fresh.findIdx? fun f => !f.seen && f.ino == old.ino with
      | none => pairCookies olds fresh cookie
      | some k =>
        match fresh[k]? with
        | none => []
        | some landed =>
          (cookie + 1) :: pairCookies olds (fresh.set k { landed with seen := true }) (cookie + 1)

/-- The cookies one call of directory_changed uses. -/
def cookiesOf (w : Watch) (scanned : Scanned) (cookie : UInt32) : List UInt32 :=
  if scanned.alloc = false ∧ scanned.fresh.length = 0 then []
  else
    let (kids, fresh, _) := sameNames w (w.kids.map fun e => { e with seen := false }) scanned.fresh
    pairCookies kids fresh cookie

/-- What the calls of directory_changed of one instance have done: its next_cookie, the cookies of
the pairs, the emit calls. -/
structure Told where
  cookie : UInt32 := 0
  used : List UInt32 := []
  records : List Record := []

/-- The calls an instance has made, the latest first. -/
def told : List (Watch × Scanned) → Told
  | [] => {}
  | (w, scanned) :: earlier =>
    let t := told earlier
    { cookie := (directoryChanged w scanned t.cookie).2.1
      used := t.used ++ cookiesOf w scanned t.cookie
      records := t.records ++ (directoryChanged w scanned t.cookie).2.2 }

variable {w : Watch} {olds fresh : List Entry} {c c' : UInt32} {cs : List UInt32} {rs : List Record}

/-- The cookies count on from `c` to `c'`, and no record has another one. -/
structure CountsOn (c c' : UInt32) (cs : List UInt32) (rs : List Record) : Prop where
  last : c' = c + UInt32.ofNat cs.length
  each : cs = (List.range cs.length).map fun j => c + UInt32.ofNat (j + 1)
  records : ∀ r ∈ rs, r.cookie = 0 ∨ r.cookie ∈ cs

theorem CountsOn.quiet (h : CountsOn c c' cs rs) {rs' : List Record}
    (h' : ∀ r ∈ rs', r.cookie = 0) : CountsOn c c' cs (rs' ++ rs) := by
  refine ⟨h.last, h.each, ?_⟩
  intro r hr
  rcases List.mem_append.mp hr with hr | hr
  · exact Or.inl (h' r hr)
  · exact h.records r hr

theorem countsOn_nil (c : UInt32) : CountsOn c c [] [] :=
  ⟨by simp, rfl, fun _ hr => absurd hr List.not_mem_nil⟩

theorem cookie_succ (c : UInt32) (n : ℕ) : c + 1 + UInt32.ofNat n = c + UInt32.ofNat (n + 1) := by
  rw [UInt32.ofNat_add, UInt32.add_comm (UInt32.ofNat n), ← UInt32.add_assoc]
  rfl

theorem CountsOn.pair (h : CountsOn (c + 1) c' cs rs) {rs' : List Record}
    (h' : ∀ r ∈ rs', r.cookie = c + 1) : CountsOn c c' ((c + 1) :: cs) (rs' ++ rs) := by
  refine ⟨?_, ?_, ?_⟩
  · rw [h.last, cookie_succ, List.length_cons]
  · rw [List.length_cons, List.range_succ_eq_map, List.map_cons, List.map_map]
    congr 1
    calc cs = (List.range cs.length).map fun j => c + 1 + UInt32.ofNat (j + 1) := h.each
      _ = (List.range cs.length).map ((fun j => c + UInt32.ofNat (j + 1)) ∘ Nat.succ) := by
        apply List.map_congr_left
        intro j _
        exact cookie_succ c (j + 1)
  · intro r hr
    rcases List.mem_append.mp hr with hr | hr
    · right
      rw [h' r hr]
      exact List.mem_cons_self
    · exact (h.records r hr).imp_right (List.mem_cons_of_mem _)

theorem emitMasked_cookie {mask cookie : UInt32} {name : Option Name} {isdir : Bool} :
    ∀ r ∈ emitMasked w mask cookie name isdir, r.cookie = cookie := by
  intro r hr
  unfold emitMasked at hr
  split at hr
  · exact absurd hr List.not_mem_nil
  · rw [List.mem_singleton.mp hr]

theorem leavers_countsOn (w : Watch) (olds fresh : List Entry) (c : UInt32) :
    CountsOn c (leavers w olds fresh c).2.1 (pairCookies olds fresh c)
      (leavers w olds fresh c).2.2 := by
  induction olds generalizing fresh c with
  | nil => exact countsOn_nil c
  | cons old olds ih =>
    rw [leavers, pairCookies]
    by_cases hseen : old.seen = true
    · rw [if_pos hseen, if_pos hseen]
      exact ih fresh c
    rw [if_neg hseen, if_neg hseen]
    cases fresh.findIdx? fun f => !f.seen && f.ino == old.ino with
    | none =>
      apply (ih fresh c).quiet
      exact emitMasked_cookie
    | some k =>
      cases hk : fresh[k]? with
      | none =>
        simp only [hk]
        exact countsOn_nil c
      | some landed =>
        simp only [hk]
        apply (ih _ (c + 1)).pair
        intro r hr
        rcases List.mem_append.mp hr with hr | hr <;> exact emitMasked_cookie r hr

theorem compareKid_cookie (had f : Entry) : ∀ r ∈ compareKid w had f, r.cookie = 0 := by
  intro r hr
  unfold compareKid at hr
  split_ifs at hr
  · rcases List.mem_append.mp hr with hr | hr <;> exact emitMasked_cookie r hr
  · exact emitMasked_cookie r hr
  · exact emitMasked_cookie r hr
  · exact absurd hr List.not_mem_nil

theorem sameNames_cookie (kids fs : List Entry) : ∀ r ∈ (sameNames w kids fs).2.2, r.cookie = 0 := by
  induction fs generalizing kids with
  | nil => exact fun r hr => absurd hr List.not_mem_nil
  | cons f fs ih =>
    intro r hr
    rw [sameNames] at hr
    cases hf : kidByName kids f.name with
    | none =>
      rw [hf] at hr
      exact ih kids r hr
    | some i =>
      simp only [hf] at hr
      cases hi : kids[i]? with
      | none =>
        simp only [hi] at hr
        exact absurd hr List.not_mem_nil
      | some had =>
        simp only [hi] at hr
        rcases List.mem_append.mp hr with hr | hr
        · exact compareKid_cookie had f r hr
        · exact ih _ r hr

theorem arrivals_cookie (fresh : List Entry) : ∀ r ∈ arrivals w fresh, r.cookie = 0 := by
  intro r hr
  obtain ⟨f, -, hf⟩ := List.mem_flatMap.mp hr
  split at hf
  · exact absurd hf List.not_mem_nil
  · exact emitMasked_cookie r hf

theorem directoryChanged_countsOn (w : Watch) (scanned : Scanned) (c : UInt32) :
    CountsOn c (directoryChanged w scanned c).2.1 (cookiesOf w scanned c)
      (directoryChanged w scanned c).2.2 := by
  unfold directoryChanged cookiesOf
  split_ifs
  · exact countsOn_nil c
  · let same := sameNames w (w.kids.map fun e => { e with seen := false }) scanned.fresh
    have hquiet : ∀ r ∈ same.2.2, r.cookie = 0 := sameNames_cookie _ _
    have hcount := (leavers_countsOn w same.1 same.2.1 c).quiet hquiet
    refine ⟨hcount.last, hcount.each, ?_⟩
    intro r hr
    rcases List.mem_append.mp hr with hr | hr
    · exact hcount.records r hr
    · exact Or.inl (arrivals_cookie _ r hr)

theorem CountsOn.append {c'' : UInt32} {cs' : List UInt32} {rs' : List Record}
    (h : CountsOn c c' cs rs) (h' : CountsOn c' c'' cs' rs') :
    CountsOn c c'' (cs ++ cs') (rs ++ rs') := by
  have hshift (n : ℕ) : c + UInt32.ofNat cs.length + UInt32.ofNat n =
      c + UInt32.ofNat (cs.length + n) := by
    rw [UInt32.ofNat_add, UInt32.add_assoc]
  refine ⟨?_, ?_, ?_⟩
  · rw [h'.last, h.last, hshift, List.length_append]
  · rw [List.length_append, List.range_add, List.map_append, List.map_map]
    have hrest : cs' = (List.range cs'.length).map
        ((fun j => c + UInt32.ofNat (j + 1)) ∘ (cs.length + ·)) := by
      calc cs' = (List.range cs'.length).map fun j => c' + UInt32.ofNat (j + 1) := h'.each
        _ = _ := by
          apply List.map_congr_left
          intro j _
          rw [h.last, hshift]
          rfl
    rw [← h.each, ← hrest]
  · intro r hr
    rcases List.mem_append.mp hr with hr | hr
    · exact (h.records r hr).imp_right (List.mem_append_left _)
    · exact (h'.records r hr).imp_right (List.mem_append_right _)

theorem told_countsOn (calls : List (Watch × Scanned)) :
    CountsOn 0 (told calls).cookie (told calls).used (told calls).records := by
  induction calls with
  | nil => exact countsOn_nil 0
  | cons call earlier ih => exact ih.append (directoryChanged_countsOn call.1 call.2 _)

/-- While the pairs are fewer than 2^32, the next cookie is not zero and no pair has had it. -/
theorem next_cookie_new {calls : List (Watch × Scanned)}
    (hpairs : (told calls).used.length + 1 < 2 ^ 32) :
    (told calls).cookie + 1 ≠ 0 ∧ (told calls).cookie + 1 ∉ (told calls).used ∧
      ∀ r ∈ (told calls).records, r.cookie ≠ (told calls).cookie + 1 := by
  have hcount := told_countsOn calls
  generalize (told calls).used = used at *
  have hnext : (told calls).cookie + 1 = UInt32.ofNat (used.length + 1) := by
    rw [hcount.last, UInt32.zero_add, UInt32.ofNat_add]
    rfl
  have hne (j : ℕ) (hj : j < used.length + 1) :
      UInt32.ofNat j ≠ UInt32.ofNat (used.length + 1) := by
    intro heq
    have hsize : UInt32.size = 2 ^ 32 := rfl
    have hnat := congrArg UInt32.toNat heq
    rw [UInt32.toNat_ofNat_of_lt' (by omega), UInt32.toNat_ofNat_of_lt' (by omega)] at hnat
    omega
  have hzero : (told calls).cookie + 1 ≠ 0 := by
    rw [hnext]
    exact (hne 0 (Nat.succ_pos _)).symm
  have hunused : (told calls).cookie + 1 ∉ used := by
    rw [hnext, hcount.each]
    intro hmem
    obtain ⟨j, hj, heq⟩ := List.mem_map.mp hmem
    rw [UInt32.zero_add] at heq
    rw [List.length_map, List.length_range] at heq
    exact hne (j + 1) (Nat.succ_lt_succ (List.mem_range.mp hj)) heq
  refine ⟨hzero, hunused, ?_⟩
  intro r hr heq
  rcases hcount.records r hr with h0 | hin
  · exact hzero (heq.symm.trans h0)
  · exact hunused (heq ▸ hin)

/-- Every next_cookie is that of the calls made before. -/
def Inst.Counted (inst : Inst) : Prop := ∃ calls, inst.nextCookie = (told calls).cookie

theorem noted_counted {inst : Inst} (h : inst.Counted) (i : ℕ) (w : Watch) (ke : KEvent) :
    (inst.noted i w ke).1.Counted := by
  obtain ⟨calls, hcalls⟩ := h
  unfold Inst.noted
  by_cases hnote : ke.fflags &&& (noteWrite ||| noteExtend ||| noteLink) ≠ 0
  · rw [if_pos hnote]
    by_cases hdir : w.isDir = true
    · rw [if_pos hdir]
      refine ⟨(w, ke.look.scan w.path) :: calls, ?_⟩
      rw [told, ← hcalls]
    · rw [if_neg hdir]
      exact ⟨calls, hcalls⟩
  · rw [if_neg hnote]
    exact ⟨calls, hcalls⟩

theorem translate_counted {inst : Inst} (h : inst.Counted) (ke : KEvent) :
    (inst.translate ke).1.Counted := by
  unfold Inst.translate
  split
  · exact h
  · split
    · exact h
    · simp only
      split <;> exact noted_counted h _ _ ke

theorem takeEvents_counted {inst : Inst} (h : inst.Counted) (evs : List KEvent) :
    (inst.takeEvents evs).1.Counted := by
  induction evs generalizing inst with
  | nil => exact h
  | cons ke evs ih => exact ih (translate_counted h ke)

/-- The next_cookie of an instance, after any run, is that of the calls of directory_changed that it
has made: nothing else writes it. -/
theorem run_counted {queueMax : ℕ} {tr : List InstEvent} {inst : Inst}
    (hr : Run (kqMachine queueMax) (fun _ _ => True) {} tr inst) : inst.Counted := by
  apply Run.invariant (fun _ inst => inst.Counted) ⟨[], rfl⟩ ?_ hr
  intro _ inst l inst' _ h _ hs
  cases l with
  | addWatch path mask os =>
    cases hs
    obtain ⟨calls, hcalls⟩ := h
    refine ⟨calls, Eq.trans ?_ hcalls⟩
    simp only [Inst.addWatch]
    (repeat' split) <;> rfl
  | rmWatch wd grown =>
    cases hs
    unfold Inst.rmWatch
    split <;> exact h
  | read len evs grown =>
    cases hs
    unfold Inst.read
    by_cases hlen : len < eventSize
    · rw [if_pos hlen]
      exact h
    · rw [if_neg hlen]
      by_cases hq : inst.queue.qlen = 0
      · rw [if_pos hq]
        exact takeEvents_counted h evs
      · rw [if_neg hq]
        exact h

end Cookies

section Rename

/-- One entry of a directory got another name there, and nothing else changed; what had that name
before is gone. -/
structure Renames (before after : Dir) (old new : Name) (st : Stat) : Prop where
  distinct : (before.map Prod.fst).Nodup
  distinctAfter : (after.map Prod.fst).Nodup
  ne : old ≠ new
  oldEntry : old ≠ [46] ∧ old ≠ [46, 46]
  newEntry : new ≠ [46] ∧ new ≠ [46, 46]
  there : (old, some st) ∈ before
  becomes : ∀ n s, n ≠ [46] → n ≠ [46, 46] →
    ((n, some s) ∈ after ↔ if n = new then s = st else n ≠ old ∧ (n, some s) ∈ before)

/-- The arguments of the emit call for one half of a move. -/
def half (w : Watch) (mask cookie : UInt32) (st : Stat) (name : Name) : Record :=
  { wd := w.wd, mask := mask ||| (if sIsdir st.mode then inIsdir else 0), cookie, name := some name }

/-- Two records are appended and no others: the two halves, with a cookie of their own. -/
structure MoveTold (w : Watch) (st : Stat) (old new : Name) (t : Told) (rs : List Record)
    (evs : List QueueEvent) : Prop where
  pair : ∃ c, c ≠ 0 ∧ c ∉ t.used ∧ (∀ r ∈ t.records, r.cookie ≠ c) ∧
    rs = [half w inMovedFrom c st old, half w inMovedTo c st new]
  kept : evs = rs.map .kept

/-- The queue has room for the two halves, and gets the memory it has to ask for. -/
def TakesHalves (queueMax : ℕ) (grown : ℕ → Bool) (q : Queue) (old new : Name) : Prop :=
  q.qlen + nameRoom old + nameRoom new ≤ queueMax ∧
  (q.qcap < q.qlen + nameRoom old → grown 0 = true) ∧
  ((if q.qcap < q.qlen + nameRoom old then
      Queue.growTo (q.qlen + nameRoom old) (q.qlen + nameRoom old)
        (if q.qcap = 0 then 4096 else q.qcap * 2)
    else q.qcap) < q.qlen + nameRoom old + nameRoom new → grown 1 = true)

variable {before after : Dir} {old new : Name} {st : Stat} {path : Name} {w : Watch}

theorem Renames.visible_iff (h : Renames before after old new st) {e : Entry} :
    e ∈ visible path after ↔ (e = fill new st ∧ Fits path new) ∨
      (e.name ≠ old ∧ e.name ≠ new ∧ e ∈ visible path before) := by
  rw [mem_visible, mem_visible]
  constructor
  · rintro ⟨n, s, hmem, hdot, hdots, hfits, rfl⟩
    have hin := (h.becomes n s hdot hdots).mp hmem
    by_cases hn : n = new
    · rw [if_pos hn] at hin
      left
      rw [hin, hn]
      exact ⟨rfl, hn ▸ hfits⟩
    · rw [if_neg hn] at hin
      exact Or.inr ⟨hin.1, hn, n, s, hin.2, hdot, hdots, hfits, rfl⟩
  · rintro (⟨rfl, hfits⟩ | ⟨hold, hnew, n, s, hmem, hdot, hdots, hfits, rfl⟩)
    · refine ⟨new, st, ?_, h.newEntry.1, h.newEntry.2, hfits, rfl⟩
      rw [h.becomes new st h.newEntry.1 h.newEntry.2, if_pos rfl]
    · refine ⟨n, s, ?_, hdot, hdots, hfits, rfl⟩
      rw [h.becomes n s hdot hdots, if_neg (show n ≠ new from hnew)]
      exact ⟨hold, hmem⟩

/-- The entry that is renamed is in the snapshot, if its path is not too long. -/
theorem Renames.old_visible (h : Renames before after old new st) :
    old ∈ names (visible path before) ↔ Fits path old := by
  constructor
  · intro hmem
    obtain ⟨e, he, hname⟩ := List.mem_map.mp hmem
    obtain ⟨n, s, -, -, -, hfits, rfl⟩ := mem_visible.mp he
    exact hname ▸ hfits
  · intro hfits
    apply List.mem_map.mpr
    exact ⟨fill old st, mem_visible.mpr ⟨old, st, h.there, h.oldEntry.1, h.oldEntry.2, hfits, rfl⟩, rfl⟩

theorem names_of_unmark {es : List Entry} (h : w.kids.map Entry.unmark = es) :
    names w.kids = names es := by
  rw [← h, names_unmark]

/-- Two halves replay: the old name was there, the new one was not, and they change places. -/
theorem halves_replay {c : UInt32} {cs : List (Change Name)} {s t : Finset Name}
    (hmeans : Means [half w inMovedFrom c st old, half w inMovedTo c st new] cs)
    (hreplay : replay s cs = some t) (hne : old ≠ new) :
    old ∈ s ∧ new ∉ s ∧ t = insert new (s.erase old) := by
  have hcs : cs = [.drop old, .add new] := by
    have hchange : [half w inMovedFrom c st old, half w inMovedTo c st new].map Record.change =
        ([.drop old, .add new] : List (Change Name)).map some := by
      have hfrom : ∀ d : Bool, fate (inMovedFrom ||| (if d then inIsdir else 0)) = some .drops := by
        decide
      have hto : ∀ d : Bool, fate (inMovedTo ||| (if d then inIsdir else 0)) = some .adds := by
        decide
      simp only [half, Record.change, List.map_cons, List.map_nil, hfrom, hto]
    have heq : cs.map some = ([.drop old, .add new] : List (Change Name)).map some :=
      hmeans.symm.trans hchange
    exact (Option.some_injective _).list_map heq
  rw [hcs] at hreplay
  simp only [replay, Change.apply] at hreplay
  by_cases hold : old ∈ s
  · rw [if_pos hold, Option.bind_some] at hreplay
    by_cases hnew : new ∈ s.erase old
    · rw [if_pos hnew] at hreplay
      cases hreplay
    · rw [if_neg hnew] at hreplay
      refine ⟨hold, ?_, (Option.some.inj hreplay).symm⟩
      exact fun hin => hnew (Finset.mem_erase.mpr ⟨hne.symm, hin⟩)
  · rw [if_neg hold] at hreplay
    cases hreplay

/-- If two halves are all that is told, then the new name is new, no path is too long, and the scan
found every entry. -/
theorem conditions_of_halves (h : Renames before after old new st) (hw : w.AsksAll)
    (hkids : w.kids.map Entry.unmark = visible w.path before) {grown named : ℕ → Bool} {c c' : UInt32}
    (hrs : (directoryChanged w (scan w.path grown named (some after)) c).2.2 =
      [half w inMovedFrom c' st old, half w inMovedTo c' st new]) :
    new ∉ names w.kids ∧ Fits w.path old ∧ Fits w.path new ∧
      ∀ i < (visible w.path after).length, Remembers grown named i := by
  obtain ⟨m, hm, hfresh, hall⟩ := scan_take w.path after grown named
  have hafter : (names (visible w.path after)).Nodup :=
    h.distinctAfter.sublist (names_visible w.path after)
  have hbefore : (names w.kids).Nodup := by
    rw [names_of_unmark hkids]
    exact h.distinct.sublist (names_visible w.path before)
  generalize scan w.path grown named (some after) = scanned at hrs hfresh
  obtain ⟨alloc, fresh⟩ := scanned
  subst hfresh
  have htake : (names ((visible w.path after).take m)).Sublist (names (visible w.path after)) :=
    (List.take_sublist m _).map _
  have hgo : ¬ (alloc = false ∧ ((visible w.path after).take m).length = 0) := by
    intro hstop
    unfold directoryChanged at hrs
    rw [if_pos hstop] at hrs
    cases hrs
  rcases hd : directoryChanged w ⟨alloc, (visible w.path after).take m⟩ c with ⟨w', c'', rs⟩
  rw [hd] at hrs
  obtain ⟨⟨cs, hmeans, htells⟩, -, -⟩ := directoryChanged_tells hw c hgo hbefore
    (hafter.sublist htake) (fun e he => visible_unseen e (List.mem_of_mem_take he)) hd
  rw [show rs = _ from hrs] at hmeans
  obtain ⟨hold, hnew, hnames⟩ := halves_replay hmeans htells.replay h.ne
  rw [List.mem_toFinset] at hold hnew
  have hnewFresh : new ∈ names ((visible w.path after).take m) := by
    rw [← List.mem_toFinset, hnames]
    exact Finset.mem_insert_self _ _
  have hsubset : (names (visible w.path after)).toFinset ⊆
      (names ((visible w.path after).take m)).toFinset := by
    intro n hn
    rw [hnames]
    obtain ⟨e, he, rfl⟩ := List.mem_map.mp (List.mem_toFinset.mp hn)
    rcases h.visible_iff.mp he with ⟨rfl, -⟩ | ⟨heold, -, hein⟩
    · exact Finset.mem_insert_self _ _
    · apply Finset.mem_insert_of_mem
      rw [Finset.mem_erase, List.mem_toFinset, names_of_unmark hkids]
      exact ⟨heold, List.mem_map_of_mem hein⟩
  have hcard := Finset.card_le_card hsubset
  rw [List.toFinset_card_of_nodup hafter, List.toFinset_card_of_nodup (hafter.sublist htake)] at hcard
  simp only [names, List.length_map, List.length_take] at hcard
  refine ⟨hnew, ?_, ?_, hall.mp (by omega)⟩
  · rw [← h.old_visible, ← names_of_unmark hkids]
    exact hold
  · obtain ⟨e, he, hname⟩ := List.mem_map.mp (htake.subset hnewFresh)
    obtain ⟨n, s, -, -, -, hfits, rfl⟩ := mem_visible.mp he
    exact hname ▸ hfits

theorem leavers_seen {olds : List Entry} (rest fresh : List Entry) (c : UInt32)
    (h : ∀ e ∈ olds, e.seen = true) : leavers w (olds ++ rest) fresh c = leavers w rest fresh c := by
  induction olds with
  | nil => rfl
  | cons old olds ih =>
    rw [List.cons_append, leavers, if_pos (h old List.mem_cons_self)]
    exact ih fun e he => h e (List.mem_cons_of_mem _ he)

/-- The second loop when one old name is left, and the file is found under another. -/
theorem leavers_one {l l' fresh : List Entry} {o landed : Entry} {k : ℕ} (c : UInt32)
    (hl : ∀ e ∈ l, e.seen = true) (hl' : ∀ e ∈ l', e.seen = true) (ho : o.seen = false)
    (hk : fresh.findIdx? (fun f => !f.seen && f.ino == o.ino) = some k)
    (hlanded : fresh[k]? = some landed) :
    leavers w (l ++ o :: l') fresh c = (fresh.set k { landed with seen := true }, c + 1,
      emitMasked w inMovedFrom (c + 1) (some o.name) (sIsdir o.mode) ++
        emitMasked w inMovedTo (c + 1) (some landed.name) (sIsdir o.mode)) := by
  have hrest := leavers_seen (w := w) [] (fresh.set k { landed with seen := true }) (c + 1) hl'
  rw [List.append_nil] at hrest
  rw [leavers_seen _ _ _ hl, leavers, if_neg (by simp [ho])]
  simp only [hk, hlanded, hrest, leavers, List.append_nil]

theorem arrivals_seen {fresh : List Entry} (h : ∀ e ∈ fresh, e.seen = true) :
    arrivals w fresh = [] := by
  apply List.flatMap_eq_nil_iff.mpr
  intro e he
  rw [if_pos (h e he)]

/-- Of the names on both sides there is nothing to say. -/
theorem Renames.same_silent (h : Renames before after old new st)
    (hkids : w.kids.map Entry.unmark = visible w.path before) (hnew : new ∉ names w.kids) :
    (visible w.path after).flatMap (sameRecords w (w.kids.map Entry.unmark)) = [] := by
  apply List.flatMap_eq_nil_iff.mpr
  intro f hf
  rw [hkids, sameRecords]
  rw [names_of_unmark hkids] at hnew
  cases hfind : (visible w.path before).find? fun k => k.name == f.name with
  | none => rfl
  | some had =>
    have hname : had.name = f.name := by simpa using List.find?_some hfind
    have hhad := List.mem_of_find?_eq_some hfind
    rcases h.visible_iff.mp hf with ⟨rfl, -⟩ | ⟨-, -, hin⟩
    · exact absurd (List.mem_map.mpr ⟨had, hhad, hname⟩) hnew
    · have hnodup : (names (visible w.path before)).Nodup :=
        h.distinct.sublist (names_visible w.path before)
      have heq := List.inj_on_of_nodup_map hnodup hhad hin hname
      rw [heq]
      simp [compareKid]

/-- Only the old name is left for the second loop. -/
theorem Renames.olds_split (h : Renames before after old new st) (hold : Fits path old)
    (hnew : new ∉ names (visible path before)) :
    ∃ l l', (visible path before).map (Entry.note (names (visible path after))) =
        l ++ fill old st :: l' ∧
      (∀ e ∈ l, e.seen = true) ∧ ∀ e ∈ l', e.seen = true := by
  have hmem : fill old st ∈ visible path before :=
    mem_visible.mpr ⟨old, st, h.there, h.oldEntry.1, h.oldEntry.2, hold, rfl⟩
  have hnodup : (names (visible path before)).Nodup := h.distinct.sublist (names_visible path before)
  have hgone : old ∉ names (visible path after) := by
    intro hin
    obtain ⟨e, he, hname⟩ := List.mem_map.mp hin
    rcases h.visible_iff.mp he with ⟨rfl, -⟩ | ⟨hne, -, -⟩
    · exact h.ne hname.symm
    · exact hne hname
  have hstays (e : Entry) (he : e ∈ visible path before) (hne : e.name ≠ old) :
      (e.note (names (visible path after))).seen = true := by
    have hnew' : e.name ≠ new := fun heq => hnew (heq ▸ List.mem_map_of_mem he)
    have hin : e.name ∈ names (visible path after) :=
      List.mem_map_of_mem (h.visible_iff.mpr (Or.inr ⟨hne, hnew', he⟩))
    rw [Entry.note_of_mem hin]
  obtain ⟨l, l', hsplit⟩ := List.append_of_mem hmem
  rw [hsplit] at hnodup hstays
  rw [names, List.map_append, List.map_cons] at hnodup
  obtain ⟨-, hl', hdisj⟩ := List.nodup_append.mp hnodup
  let ns := names (visible path after)
  refine ⟨l.map (Entry.note ns), l'.map (Entry.note ns), ?_, ?_, ?_⟩
  · rw [hsplit, List.map_append, List.map_cons, Entry.note_of_not_mem (e := fill old st) hgone]
  · intro e he
    obtain ⟨x, hx, rfl⟩ := List.mem_map.mp he
    apply hstays x (List.mem_append_left _ hx)
    exact hdisj x.name (List.mem_map_of_mem hx) old List.mem_cons_self
  · intro e he
    obtain ⟨x, hx, rfl⟩ := List.mem_map.mp he
    apply hstays x (List.mem_append_right _ (List.mem_cons_of_mem _ hx))
    intro hname
    exact (List.nodup_cons.mp hl').1 (List.mem_map.mpr ⟨x, hx, hname⟩)

/-- The new name is the one entry the first loop leaves unmarked. -/
theorem Renames.landed (h : Renames before after old new st) (hnewFits : Fits path new)
    (hnew : new ∉ names (visible path before)) :
    ∃ k, ((visible path after).map (Entry.note (names (visible path before)))).findIdx?
        (fun f => !f.seen && f.ino == (fill old st).ino) = some k ∧
      ((visible path after).map (Entry.note (names (visible path before))))[k]? =
        some (fill new st) := by
  have hone (e : Entry) (he : e ∈ (visible path after).map (Entry.note (names (visible path before))))
      (hunseen : e.seen = false) : e = fill new st := by
    obtain ⟨f, hf, rfl⟩ := List.mem_map.mp he
    rcases h.visible_iff.mp hf with ⟨rfl, -⟩ | ⟨-, -, hin⟩
    · exact Entry.note_of_not_mem hnew
    · have hname : f.name ∈ names (visible path before) := List.mem_map_of_mem hin
      rw [Entry.note_of_mem hname] at hunseen
      cases hunseen
  have hmem : fill new st ∈ (visible path after).map (Entry.note (names (visible path before))) := by
    apply List.mem_map.mpr
    refine ⟨fill new st, h.visible_iff.mpr (Or.inl ⟨rfl, hnewFits⟩), ?_⟩
    exact Entry.note_of_not_mem hnew
  generalize (visible path after).map (Entry.note (names (visible path before))) = fresh at *
  cases hk : fresh.findIdx? fun f => !f.seen && f.ino == (fill old st).ino with
  | none =>
    have hno := List.findIdx?_eq_none_iff.mp hk _ hmem
    simp [fill] at hno
  | some k =>
    refine ⟨k, rfl, ?_⟩
    obtain ⟨l, landed, l', hget, hunseen, -, -⟩ := landed_spec hk
    rw [hget, hone landed (List.mem_of_getElem? hget) hunseen]

theorem halves_of_conditions (h : Renames before after old new st) (hw : w.AsksAll)
    (hkids : w.kids.map Entry.unmark = visible w.path before) {grown named : ℕ → Bool} (c : UInt32)
    (hnew : new ∉ names w.kids) (holdFits : Fits w.path old) (hnewFits : Fits w.path new)
    (hmemory : ∀ i < (visible w.path after).length, Remembers grown named i) :
    (directoryChanged w (scan w.path grown named (some after)) c).2.2 =
      [half w inMovedFrom (c + 1) st old, half w inMovedTo (c + 1) st new] := by
  obtain ⟨m, -, hfresh, hall⟩ := scan_take w.path after grown named
  rw [hall.mpr hmemory, List.take_length] at hfresh
  generalize scan w.path grown named (some after) = scanned at hfresh
  obtain ⟨alloc, fresh⟩ := scanned
  subst hfresh
  have hsilent := h.same_silent hkids hnew
  have hnames := names_of_unmark hkids
  have hbefore : (names w.kids).Nodup := by
    rw [hnames]
    exact h.distinct.sublist (names_visible w.path before)
  have hafter : (names (visible w.path after)).Nodup :=
    h.distinctAfter.sublist (names_visible w.path after)
  have hmem : fill new st ∈ visible w.path after := h.visible_iff.mpr (Or.inl ⟨rfl, hnewFits⟩)
  have hgo : ¬ (alloc = false ∧ (visible w.path after).length = 0) := by
    rintro ⟨-, hnil⟩
    rw [List.length_eq_zero_iff.mp hnil] at hmem
    exact List.not_mem_nil hmem
  obtain ⟨fresh, c', left, hleft, hd⟩ :=
    @directoryChanged_eq w ⟨alloc, visible w.path after⟩ c hgo hbefore
  rw [hnames] at hnew hleft
  obtain ⟨l, l', hsplit, hl, hl'⟩ := h.olds_split holdFits hnew
  obtain ⟨k, hk, hlanded⟩ := h.landed hnewFits hnew
  dsimp only at hleft hd
  rw [hkids, hsplit, leavers_one c hl hl' rfl hk hlanded] at hleft
  obtain ⟨rfl, rfl, rfl⟩ : _ ∧ _ ∧ _ := by simpa only [Prod.mk.injEq] using hleft
  -- the third loop finds the new name marked, as every other
  have hseen : ∀ e ∈ ((visible w.path after).map (Entry.note (names (visible w.path before)))).set k
      { fill new st with seen := true }, e.seen = true := by
    rw [set_seen (by rw [names_note]; exact hafter) hlanded, List.map_map]
    intro e he
    obtain ⟨f, hf, rfl⟩ := List.mem_map.mp he
    rcases h.visible_iff.mp hf with ⟨rfl, -⟩ | ⟨-, -, hin⟩
    · simp [Entry.note, fill]
    · have hname : f.name ∈ names (visible w.path before) := List.mem_map_of_mem hin
      simp [Entry.note, hname]
  rw [hd]
  simp only [hsilent, arrivals_seen hseen, List.nil_append, List.append_nil]
  rw [emitMasked_asked hw rfl (by decide), emitMasked_asked hw rfl (by decide)]
  rfl

section Room
variable {queueMax : ℕ} {q : Queue} {r r' : Record}

theorem emitEvents_kept_iff {grown : Bool} : q.emitEvents queueMax grown r = [.kept r] ↔
    q.qlen + r.total ≤ queueMax ∧ (q.qcap < q.qlen + r.total → grown = true) := by
  unfold Queue.emitEvents
  by_cases hfull : queueMax < q.qlen + r.total
  · rw [if_pos hfull]
    constructor
    · intro h
      split at h <;> cases h
    · rintro ⟨hfits, -⟩
      exact absurd hfull (Nat.not_lt.mpr hfits)
  · rw [if_neg hfull]
    by_cases hcap : q.qcap < q.qlen + r.total ∧ grown = false
    · rw [if_pos hcap]
      constructor
      · intro h
        cases h
      · rintro ⟨-, hgrown⟩
        cases hcap.2.symm.trans (hgrown hcap.1)
    · rw [if_neg hcap]
      refine ⟨fun _ => ⟨Nat.not_lt.mp hfull, fun hlt => ?_⟩, fun _ => rfl⟩
      exact Bool.eq_true_of_not_eq_false fun hno => hcap ⟨hlt, hno⟩

theorem emit_kept {grown : Bool} (h : q.emitEvents queueMax grown r = [.kept r]) :
    (q.emit queueMax grown r).qlen = q.qlen + r.total ∧
      (q.emit queueMax grown r).qcap = if q.qcap < q.qlen + r.total then
        Queue.growTo (q.qlen + r.total) (q.qlen + r.total) (if q.qcap = 0 then 4096 else q.qcap * 2)
      else q.qcap := by
  obtain ⟨hfits, hgrown⟩ := emitEvents_kept_iff.mp h
  have hlen : (q.queue ++ r.bytes).length = q.qlen + r.total := by
    rw [List.length_append, r.length_bytes]
    rfl
  unfold Queue.emit
  rw [if_neg (Nat.not_lt.mpr hfits)]
  by_cases hcap : q.qcap < q.qlen + r.total
  · rw [if_pos hcap, if_pos hcap, if_pos (hgrown hcap)]
    exact ⟨hlen, rfl⟩
  · rw [if_neg hcap, if_neg hcap]
    exact ⟨hlen, rfl⟩

/-- The first of the events of two emits says that the first record was kept. -/
theorem kept_first {grown : ℕ → Bool}
    (h : q.emitsEvents queueMax grown [r, r'] = [.kept r, .kept r']) :
    q.emitEvents queueMax (grown 0) r = [.kept r] := by
  rw [Queue.emitsEvents, Queue.emitsEvents, Queue.emitsEvents, List.append_nil] at h
  rcases q.emit_cases queueMax (grown 0) r with ⟨hev, -⟩ | ⟨hev, -⟩ | ⟨hev, -⟩ | ⟨hev, -⟩
  · rw [hev, List.nil_append] at h
    rcases (q.emit queueMax (grown 0) r).emit_cases queueMax (grown (0 + 1)) r' with
      ⟨hev', -⟩ | ⟨hev', -⟩ | ⟨hev', -⟩ | ⟨hev', -⟩ <;> rw [hev'] at h <;> cases h
  · exact hev
  · rw [hev] at h
    cases h
  · rw [hev] at h
    cases h

end Room

/-- The two halves are kept if and only if there is room for them. -/
theorem halves_kept_iff (queueMax : ℕ) (grown : ℕ → Bool) (q : Queue) {r r' : Record}
    (hr : r.total = nameRoom old) (hr' : r'.total = nameRoom new) :
    q.emitsEvents queueMax grown [r, r'] = [.kept r, .kept r'] ↔
      TakesHalves queueMax grown q old new := by
  have hboth (hfirst : q.emitEvents queueMax (grown 0) r = [.kept r]) :
      q.emitsEvents queueMax grown [r, r'] = [.kept r, .kept r'] ↔
        (q.emit queueMax (grown 0) r).emitEvents queueMax (grown 1) r' = [.kept r'] := by
    rw [Queue.emitsEvents, Queue.emitsEvents, Queue.emitsEvents, List.append_nil, hfirst]
    constructor
    · exact fun h => (List.cons.inj h).2
    · exact fun h => congrArg (QueueEvent.kept r :: ·) h
  unfold TakesHalves
  rw [← hr, ← hr']
  constructor
  · intro h
    have hfirst := kept_first h
    obtain ⟨hlen, hcap⟩ := emit_kept hfirst
    have hsecond := emitEvents_kept_iff.mp ((hboth hfirst).mp h)
    rw [hlen, hcap] at hsecond
    exact ⟨hsecond.1, (emitEvents_kept_iff.mp hfirst).2, hsecond.2⟩
  · rintro ⟨hroom, hgrown, hgrown'⟩
    have hfits : q.qlen + r.total ≤ queueMax := by omega
    have hfirst := emitEvents_kept_iff.mpr ⟨hfits, hgrown⟩
    obtain ⟨hlen, hcap⟩ := emit_kept hfirst
    rw [hboth hfirst, emitEvents_kept_iff, hlen, hcap]
    exact ⟨hroom, hgrown'⟩

theorem total_half (w : Watch) (mask c : UInt32) (st : Stat) (n : Name) :
    (half w mask c st n).total = nameRoom n := rfl

/-- A rename is told as a move if and only if the new name was free, both paths are short enough for
the scan, there is memory for it, and the queue takes the two records. -/
theorem rename_told_iff (queueMax : ℕ) (calls : List (Watch × Scanned)) (before after : Dir)
    (old new : Name) (st : Stat) (w : Watch) (grown named grownQueue : ℕ → Bool) (q : Queue)
    (hpairs : (told calls).used.length + 1 < 2 ^ 32) (h : Renames before after old new st)
    (hw : w.AsksAll) (hkids : w.kids.map Entry.unmark = visible w.path before) :
    let rs := (directoryChanged w (scan w.path grown named (some after)) (told calls).cookie).2.2
    MoveTold w st old new (told calls) rs (q.emitsEvents queueMax grownQueue rs) ↔
      (new ∉ names w.kids ∧ Fits w.path old ∧ Fits w.path new ∧
        ∀ i < (visible w.path after).length, Remembers grown named i) ∧
      TakesHalves queueMax grownQueue q old new := by
  intro rs
  constructor
  · rintro ⟨⟨c, -, -, -, hrs⟩, hkept⟩
    refine ⟨conditions_of_halves h hw hkids hrs, ?_⟩
    rw [hrs] at hkept
    exact (halves_kept_iff queueMax grownQueue q (total_half _ _ _ _ _) (total_half _ _ _ _ _)).mp hkept
  · rintro ⟨⟨hnew, hold, hfits, hmemory⟩, hroom⟩
    have hrs : rs = _ := halves_of_conditions h hw hkids (told calls).cookie hnew hold hfits hmemory
    obtain ⟨hzero, hunused, hrecords⟩ := next_cookie_new hpairs
    refine ⟨⟨_, hzero, hunused, hrecords, hrs⟩, ?_⟩
    rw [hrs]
    exact (halves_kept_iff queueMax grownQueue q (total_half _ _ _ _ _) (total_half _ _ _ _ _)).mpr hroom

/-- A directory that held `a` and `c`, after `a` was renamed to `b`. -/
theorem rename_told_free :
    ∃ (w : Watch) (before after : Dir) (st : Stat), Renames before after [97] [98] st ∧
      let rs := (directoryChanged w
        (scan w.path (fun _ => true) (fun _ => true) (some after)) (told []).cookie).2.2
      MoveTold w st [97] [98] (told []) rs
        (Queue.emitsEvents inotifyQueueMax (fun _ => true) {} rs) := by
  let st (ino : UInt64) : Stat := ⟨ino, 0, 0, 0, 0⟩
  let w : Watch := ⟨1, 5, [47], inAllEvents, true, [fill [97] (st 1), fill [99] (st 3)]⟩
  let before : Dir := [([46], some (st 9)), ([97], some (st 1)), ([99], some (st 3))]
  let after : Dir := [([46], some (st 9)), ([99], some (st 3)), ([98], some (st 1))]
  have h : Renames before after [97] [98] (st 1) := by
    refine ⟨by decide, by decide, by decide, by decide, by decide, by simp [before], ?_⟩
    intro n s hdot _
    by_cases hn : n = [98]
    · simp [after, hn]
    · by_cases ha : n = [97]
      · simp [after, ha]
      · simp [before, after, hn, ha, hdot]
  refine ⟨w, before, after, st 1, h, ?_⟩
  exact (rename_told_iff inotifyQueueMax [] before after [97] [98] (st 1) w (fun _ => true)
    (fun _ => true) (fun _ => true) {} (by decide) h UInt32.and_self (by decide)).mpr
    ⟨⟨by decide, by decide, by decide, fun _ _ => ⟨fun _ => rfl, rfl⟩⟩,
      ⟨by decide, fun _ => rfl, fun _ => rfl⟩⟩

/-- `a` is renamed onto `b`, which was there: the records are those of a file that was deleted and
two that changed places. -/
theorem rename_onto_taken :
    ∃ (w : Watch) (before after : Dir) (st : Stat), Renames before after [97] [98] st ∧
      w.AsksAll ∧ w.kids.map Entry.unmark = visible w.path before ∧
      let rs := (directoryChanged w
        (scan w.path (fun _ => true) (fun _ => true) (some after)) (told []).cookie).2.2
      rs = [half w inDelete 0 st [98], half w inCreate 0 st [98], half w inDelete 0 st [97]] ∧
      ¬ MoveTold w st [97] [98] (told []) rs
        (Queue.emitsEvents inotifyQueueMax (fun _ => true) {} rs) := by
  let st (ino : UInt64) : Stat := ⟨ino, 0, 0, 0, 0⟩
  let w : Watch := ⟨1, 5, [47], inAllEvents, true, [fill [97] (st 1), fill [98] (st 2)]⟩
  let before : Dir := [([97], some (st 1)), ([98], some (st 2))]
  let after : Dir := [([98], some (st 1))]
  have h : Renames before after [97] [98] (st 1) := by
    refine ⟨by decide, by decide, by decide, by decide, by decide, by simp [before], ?_⟩
    intro n s _ _
    by_cases hn : n = [98]
    · simp [after, hn]
    · by_cases ha : n = [97] <;> simp [before, after, hn, ha]
  have hrs : (directoryChanged w
      (scan w.path (fun _ => true) (fun _ => true) (some after)) (told []).cookie).2.2 =
      [half w inDelete 0 (st 1) [98], half w inCreate 0 (st 1) [98], half w inDelete 0 (st 1) [97]] := by
    decide
  refine ⟨w, before, after, st 1, h, UInt32.and_self, by decide, hrs, ?_⟩
  rintro ⟨⟨c, -, -, -, hpair⟩, -⟩
  rw [hrs] at hpair
  have hlen := congrArg List.length hpair
  simp at hlen

end Rename

end SlipstreamIO.Inotify
