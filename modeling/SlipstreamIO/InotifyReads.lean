import SlipstreamIO.InotifyVoices

/-! The reads of the Windows arm: a watch has two buffers, and Windows has a read into each until its packet
is at the port. What a packet is taken for, and what becomes of the reads of a watch that is freed. -/
namespace SlipstreamIO.Inotify
open Runs

/-- The two directories that a watch reads. -/
inductive Side
  | own
  | above
  deriving DecidableEq, Repr

/-- A read into one of the two buffers of a watch, which has this place in memory; `wd` is what its
completion key is made of. -/
structure WinRead where
  block : ℕ
  wd : Int32
  side : Side
  deriving DecidableEq, Repr

def WinRead.key (r : WinRead) : Int32 :=
  match r.side with
  | .own => r.wd
  | .above => upKey r.wd

/-- A read that Windows is done with, at the port. -/
structure Packet where
  read : WinRead
  ok : Bool
  deriving DecidableEq, Repr

/-- The rest of a watch: its place in memory, whether it reads the directory above, and `pending`. -/
structure WatchMem where
  block : ℕ
  up : Bool
  pending : Bool
  deriving DecidableEq, Repr

/-- An instance with its watches' memory, in the same order, the reads that Windows has, the packets at
the port, how many watches were allocated, which of them were freed, and how far its close is. -/
structure WinPort where
  inst : WinInst := {}
  mems : List WatchMem := []
  flying : List WinRead := []
  packets : List Packet := []
  made : ℕ := 0
  freed : ℕ → Bool := fun _ => false
  closing : Bool := false
  closed : Bool := false

/-- A packet is taken, for a watch or for none; a watch is freed, with the reads into it that Windows has;
Windows writes into a watch that was freed. -/
inductive PortEvent
  | took (r : WinRead) (watch : Option ℕ)
  | frees (block : ℕ) (flying : List WinRead)
  | scribbles (r : WinRead)
  deriving DecidableEq

/-- Where add_watch comes to open a directory: this one, for the name in it or for itself. -/
def WinInst.opening (inst : WinInst) (path : Option Name) (mask : UInt32) (os : WinAnswers) :
    Option (Name × Option Name) :=
  match path with
  | none => none
  | some path =>
    if mask &&& inAllEvents = 0 then none
    else
      match os.attrs with
      | none => none
      | some isDir =>
        match inst.watches.findIdx? fun w => stricmp w.whole path with
        | some _ => none
        | none =>
          if os.dup = false then none
          else if isDir then some (path, none)
          else
            match lastCut path with
            | none => none
            | some cut => if os.dupOnly = false then none else some (path.take cut, some (path.drop (cut + 1)))

/-- Whether a packet ends the watch that it is taken for. -/
def WinWatch.endsWith (w : WinWatch) (c : Completion) : Bool :=
  if w.wd ≠ c.key then !c.ok || (translateUp w c.chain).1 else !c.ok || !c.pathIsDir

namespace WinPort
variable (s : WinPort)

/-- The reads that Windows has and those at the port. -/
def reads : List WinRead := s.flying ++ s.packets.map Packet.read

/-- watch_free of the i-th watch, without the instance's own list: what is cancelled is not waited for. -/
def free (i : ℕ) : WinPort :=
  match s.mems[i]? with
  | none => s
  | some m => { s with mems := s.mems.eraseIdx i, freed := Function.update s.freed m.block true }

def frees (i : ℕ) : List PortEvent :=
  match s.mems[i]? with
  | none => []
  | some m => [.frees m.block (s.flying.filter (·.block = m.block))]

/-- Whether the new watch reads the directory above; `upArmed` is that this read could be started. -/
def opensUp (dirpath : Name) (only : Option Name) (upArmed : Bool) : Bool :=
  only.isNone && (leafOf dirpath).isSome && upArmed

/-- add_watch: the reads are started before the watch has its place in the list, and a watch that does not
get it is freed. -/
def addWatch (path : Option Name) (mask : UInt32) (os : WinAnswers) (upArmed : Bool) :
    WinPort × List PortEvent :=
  let inst := (s.inst.addWatch path mask os).2.1
  match s.inst.opening path mask os with
  | none => ({ s with inst }, [])
  | some (dirpath, only) =>
    if os.calloc = false ∨ os.handle = false ∨ os.port = false then ({ s with inst }, [])
    else
      let up := opensUp dirpath only upArmed
      let above : List WinRead := if up then [⟨s.made, s.inst.nextWd, .above⟩] else []
      let own : List WinRead := if os.armRead then [⟨s.made, s.inst.nextWd, .own⟩] else []
      if os.armRead = false ∨ os.realloc = false then
        -- nothing matters of a watch that was never read into
        if above ++ own = [] then ({ s with inst }, [])
        else
          ({ s with
              inst
              flying := s.flying ++ (above ++ own)
              made := s.made + 1
              freed := Function.update s.freed s.made true }, [.frees s.made (above ++ own)])
      else
        ({ s with
            inst
            mems := s.mems ++ [⟨s.made, up, true⟩]
            flying := s.flying ++ (above ++ own)
            made := s.made + 1 }, [])

/-- rm_watch. -/
def rmWatch (queueMax : ℕ) (grown : ℕ → Bool) (wd : Int32) : WinPort × List PortEvent :=
  let inst := (s.inst.rmWatch queueMax grown wd).2.1
  match s.inst.watches.findIdx? fun w => w.wd == wd with
  | none => ({ s with inst }, [])
  | some i => ({ s.free i with inst }, s.frees i)

/-- One packet of the port: `chain` and `pathIsDir` are what is asked of it and of the watch's directory,
`armed` that the next read could be started. -/
def takes (queueMax : ℕ) (grown : ℕ → Bool) (chain : List Fni) (pathIsDir armed : Bool) :
    Option (WinPort × List PortEvent) :=
  match s.packets with
  | [] => none
  | p :: rest =>
    let c : Completion := { key := p.read.key, ok := p.ok, chain, pathIsDir }
    let told := s.inst.takeOne c
    let s' : WinPort := { s with inst := (told.1.say queueMax grown told.2).1, packets := rest }
    match s.inst.watches.findIdx? fun w => w.wd == c.key || upKey w.wd == c.key with
    | none => some (s', [.took p.read none])
    | some i =>
      match s.inst.watches[i]?, s.mems[i]? with
      | some w, some m =>
        if w.endsWith c then some (s'.free i, .took p.read (some m.block) :: s'.frees i)
        else if w.wd ≠ c.key then
          some ({ s' with flying := s.flying ++ if m.up && armed then [⟨m.block, w.wd, .above⟩] else [] },
            [.took p.read (some m.block)])
        else
          some ({ s' with
            mems := s.mems.set i { m with pending := armed }
            flying := s.flying ++ if armed then [⟨m.block, w.wd, .own⟩] else [] }, [.took p.read (some m.block)])
      | _, _ => none

/-- What check_gone does with its i-th watch. -/
def checks (queueMax : ℕ) (grown : ℕ → Bool) (i : ℕ) (there : Presence) : WinPort × List PortEvent :=
  match s.inst.watches[i]? with
  | none => (s, [])
  | some w =>
    if w.stillThere there then (s, [])
    else ({ s.free i with inst := ((s.inst.forget i).say queueMax grown w.ends).1 }, s.frees i)

/-- Windows is done with a read: its buffer is written, and the packet queued, if the port is there. -/
def completes (r : WinRead) (ok : Bool) : Option (WinPort × List PortEvent) :=
  if r ∈ s.flying then
    some ({ s with
        flying := s.flying.erase r
        packets := if s.closed then s.packets else s.packets ++ [⟨r, ok⟩] },
      if s.freed r.block then [.scribbles r] else [])
  else none

/-- One round of the loop of the close, which forgets the last watch; with none left the port is closed, and
the packets at it are gone. -/
def closes : WinPort × List PortEvent :=
  let last := s.mems.length - 1
  if s.mems = [] then ({ s with packets := [], closing := true, closed := true }, [])
  else ({ s.free last with inst := s.inst.forget last, closing := true }, s.frees last)

end WinPort

inductive PortLabel
  | addWatch (path : Option Name) (mask : UInt32) (os : WinAnswers) (upArmed : Bool)
  | rmWatch (wd : Int32) (grown : ℕ → Bool)
  | takes (chain : List Fni) (pathIsDir armed : Bool) (grown : ℕ → Bool)
  | checks (i : ℕ) (there : Presence) (grown : ℕ → Bool)
  | closes
  | completes (r : WinRead) (ok : Bool)

def WinPort.turn (queueMax : ℕ) (s : WinPort) : PortLabel → Option (WinPort × List PortEvent)
  | .addWatch path mask os upArmed => if s.closing then none else some (s.addWatch path mask os upArmed)
  | .rmWatch wd grown => if s.closing then none else some (s.rmWatch queueMax grown wd)
  | .takes chain pathIsDir armed grown =>
    if s.closing then none else s.takes queueMax grown chain pathIsDir armed
  | .checks i there grown => if s.closing then none else some (s.checks queueMax grown i there)
  | .closes => if s.closed then none else some s.closes
  | .completes r ok => s.completes r ok

/-- The calls of an instance cut into what they do one by one, and Windows in between. -/
def portMachine (queueMax : ℕ) : Machine WinPort PortLabel PortEvent where
  step s l := (s.turn queueMax l).map Prod.fst
  events s l := ((s.turn queueMax l).map Prod.snd).getD []

/-- What the watches' keys are made of, as long as every watch that was read into got its place. -/
def wdOf (block : ℕ) : Int32 := Int32.ofNat (block + 1)

/-- No add_watch fails once Windows reads into its watch, and there are less than 2^30 watches. -/
def Steady (s : WinPort) : PortLabel → Prop
  | .addWatch _ _ os upArmed => s.made + 2 < 2 ^ 30 ∧ os.realloc = true ∧ (os.armRead = true ∨ upArmed = false)
  | .rmWatch _ _ => True
  | .takes _ _ _ _ => True
  | .checks _ _ _ => True
  | .closes => True
  | .completes _ _ => True

/-- The buffer that a read is into. -/
def WinRead.place (r : WinRead) : ℕ × Side := (r.block, r.side)

def WinPort.blocks (s : WinPort) : List ℕ := s.mems.map WatchMem.block

/-- Watches and their memory stand in the same order, a watch's number tells its place, and the watches are
the memory that was not freed. -/
structure WinPort.Placed (s : WinPort) : Prop where
  wds : s.inst.live = s.blocks.map wdOf
  next : s.inst.nextWd = wdOf s.made
  room : s.made + 1 < 2 ^ 30
  nodup : s.blocks.Nodup
  live : ∀ b, b ∈ s.blocks ↔ b < s.made ∧ s.freed b = false
  fresh : ∀ b, s.made ≤ b → s.freed b = false

/-- No two reads are into one buffer, and a watch is pending just while there is a read into its own buffer,
at Windows or at the port. -/
structure WinPort.Reading (s : WinPort) : Prop where
  once : (s.reads.map WinRead.place).Nodup
  made : ∀ r ∈ s.reads, r.block < s.made ∧ r.wd = wdOf r.block
  pending : ∀ m ∈ s.mems, m.pending = true ↔ (m.block, Side.own) ∈ s.reads.map WinRead.place
  shut : s.closed = true → s.mems = [] ∧ s.closing = true

/-- What an event owes to those before it: a packet is taken for the watch that its read is of, which is
there, or for none if that watch was freed; a watch is freed once; and Windows writes into freed memory what
it was reading as the watch was freed, and that once. -/
def Owned (pre : List PortEvent) : PortEvent → Prop
  | .took r (some b) => b = r.block ∧ ∀ rs, .frees b rs ∉ pre
  | .took r none => ∃ rs, .frees r.block rs ∈ pre
  | .frees b _ => ∀ rs, .frees b rs ∉ pre
  | .scribbles r => (∃ rs, .frees r.block rs ∈ pre ∧ r ∈ rs) ∧ .scribbles r ∉ pre

/-- The events, and what is to come of them. -/
structure WinPort.Told (tr : List PortEvent) (s : WinPort) : Prop where
  owned : AtEach Owned tr
  freed : ∀ b, s.freed b = true ↔ ∃ rs, .frees b rs ∈ tr
  flying : ∀ r ∈ s.flying, s.freed r.block = true → ∃ rs, .frees r.block rs ∈ tr ∧ r ∈ rs
  unwritten : ∀ r ∈ s.flying, .scribbles r ∉ tr
  left : ∀ b rs, .frees b rs ∈ tr → ∀ r ∈ rs, r.block = b ∧ (r ∈ s.flying ∨ .scribbles r ∈ tr)

theorem wdOf_inj {a b : ℕ} (ha : a + 1 < 2 ^ 30) (hb : b + 1 < 2 ^ 30) (h : wdOf a = wdOf b) : a = b := by
  have h := congrArg Int32.toInt h
  rw [wdOf, wdOf, Int32.toInt_ofNat_of_lt (by omega), Int32.toInt_ofNat_of_lt (by omega)] at h
  omega

theorem upKey_wdOf {b : ℕ} (hb : b + 1 < 2 ^ 30) : (upKey (wdOf b)).toInt = b + 1 + 0x40000000 := by
  have hadd : upKey (wdOf b) = Int32.ofNat (b + 1 + 0x40000000) := (Int32.ofNat_add _ _).symm
  rw [hadd, Int32.toInt_ofNat_of_lt (by omega)]
  omega

theorem wdOf_ne_upKey {a b : ℕ} (ha : a + 1 < 2 ^ 30) (hb : b + 1 < 2 ^ 30) : wdOf a ≠ upKey (wdOf b) := by
  intro h
  have h := congrArg Int32.toInt h
  rw [upKey_wdOf hb, wdOf, Int32.toInt_ofNat_of_lt (by omega)] at h
  omega

theorem upKey_inj {a b : ℕ} (ha : a + 1 < 2 ^ 30) (hb : b + 1 < 2 ^ 30) (h : upKey (wdOf a) = upKey (wdOf b)) :
    a = b := by
  have h := congrArg Int32.toInt h
  rw [upKey_wdOf ha, upKey_wdOf hb] at h
  omega

theorem wdOf_succ (b : ℕ) : wdOf b + 1 = wdOf (b + 1) := (Int32.ofNat_add _ _).symm

section
variable {inst : WinInst} {path : Option Name} {mask : UInt32} {os : WinAnswers}

/-- An add_watch that opens nothing changes a mask at most. -/
theorem opening_none (h : inst.opening path mask os = none) :
    (inst.addWatch path mask os).2.1.watches.map WinWatch.wd = inst.watches.map WinWatch.wd ∧
      (inst.addWatch path mask os).2.1.nextWd = inst.nextWd := by
  cases path with
  | none => exact ⟨rfl, rfl⟩
  | some path =>
    simp only [WinInst.opening] at h
    simp only [WinInst.addWatch]
    by_cases hmask : mask &&& inAllEvents = 0
    · rw [if_pos hmask]
      exact ⟨rfl, rfl⟩
    rw [if_neg hmask] at h ⊢
    cases hattrs : os.attrs with
    | none => exact ⟨rfl, rfl⟩
    | some isDir =>
      simp only [hattrs] at h ⊢
      cases hfind : inst.watches.findIdx? fun w => stricmp w.whole path with
      | some i =>
        simp only
        cases hw : inst.watches[i]? with
        | none => exact ⟨rfl, rfl⟩
        | some w => exact ⟨map_set_same hw rfl, rfl⟩
      | none =>
        simp only [hfind] at h ⊢
        by_cases hdup : os.dup = false
        · simp only [WinInst.newWatch, hdup, if_true]
          exact ⟨trivial, trivial⟩
        rw [if_neg hdup] at h
        cases isDir with
        | true => cases h
        | false =>
          cases hcut : lastCut path with
          | none =>
            simp only [WinInst.newWatch, if_neg hdup, hcut, Bool.false_eq_true, if_false]
            exact ⟨trivial, trivial⟩
          | some cut =>
            simp only [hcut, Bool.false_eq_true, if_false] at h
            by_cases honly : os.dupOnly = false
            · simp only [WinInst.newWatch, if_neg hdup, hcut, honly, Bool.false_eq_true, if_false, if_true]
              exact ⟨trivial, trivial⟩
            · rw [if_neg honly] at h
              cases h

/-- An add_watch that opens a directory. -/
theorem opening_some {dirpath : Name} {only : Option Name}
    (h : inst.opening path mask os = some (dirpath, only)) :
    ∃ isDir, (inst.addWatch path mask os).2.1 = match inst.openWatch dirpath only mask isDir os with
      | .error _ => inst
      | .ok w => { inst with watches := inst.watches ++ [w], nextWd := inst.nextWd + 1 } := by
  cases path with
  | none => cases h
  | some path =>
    simp only [WinInst.opening] at h
    simp only [WinInst.addWatch]
    by_cases hmask : mask &&& inAllEvents = 0
    · rw [if_pos hmask] at h
      cases h
    rw [if_neg hmask] at h ⊢
    cases hattrs : os.attrs with
    | none =>
      simp only [hattrs] at h
      cases h
    | some isDir =>
      simp only [hattrs] at h ⊢
      cases hfind : inst.watches.findIdx? fun w => stricmp w.whole path with
      | some i =>
        simp only [hfind] at h
        cases h
      | none =>
        simp only [hfind] at h ⊢
        have hnew : inst.newWatch path mask isDir os = inst.openWatch dirpath only mask isDir os := by
          by_cases hdup : os.dup = false
          · rw [if_pos hdup] at h
            cases h
          rw [if_neg hdup] at h
          simp only [WinInst.newWatch, if_neg hdup]
          cases isDir with
          | true =>
            cases h
            rfl
          | false =>
            cases hcut : lastCut path with
            | none =>
              simp only [hcut, Bool.false_eq_true, if_false] at h
              cases h
            | some cut =>
              simp only [hcut, Bool.false_eq_true, if_false] at h ⊢
              by_cases honly : os.dupOnly = false
              · rw [if_pos honly] at h
                cases h
              · rw [if_neg honly] at h ⊢
                cases h
                rfl
        refine ⟨isDir, ?_⟩
        rw [hnew]
        cases inst.openWatch dirpath only mask isDir os with
        | error e => rfl
        | ok w => rfl

/-- Which answers let the second half of add_watch get through. -/
theorem openWatch_cases (inst : WinInst) (dirpath : Name) (only : Option Name) (mask : UInt32) (isDir : Bool)
    (os : WinAnswers) :
    (((os.calloc = false ∨ os.handle = false ∨ os.port = false) ∨ os.armRead = false ∨ os.realloc = false) ∧
      ∃ e, inst.openWatch dirpath only mask isDir os = .error e) ∨
    (¬ (os.calloc = false ∨ os.handle = false ∨ os.port = false) ∧ os.armRead = true ∧ os.realloc = true ∧
      ∃ w, w.wd = inst.nextWd ∧ inst.openWatch dirpath only mask isDir os = .ok w) := by
  simp only [WinInst.openWatch]
  by_cases hcalloc : os.calloc = false
  · rw [if_pos hcalloc]
    exact .inl ⟨.inl (.inl hcalloc), _, rfl⟩
  rw [if_neg hcalloc]
  by_cases hhandle : os.handle = false ∨ os.port = false
  · rw [if_pos hhandle]
    exact .inl ⟨.inl (.inr hhandle), _, rfl⟩
  rw [if_neg hhandle]
  by_cases harm : os.armRead = false
  · rw [if_pos harm]
    exact .inl ⟨.inr (.inl harm), _, rfl⟩
  rw [if_neg harm]
  by_cases hrealloc : os.realloc = false
  · rw [if_pos hrealloc]
    exact .inl ⟨.inr (.inr hrealloc), _, rfl⟩
  rw [if_neg hrealloc]
  have hworks : ¬ (os.calloc = false ∨ os.handle = false ∨ os.port = false) := fun h => h.elim hcalloc hhandle
  exact .inr ⟨hworks, by simpa using harm, by simpa using hrealloc, _, rfl, rfl⟩

theorem opening_fails {dirpath : Name} {only : Option Name}
    (h : inst.opening path mask os = some (dirpath, only))
    (hfails : (os.calloc = false ∨ os.handle = false ∨ os.port = false) ∨ os.armRead = false ∨
      os.realloc = false) :
    (inst.addWatch path mask os).2.1 = inst := by
  obtain ⟨isDir, hadd⟩ := opening_some h
  rcases openWatch_cases inst dirpath only mask isDir os with ⟨_, e, herror⟩ | ⟨hworks, harm, hrealloc, _⟩
  · rw [hadd, herror]
  · rcases hfails with h | h | h
    · exact absurd h hworks
    · exact absurd (harm.symm.trans h) (by decide)
    · exact absurd (hrealloc.symm.trans h) (by decide)

theorem opening_opens {dirpath : Name} {only : Option Name}
    (h : inst.opening path mask os = some (dirpath, only))
    (hworks : ¬ (os.calloc = false ∨ os.handle = false ∨ os.port = false))
    (harm : ¬ (os.armRead = false ∨ os.realloc = false)) :
    ∃ w : WinWatch, w.wd = inst.nextWd ∧ (inst.addWatch path mask os).2.1 =
      { inst with watches := inst.watches ++ [w], nextWd := inst.nextWd + 1 } := by
  obtain ⟨isDir, hadd⟩ := opening_some h
  rcases openWatch_cases inst dirpath only mask isDir os with ⟨hfails, _⟩ | ⟨_, _, _, w, hwd, hok⟩
  · exact absurd hfails (not_or.mpr ⟨hworks, harm⟩)
  · rw [hadd, hok]
    exact ⟨w, hwd, rfl⟩

end

theorem mem_eraseIdx_nodup {l : List ℕ} {i a b : ℕ} (hl : l.Nodup) (hi : l[i]? = some a) :
    b ∈ l.eraseIdx i ↔ b ∈ l ∧ b ≠ a := by
  constructor
  · intro hb
    refine ⟨(List.eraseIdx_sublist ..).subset hb, ?_⟩
    intro hba
    exact not_mem_eraseIdx hl hi (hba ▸ hb)
  · rintro ⟨hb, hba⟩
    obtain ⟨j, hj⟩ := List.mem_iff_getElem?.mp hb
    refine List.mem_eraseIdx_iff_getElem?.mpr ⟨j, ?_, hj⟩
    intro hji
    subst hji
    exact hba (Option.some_inj.mp (hj.symm.trans hi))

section
variable {s s' : WinPort} {i b : ℕ} {m : WatchMem}

theorem WinPort.Placed.same (h : s.Placed) (hlive : s'.inst.live = s.inst.live)
    (hnext : s'.inst.nextWd = s.inst.nextWd) (hblocks : s'.blocks = s.blocks) (hmade : s'.made = s.made)
    (hfreed : s'.freed = s.freed) : s'.Placed where
  wds := by rw [hlive, hblocks, h.wds]
  next := by rw [hnext, hmade, h.next]
  room := by rw [hmade]; exact h.room
  nodup := by rw [hblocks]; exact h.nodup
  live := by rw [hblocks, hmade, hfreed]; exact h.live
  fresh := by rw [hmade, hfreed]; exact h.fresh

/-- A watch is forgotten and its memory freed. -/
theorem WinPort.Placed.erase (h : s.Placed) (hi : s.blocks[i]? = some b)
    (hlive : s'.inst.live = s.inst.live.eraseIdx i) (hnext : s'.inst.nextWd = s.inst.nextWd)
    (hblocks : s'.blocks = s.blocks.eraseIdx i) (hmade : s'.made = s.made)
    (hfreed : s'.freed = Function.update s.freed b true) : s'.Placed where
  wds := by rw [hlive, hblocks, h.wds, map_eraseIdx]
  next := by rw [hnext, hmade, h.next]
  room := by rw [hmade]; exact h.room
  nodup := by rw [hblocks]; exact h.nodup.sublist (List.eraseIdx_sublist ..)
  live := by
    intro x
    rw [hblocks, hmade, hfreed, mem_eraseIdx_nodup h.nodup hi, h.live]
    by_cases hx : x = b
    · subst hx
      simp
    · simp [hx]
  fresh := by
    intro x hx
    have hb := ((h.live b).mp (List.mem_of_getElem? hi)).1
    rw [hmade] at hx
    rw [hfreed, Function.update_of_ne (by omega)]
    exact h.fresh x hx

/-- A watch is added. -/
theorem WinPort.Placed.append (h : s.Placed) (hlive : s'.inst.live = s.inst.live ++ [s.inst.nextWd])
    (hnext : s'.inst.nextWd = s.inst.nextWd + 1) (hblocks : s'.blocks = s.blocks ++ [s.made])
    (hmade : s'.made = s.made + 1) (hroom : s.made + 2 < 2 ^ 30) (hfreed : s'.freed = s.freed) : s'.Placed where
  wds := by rw [hlive, hblocks, h.wds, h.next, List.map_append, List.map_singleton]
  next := by rw [hnext, hmade, h.next, wdOf_succ]
  room := by omega
  nodup := by
    rw [hblocks]
    refine List.nodup_append.mpr ⟨h.nodup, List.nodup_singleton _, ?_⟩
    intro x hx y hy
    have hlt := ((h.live x).mp hx).1
    rw [List.mem_singleton] at hy
    omega
  live := by
    intro x
    rw [hblocks, hmade, hfreed, List.mem_append, List.mem_singleton, h.live]
    constructor
    · rintro (⟨hlt, hx⟩ | rfl)
      · exact ⟨Nat.lt_succ_of_lt hlt, hx⟩
      · exact ⟨Nat.lt_succ_self _, h.fresh _ le_rfl⟩
    · rintro ⟨hlt, hx⟩
      rcases Nat.lt_succ_iff_lt_or_eq.mp hlt with hlt | rfl
      · exact .inl ⟨hlt, hx⟩
      · exact .inr rfl
  fresh := by
    intro x hx
    rw [hmade] at hx
    rw [hfreed]
    exact h.fresh x (by omega)

/-- The memory of a watch, and its number. -/
theorem WinPort.Placed.memory (h : s.Placed) {w : WinWatch} (hi : s.inst.watches[i]? = some w) :
    ∃ m, s.mems[i]? = some m ∧ w.wd = wdOf m.block ∧ m.block + 1 < 2 ^ 30 := by
  have hwd : (s.mems.map WatchMem.block |>.map wdOf)[i]? = some w.wd := by
    rw [← win_live_get hi, h.wds]
    rfl
  rw [List.getElem?_map, List.getElem?_map, Option.map_map] at hwd
  obtain ⟨m, hm, hmw⟩ := Option.map_eq_some_iff.mp hwd
  have hlt := ((h.live m.block).mp (List.mem_map_of_mem (List.mem_of_getElem? hm))).1
  have hroom := h.room
  exact ⟨m, hm, hmw.symm, by omega⟩

/-- Which watch a packet is taken for. -/
theorem WinPort.Placed.found (h : s.Placed) {r : WinRead} (hr : r.block < s.made) (hwd : r.wd = wdOf r.block)
    (hfind : (s.inst.watches.findIdx? fun w => w.wd == r.key || upKey w.wd == r.key) = some i) :
    ∃ w m, s.inst.watches[i]? = some w ∧ s.mems[i]? = some m ∧ m.block = r.block ∧ w.wd = wdOf m.block ∧
      (w.wd = r.key ↔ r.side = .own) := by
  obtain ⟨hlt, hkey, _⟩ := List.findIdx?_eq_some_iff_getElem.mp hfind
  have hi : s.inst.watches[i]? = some s.inst.watches[i] := List.getElem?_eq_getElem hlt
  obtain ⟨m, hm, hmw, hmlt⟩ := h.memory hi
  have hrlt : r.block + 1 < 2 ^ 30 := by
    have hroom := h.room
    omega
  rw [Bool.or_eq_true, beq_iff_eq, beq_iff_eq, hmw] at hkey
  have hside : m.block = r.block ∧ (wdOf m.block = r.key ↔ r.side = .own) := by
    rw [WinRead.key] at *
    cases hside : r.side with
    | own =>
      rw [hside, hwd] at hkey
      rw [hwd]
      rcases hkey with hkey | hkey
      · exact ⟨wdOf_inj hmlt hrlt hkey, fun _ => rfl, fun _ => hkey⟩
      · exact absurd hkey.symm (wdOf_ne_upKey hrlt hmlt)
    | above =>
      rw [hside, hwd] at hkey
      rw [hwd]
      rcases hkey with hkey | hkey
      · exact absurd hkey (wdOf_ne_upKey hmlt hrlt)
      · refine ⟨upKey_inj hmlt hrlt hkey, fun hown => ?_, fun hown => by cases hown⟩
        exact absurd hown (wdOf_ne_upKey hmlt hrlt)
  exact ⟨s.inst.watches[i], m, hi, hm, hside.1, hmw, by rw [hmw]; exact hside.2⟩

/-- A packet that is taken for none is of a watch that was freed. -/
theorem WinPort.Placed.lost (h : s.Placed) {r : WinRead} (hr : r.block < s.made) (hwd : r.wd = wdOf r.block)
    (hfind : (s.inst.watches.findIdx? fun w => w.wd == r.key || upKey w.wd == r.key) = none) :
    s.freed r.block = true := by
  by_contra hnot
  have hlive : r.block ∈ s.blocks := (h.live r.block).mpr ⟨hr, by simpa using hnot⟩
  have hin : wdOf r.block ∈ s.inst.live := by
    rw [h.wds]
    exact List.mem_map_of_mem hlive
  obtain ⟨w, hw, hwwd⟩ := List.mem_map.mp hin
  have hkey := List.findIdx?_eq_none_iff.mp hfind w hw
  rw [Bool.or_eq_false_iff, beq_eq_false_iff_ne, beq_eq_false_iff_ne, hwwd, ← hwd, WinRead.key] at hkey
  cases hside : r.side with
  | own =>
    rw [hside] at hkey
    exact hkey.1 rfl
  | above =>
    rw [hside] at hkey
    exact hkey.2 rfl

end

/-- What happens to the watches and the reads, one thing after the other. -/
inductive Move (s : WinPort) : List PortEvent → WinPort → Prop
  | stays (inst : WinInst) (hlive : inst.live = s.inst.live) (hnext : inst.nextWd = s.inst.nextWd) :
      Move s [] { s with inst }
  | adds (inst : WinInst) (up : Bool) (hroom : s.made + 2 < 2 ^ 30)
      (hlive : inst.live = s.inst.live ++ [s.inst.nextWd]) (hnext : inst.nextWd = s.inst.nextWd + 1)
      (hopen : s.closed = false) :
      Move s [] { s with
        inst
        mems := s.mems ++ [⟨s.made, up, true⟩]
        flying := s.flying ++
          ((if up then [⟨s.made, s.inst.nextWd, .above⟩] else []) ++ [⟨s.made, s.inst.nextWd, .own⟩])
        made := s.made + 1 }
  | frees (inst : WinInst) (i : ℕ) (m : WatchMem) (closing : Bool) (hm : s.mems[i]? = some m)
      (hlive : inst.live = s.inst.live.eraseIdx i) (hnext : inst.nextWd = s.inst.nextWd)
      (hclosing : s.closing = true → closing = true) :
      Move s [.frees m.block (s.flying.filter (·.block = m.block))] { s with
        inst, closing
        mems := s.mems.eraseIdx i
        freed := Function.update s.freed m.block true }
  | drops (p : Packet) (rest : List Packet) (hp : s.packets = p :: rest) (hfreed : s.freed p.read.block = true) :
      Move s [.took p.read none] { s with packets := rest }
  | takes (p : Packet) (rest : List Packet) (inst : WinInst) (i : ℕ) (m : WatchMem) (again : List WinRead)
      (hp : s.packets = p :: rest) (hm : s.mems[i]? = some m) (hblock : m.block = p.read.block)
      (hagain : again = [] ∨ again = [p.read]) (hlive : inst.live = s.inst.live)
      (hnext : inst.nextWd = s.inst.nextWd) :
      Move s [.took p.read (some m.block)] { s with
        inst
        packets := rest
        flying := s.flying ++ again
        mems := if p.read.side = .own then s.mems.set i { m with pending := again ≠ [] } else s.mems }
  | completes (r : WinRead) (ok : Bool) (hr : r ∈ s.flying) :
      Move s (if s.freed r.block then [.scribbles r] else []) { s with
        flying := s.flying.erase r
        packets := if s.closed then s.packets else s.packets ++ [⟨r, ok⟩] }
  | shuts (hmems : s.mems = []) : Move s [] { s with packets := [], closing := true, closed := true }

theorem Move.placed {s s' : WinPort} {ev : List PortEvent} (hm : Move s ev s') (h : s.Placed) : s'.Placed := by
  cases hm with
  | stays inst hlive hnext => exact h.same hlive hnext rfl rfl rfl
  | adds inst up hroom hlive hnext hopen =>
    refine h.append hlive hnext ?_ rfl hroom rfl
    rw [WinPort.blocks, List.map_append]
    rfl
  | frees inst i m closing hm hlive hnext hclosing =>
    refine h.erase ?_ hlive hnext map_eraseIdx rfl rfl
    rw [WinPort.blocks, List.getElem?_map, hm, Option.map_some]
  | drops p rest hp hfreed => exact h.same rfl rfl rfl rfl rfl
  | takes p rest inst i m again hp hm hblock hagain hlive hnext =>
    refine h.same hlive hnext ?_ rfl rfl
    rw [WinPort.blocks, WinPort.blocks]
    by_cases hside : p.read.side = .own
    · rw [if_pos hside]
      exact map_set_same hm rfl
    · rw [if_neg hside]
  | completes r ok hr => exact h.same rfl rfl rfl rfl rfl
  | shuts hmems => exact h.same rfl rfl rfl rfl rfl

section
variable {s s' : WinPort}

/-- The reads are the same, whoever has them. -/
theorem WinPort.Reading.perm (h : s.Reading) (hreads : s'.reads.Perm s.reads) (hmems : ∀ m ∈ s'.mems, m ∈ s.mems)
    (hmade : s'.made = s.made) (hclosed : s'.closed = s.closed)
    (hclosing : s.closing = true → s'.closing = true) :
    s'.Reading where
  once := ((hreads.map _).nodup_iff).mpr h.once
  made := by
    intro r hr
    rw [hmade]
    exact h.made r (hreads.subset hr)
  pending := by
    intro m hm
    rw [h.pending m (hmems m hm), (hreads.map _).mem_iff]
  shut := by
    intro hc
    rw [hclosed] at hc
    obtain ⟨hnone, hclosing'⟩ := h.shut hc
    refine ⟨List.eq_nil_iff_forall_not_mem.mpr fun m hm => ?_, hclosing hclosing'⟩
    have hin := hmems m hm
    rw [hnone] at hin
    exact List.not_mem_nil hin

/-- No watch is left, and no read is new. -/
theorem WinPort.Reading.left (h : s.Reading) (hreads : s'.reads.Sublist s.reads) (hmems : s'.mems = [])
    (hmade : s'.made = s.made) (hclosing : s'.closing = true) : s'.Reading where
  once := h.once.sublist (hreads.map _)
  made := by
    intro r hr
    rw [hmade]
    exact h.made r (hreads.subset hr)
  pending := by
    intro m hm
    rw [hmems] at hm
    exact absurd hm List.not_mem_nil
  shut := fun _ => ⟨hmems, hclosing⟩

/-- The first packet is taken off the port. -/
theorem WinPort.Reading.pop (h : s.Reading) {p : Packet} {rest : List Packet} (hp : s.packets = p :: rest)
    (x : ℕ × Side) : x ∈ (s.flying ++ rest.map Packet.read).map WinRead.place ↔
      x ∈ s.reads.map WinRead.place ∧ x ≠ p.read.place := by
  have hperm : (s.reads.map WinRead.place).Perm
      (p.read.place :: (s.flying ++ rest.map Packet.read).map WinRead.place) := by
    rw [WinPort.reads, hp, ← List.map_cons]
    exact List.perm_middle.map _
  have hnodup := List.nodup_cons.mp (hperm.nodup_iff.mp h.once)
  rw [hperm.mem_iff, List.mem_cons]
  constructor
  · intro hx
    exact ⟨.inr hx, fun hpx => hnodup.1 (hpx ▸ hx)⟩
  · rintro ⟨hx | hx, hne⟩
    · exact absurd hx hne
    · exact hx

theorem WinPort.reads_pop {p : Packet} {rest : List Packet} (hp : s.packets = p :: rest) :
    (s.flying ++ rest.map Packet.read).Sublist s.reads := by
  rw [WinPort.reads, hp]
  exact (List.Sublist.refl _).append (List.sublist_cons_self ..)

theorem WinPort.Placed.place_ne (h : s.Placed) {m : WatchMem} {r : WinRead} {side : Side} (hm : m ∈ s.mems)
    (hfreed : s.freed r.block = true) : (m.block, side) ≠ r.place := by
  intro heq
  have hlive := ((h.live m.block).mp (List.mem_map_of_mem hm)).2
  rw [(Prod.mk.inj heq).1, hfreed] at hlive
  cases hlive

/-- The reads of a new watch. -/
theorem new_reads (s : WinPort) (up : Bool) {new : List WinRead}
    (hnew : new = (if up then [⟨s.made, s.inst.nextWd, .above⟩] else []) ++ [⟨s.made, s.inst.nextWd, .own⟩]) :
    (∀ r ∈ new, r.block = s.made ∧ r.wd = s.inst.nextWd) ∧ (new.map WinRead.place).Nodup ∧
      (s.made, Side.own) ∈ new.map WinRead.place := by
  subst hnew
  cases up <;> simp [WinRead.place]

/-- A watch is added, with reads that no one has. -/
theorem WinPort.Reading.add (h : s.Reading) (hp : s.Placed) {new : List WinRead} {up : Bool}
    (hnew : new = (if up then [⟨s.made, s.inst.nextWd, .above⟩] else []) ++ [⟨s.made, s.inst.nextWd, .own⟩])
    (hreads : s'.reads = (s.flying ++ new) ++ s.packets.map Packet.read) (hmade : s'.made = s.made + 1)
    (hmems : s'.mems = s.mems ++ [⟨s.made, up, true⟩]) (hopen : s'.closed = false) : s'.Reading := by
  obtain ⟨hall, hnodup, hown⟩ := new_reads s up hnew
  have hperm : s'.reads.Perm (new ++ s.reads) := by
    rw [hreads, WinPort.reads, ← List.append_assoc]
    exact List.perm_append_comm.append_right _
  have hold : ∀ r ∈ s.reads, ∀ side, (s.made, side) ≠ r.place := by
    intro r hr side heq
    have hlt := (h.made r hr).1
    have heq : s.made = r.block := (Prod.mk.inj heq).1
    omega
  exact {
    once := by
      rw [(hperm.map _).nodup_iff, List.map_append]
      refine List.nodup_append.mpr ⟨hnodup, h.once, ?_⟩
      intro x hx y hy hxy
      obtain ⟨r, hr, rfl⟩ := List.mem_map.mp hx
      obtain ⟨r', hr', rfl⟩ := List.mem_map.mp hy
      refine hold r' hr' r.side ?_
      rw [← hxy, ← (hall r hr).1]
      rfl
    made := by
      intro r hr
      rw [hmade]
      rcases List.mem_append.mp (hperm.subset hr) with hr | hr
      · obtain ⟨hblock, hwd⟩ := hall r hr
        rw [hwd, hp.next, hblock]
        exact ⟨Nat.lt_succ_self _, rfl⟩
      · exact ⟨Nat.lt_succ_of_lt (h.made r hr).1, (h.made r hr).2⟩
    pending := by
      intro m hm
      rw [hmems] at hm
      rw [(hperm.map _).mem_iff, List.map_append, List.mem_append]
      rcases List.mem_append.mp hm with hm | hm
      · rw [h.pending m hm]
        constructor
        · exact .inr
        · rintro (hin | hin)
          · obtain ⟨r, hr, heq⟩ := List.mem_map.mp hin
            have hlt := ((hp.live m.block).mp (List.mem_map_of_mem hm)).1
            have heq : r.block = m.block := (Prod.mk.inj heq).1
            have hblock := (hall r hr).1
            omega
          · exact hin
      · rw [List.mem_singleton.mp hm]
        exact ⟨fun _ => .inl hown, fun _ => rfl⟩
    shut := by
      intro hc
      rw [hopen] at hc
      cases hc }

/-- A packet is taken for the i-th watch, and the next read into the same buffer started, or not. -/
theorem WinPort.Reading.take (h : s.Reading) (hp : s.Placed) {p : Packet} {rest : List Packet} {i : ℕ}
    {m : WatchMem} {again : List WinRead} (hpk : s.packets = p :: rest) (hm : s.mems[i]? = some m)
    (hblock : m.block = p.read.block)
    (hagain : again = [] ∨ again = [p.read]) (hreads : s'.reads = (s.flying ++ again) ++ rest.map Packet.read)
    (hmade : s'.made = s.made)
    (hmems : s'.mems = if p.read.side = .own then s.mems.set i { m with pending := again ≠ [] } else s.mems)
    (hclosed : s'.closed = s.closed) : s'.Reading := by
  have hsub : s'.reads.Sublist s.reads := by
    rcases hagain with rfl | rfl
    · rw [hreads, List.append_nil]
      exact WinPort.reads_pop hpk
    · rw [hreads, WinPort.reads, hpk, List.append_assoc]
      exact .refl _
  -- a place is read still, unless it is this one and there is no read again
  have hplace : ∀ x, x ∈ s'.reads.map WinRead.place ↔
      x ∈ s.reads.map WinRead.place ∧ (x = p.read.place → again ≠ []) := by
    intro x
    rcases hagain with rfl | rfl
    · rw [hreads, List.append_nil, h.pop hpk]
      exact ⟨fun hx => ⟨hx.1, fun heq => absurd heq hx.2⟩, fun hx => ⟨hx.1, fun heq => hx.2 heq rfl⟩⟩
    · have hsame : s'.reads = s.reads := by
        rw [hreads, WinPort.reads, hpk, List.append_assoc]
        rfl
      rw [hsame]
      exact ⟨fun hx => ⟨hx, fun _ => List.cons_ne_nil _ _⟩, fun hx => hx.1⟩
  have hother : ∀ m' ∈ s.mems, (m'.block, Side.own) ≠ p.read.place →
      (m'.pending = true ↔ (m'.block, Side.own) ∈ s'.reads.map WinRead.place) := by
    intro m' hm' hne
    rw [hplace, h.pending m' hm']
    exact ⟨fun hx => ⟨hx, fun heq => absurd heq hne⟩, fun hx => hx.1⟩
  exact {
    once := h.once.sublist (hsub.map _)
    made := by
      intro r hr
      rw [hmade]
      exact h.made r (hsub.subset hr)
    pending := by
      intro m' hm'
      rw [hmems] at hm'
      by_cases hside : p.read.side = .own
      · rw [if_pos hside] at hm'
        have hown : (m.block, Side.own) = p.read.place := by rw [WinRead.place, hblock, hside]
        have hlt := (List.getElem?_eq_some_iff.mp hm).1
        obtain ⟨j, hj⟩ := List.mem_iff_getElem?.mp hm'
        by_cases hij : i = j
        · subst hij
          rw [List.getElem?_set_self hlt] at hj
          cases hj
          rw [hplace, hown, decide_eq_true_iff]
          refine ⟨fun hne => ⟨?_, fun _ => hne⟩, fun hx => hx.2 rfl⟩
          rw [WinPort.reads, hpk]
          exact List.mem_map_of_mem (List.mem_append_right _ List.mem_cons_self)
        · rw [List.getElem?_set_ne hij] at hj
          refine hother m' (List.mem_of_getElem? hj) ?_
          rw [← hown]
          intro heq
          -- two watches have not one place
          have hb : s.blocks[i]? = s.blocks[j]? := by
            rw [WinPort.blocks, List.getElem?_map, List.getElem?_map, hm, hj, Option.map_some, Option.map_some,
              (Prod.mk.inj heq).1]
          exact hij ((List.getElem?_inj (by rw [WinPort.blocks, List.length_map]; exact hlt) hp.nodup).mp hb)
      · rw [if_neg hside] at hm'
        refine hother m' hm' fun heq => hside ?_
        exact (Prod.mk.inj heq).2.symm
    shut := by
      intro hc
      rw [hclosed] at hc
      rw [(h.shut hc).1] at hm
      cases hm }

theorem Move.reading {ev : List PortEvent} (hm : Move s ev s') (hp : s.Placed) (h : s.Reading) : s'.Reading := by
  cases hm with
  | stays inst hlive hnext => exact h.perm (.refl _) (fun _ hm => hm) rfl rfl id
  | adds inst up hroom hlive hnext hopen => exact h.add hp rfl rfl rfl rfl hopen
  | frees inst i m closing hm hlive hnext hclosing =>
    exact h.perm (.refl _) (fun _ hm => (List.eraseIdx_sublist ..).subset hm) rfl rfl hclosing
  | drops p rest hpk hfreed =>
    exact {
      once := h.once.sublist ((WinPort.reads_pop hpk).map _)
      made := fun r hr => h.made r ((WinPort.reads_pop hpk).subset hr)
      pending := fun m hm => by
        rw [h.pending m hm]
        exact ⟨fun hin => (h.pop hpk _).mpr ⟨hin, hp.place_ne hm hfreed⟩, fun hin => ((h.pop hpk _).mp hin).1⟩
      shut := h.shut }
  | takes p rest inst i m again hpk hm hblock hagain hlive hnext =>
    exact h.take hp hpk hm hblock hagain rfl rfl rfl rfl
  | completes r ok hr =>
    cases hclosed : s.closed with
    | true =>
      refine h.left ?_ (h.shut hclosed).1 rfl (h.shut hclosed).2
      simp only [WinPort.reads, if_true]
      exact List.erase_sublist.append (.refl _)
    | false =>
      refine h.perm ?_ (fun _ hm => hm) rfl hclosed.symm id
      simp only [WinPort.reads, Bool.false_eq_true, if_false, List.map_append, List.map_singleton]
      calc s.flying.erase r ++ (s.packets.map Packet.read ++ [r])
          _ = (s.flying.erase r ++ s.packets.map Packet.read) ++ [r] := (List.append_assoc ..).symm
          _ |>.Perm ([r] ++ (s.flying.erase r ++ s.packets.map Packet.read)) := List.perm_append_comm
          _ |>.Perm (s.flying ++ s.packets.map Packet.read) := ((List.perm_cons_erase hr).symm.append_right _)
  | shuts hmems =>
    refine h.left ?_ hmems rfl rfl
    rw [WinPort.reads, WinPort.reads]
    exact (List.Sublist.refl _).append (List.nil_sublist _)

theorem WinPort.Told.scribbled {tr : List PortEvent} (h : s.Told tr) {r : WinRead} (hr : .scribbles r ∈ tr) :
    ∃ rs, .frees r.block rs ∈ tr ∧ r ∈ rs := by
  obtain ⟨pre, post, rfl⟩ := List.append_of_mem hr
  obtain ⟨⟨rs, hrs, hin⟩, _⟩ := h.owned pre _ post rfl
  exact ⟨rs, List.mem_append_left _ hrs, hin⟩

/-- Nothing is reported; a read that is new is into a watch that is there, and so is one that ends. -/
theorem WinPort.Told.same {tr : List PortEvent} (h : s.Told tr) (hfreed : s'.freed = s.freed)
    (hflying : ∀ r ∈ s'.flying, r ∈ s.flying ∨ s.freed r.block = false)
    (hends : ∀ r ∈ s.flying, s.freed r.block = true → r ∈ s'.flying) : s'.Told tr where
  owned := h.owned
  freed := by rw [hfreed]; exact h.freed
  flying := by
    intro r hr hgone
    rw [hfreed] at hgone
    rcases hflying r hr with hr | hr
    · exact h.flying r hr hgone
    · rw [hgone] at hr
      cases hr
  unwritten := by
    intro r hr hwritten
    rcases hflying r hr with hr | hr
    · exact h.unwritten r hr hwritten
    · obtain ⟨rs, hrs, _⟩ := h.scribbled hwritten
      rw [(h.freed r.block).mpr ⟨rs, hrs⟩] at hr
      cases hr
  left := by
    intro b rs hrs r hr
    obtain ⟨hblock, hin | hwritten⟩ := h.left b rs hrs r hr
    · have hgone : s.freed r.block = true := (h.freed r.block).mpr ⟨rs, hblock ▸ hrs⟩
      exact ⟨hblock, .inl (hends r hin hgone)⟩
    · exact ⟨hblock, .inr hwritten⟩

/-- No watch is freed by what is reported. -/
theorem WinPort.Told.concat {tr : List PortEvent} {e : PortEvent} (h : s.Told tr) (he : Owned tr e)
    (hfrees : ∀ b rs, .frees b rs ≠ e) (hwrites : ∀ r ∈ s.flying, .scribbles r ≠ e) : s.Told (tr ++ [e]) where
  owned := h.owned.concat he
  freed := by
    intro b
    rw [h.freed]
    constructor
    · rintro ⟨rs, hrs⟩
      exact ⟨rs, List.mem_append_left _ hrs⟩
    · rintro ⟨rs, hrs⟩
      rcases List.mem_append.mp hrs with hrs | hrs
      · exact ⟨rs, hrs⟩
      · exact absurd (List.mem_singleton.mp hrs) (hfrees b rs)
  flying := by
    intro r hr hgone
    obtain ⟨rs, hrs, hin⟩ := h.flying r hr hgone
    exact ⟨rs, List.mem_append_left _ hrs, hin⟩
  unwritten := by
    intro r hr hwritten
    rcases List.mem_append.mp hwritten with hwritten | hwritten
    · exact h.unwritten r hr hwritten
    · exact hwrites r hr (List.mem_singleton.mp hwritten)
  left := by
    intro b rs hrs r hr
    rcases List.mem_append.mp hrs with hrs | hrs
    · obtain ⟨hblock, hin | hwritten⟩ := h.left b rs hrs r hr
      · exact ⟨hblock, .inl hin⟩
      · exact ⟨hblock, .inr (List.mem_append_left _ hwritten)⟩
    · exact absurd (List.mem_singleton.mp hrs) (hfrees b rs)

/-- Windows is done with a read into a watch that was freed. -/
theorem WinPort.Told.writes {tr : List PortEvent} {r : WinRead} (h : s.Told tr) (hin : r ∈ s.flying)
    (hnodup : s.flying.Nodup) (hgone : s.freed r.block = true) (hfreed : s'.freed = s.freed)
    (hflying : s'.flying = s.flying.erase r) : s'.Told (tr ++ [.scribbles r]) where
  owned := h.owned.concat ⟨h.flying r hin hgone, h.unwritten r hin⟩
  freed := by
    intro b
    rw [hfreed, h.freed]
    constructor
    · rintro ⟨rs, hrs⟩
      exact ⟨rs, List.mem_append_left _ hrs⟩
    · rintro ⟨rs, hrs⟩
      rcases List.mem_append.mp hrs with hrs | hrs
      · exact ⟨rs, hrs⟩
      · cases List.mem_singleton.mp hrs
  flying := by
    intro r' hr' hgone'
    rw [hflying] at hr'
    rw [hfreed] at hgone'
    obtain ⟨rs, hrs, hmem⟩ := h.flying r' (List.mem_of_mem_erase hr') hgone'
    exact ⟨rs, List.mem_append_left _ hrs, hmem⟩
  unwritten := by
    intro r' hr' hwritten
    rw [hflying, hnodup.mem_erase_iff] at hr'
    rcases List.mem_append.mp hwritten with hwritten | hwritten
    · exact h.unwritten r' hr'.2 hwritten
    · cases List.mem_singleton.mp hwritten
      exact hr'.1 rfl
  left := by
    intro b rs hrs r' hr'
    rw [hflying, hnodup.mem_erase_iff]
    rcases List.mem_append.mp hrs with hrs | hrs
    · obtain ⟨hblock, hin' | hwritten⟩ := h.left b rs hrs r' hr'
      · by_cases hsame : r' = r
        · rw [hsame]
          exact ⟨hsame ▸ hblock, .inr (List.mem_append_right _ (List.mem_singleton_self _))⟩
        · exact ⟨hblock, .inl ⟨hsame, hin'⟩⟩
      · exact ⟨hblock, .inr (List.mem_append_left _ hwritten)⟩
    · cases List.mem_singleton.mp hrs

/-- A watch is freed, whatever Windows is reading into it. -/
theorem WinPort.Told.free {tr : List PortEvent} {b : ℕ} (h : s.Told tr) (hlive : s.freed b = false)
    (hfreed : s'.freed = Function.update s.freed b true) (hflying : s'.flying = s.flying) :
    s'.Told (tr ++ [.frees b (s.flying.filter (·.block = b))]) where
  owned := by
    refine h.owned.concat fun rs hrs => ?_
    rw [(h.freed b).mpr ⟨rs, hrs⟩] at hlive
    cases hlive
  freed := by
    intro x
    rw [hfreed]
    by_cases hx : x = b
    · subst hx
      rw [Function.update_self]
      exact ⟨fun _ => ⟨_, List.mem_append_right _ (List.mem_singleton_self _)⟩, fun _ => rfl⟩
    · rw [Function.update_of_ne hx, h.freed]
      constructor
      · rintro ⟨rs, hrs⟩
        exact ⟨rs, List.mem_append_left _ hrs⟩
      · rintro ⟨rs, hrs⟩
        rcases List.mem_append.mp hrs with hrs | hrs
        · exact ⟨rs, hrs⟩
        · cases List.mem_singleton.mp hrs
          exact absurd rfl hx
  flying := by
    intro r hr hgone
    rw [hflying] at hr
    rw [hfreed] at hgone
    by_cases hb : r.block = b
    · refine ⟨_, List.mem_append_right _ (List.mem_singleton.mpr (by rw [hb])), ?_⟩
      exact List.mem_filter.mpr ⟨hr, decide_eq_true hb⟩
    · rw [Function.update_of_ne hb] at hgone
      obtain ⟨rs, hrs, hin⟩ := h.flying r hr hgone
      exact ⟨rs, List.mem_append_left _ hrs, hin⟩
  unwritten := by
    intro r hr hwritten
    rw [hflying] at hr
    rcases List.mem_append.mp hwritten with hwritten | hwritten
    · exact h.unwritten r hr hwritten
    · cases List.mem_singleton.mp hwritten
  left := by
    intro x rs hrs r hr
    rw [hflying]
    rcases List.mem_append.mp hrs with hrs | hrs
    · obtain ⟨hblock, hin | hwritten⟩ := h.left x rs hrs r hr
      · exact ⟨hblock, .inl hin⟩
      · exact ⟨hblock, .inr (List.mem_append_left _ hwritten)⟩
    · cases List.mem_singleton.mp hrs
      obtain ⟨hin, hblock⟩ := List.mem_filter.mp hr
      exact ⟨of_decide_eq_true hblock, .inl hin⟩

theorem WinPort.Placed.live_get (h : s.Placed) {i : ℕ} {m : WatchMem} (hm : s.mems[i]? = some m) :
    s.freed m.block = false :=
  ((h.live m.block).mp (List.mem_map_of_mem (List.mem_of_getElem? hm))).2

theorem Move.told {ev tr : List PortEvent} (hm : Move s ev s') (hp : s.Placed) (hr : s.Reading) (h : s.Told tr) :
    s'.Told (tr ++ ev) := by
  cases hm with
  | stays inst hlive hnext =>
    rw [List.append_nil]
    exact h.same rfl (fun r hin => .inl hin) fun r hin _ => hin
  | adds inst up hroom hlive hnext hopen =>
    rw [List.append_nil]
    refine h.same rfl (fun r hin => ?_) fun r hin _ => List.mem_append_left _ hin
    rcases List.mem_append.mp hin with hin | hin
    · exact .inl hin
    · right
      rw [((new_reads s up rfl).1 r hin).1]
      exact hp.fresh _ le_rfl
  | frees inst i m closing hm hlive hnext hclosing => exact h.free (hp.live_get hm) rfl rfl
  | drops p rest hpk hfreed =>
    have htook : s.Told (tr ++ [.took p.read none]) :=
      h.concat ((h.freed _).mp hfreed) (fun _ _ hne => by cases hne) (fun _ _ hne => by cases hne)
    exact htook.same rfl (fun r hin => .inl hin) fun r hin _ => hin
  | takes p rest inst i m again hpk hm hblock hagain hlive hnext =>
    have hthere := hp.live_get hm
    have htook : s.Told (tr ++ [.took p.read (some m.block)]) := by
      refine h.concat ⟨hblock, fun rs hrs => ?_⟩ (fun _ _ hne => by cases hne) (fun _ _ hne => by cases hne)
      rw [(h.freed _).mpr ⟨rs, hrs⟩] at hthere
      cases hthere
    refine htook.same rfl (fun r hin => ?_) fun r hin _ => List.mem_append_left _ hin
    rcases List.mem_append.mp hin with hin | hin
    · exact .inl hin
    · right
      rcases hagain with rfl | rfl
      · exact absurd hin List.not_mem_nil
      · rw [List.mem_singleton.mp hin, ← hblock]
        exact hthere
  | completes r ok hin =>
    have hnodup : s.flying.Nodup := (List.nodup_append.mp (List.Nodup.of_map _ hr.once)).1
    cases hfreed : s.freed r.block with
    | true =>
      rw [if_pos rfl]
      exact h.writes hin hnodup hfreed rfl rfl
    | false =>
      rw [if_neg (by decide), List.append_nil]
      refine h.same rfl (fun r' hr' => .inl (List.mem_of_mem_erase hr')) fun r' hr' hgone => ?_
      refine (List.mem_erase_of_ne fun he => ?_).mpr hr'
      rw [he, hfreed] at hgone
      cases hgone
  | shuts hmems =>
    rw [List.append_nil]
    exact h.same rfl (fun r hin => .inl hin) fun r hin _ => hin

end

theorem act_wd (c : Cookies) (w : WinWatch) (e : Fni) (isdir : Bool) : (act c w e isdir).2.1.wd = w.wd := by
  unfold act
  dsimp only
  split
  · rfl
  split
  · rfl
  split
  · rfl
  split
  · rfl
  split <;> rfl

theorem translateChain_wd (c : Cookies) (w : WinWatch) (chain : List Fni) :
    (translateChain c w chain).2.1.wd = w.wd := by
  induction chain generalizing c w with
  | nil => rfl
  | cons e chain ih =>
    have hone : (translateOne c w e).2.1.wd = w.wd := by
      unfold translateOne
      split
      · rfl
      have hlearn : (learn w e).2.wd = w.wd := (congrArg WinWatch.wd learn_face :)
      dsimp only
      split
      · exact hlearn
      · exact (act_wd ..).trans hlearn
    exact (ih (translateOne c w e).1 (translateOne c w e).2.1).trans hone

theorem takeOne_none {inst : WinInst} {c : Completion}
    (hfind : (inst.watches.findIdx? fun w => w.wd == c.key || upKey w.wd == c.key) = none) :
    inst.takeOne c = (inst, []) := by
  simp only [WinInst.takeOne, hfind]

/-- A packet ends the watch that it is taken for, or leaves the watches as they are. -/
theorem takeOne_some {inst : WinInst} {c : Completion} {i : ℕ} {w : WinWatch}
    (hfind : (inst.watches.findIdx? fun w => w.wd == c.key || upKey w.wd == c.key) = some i)
    (hw : inst.watches[i]? = some w) : (inst.takeOne c).1.nextWd = inst.nextWd ∧
      (inst.takeOne c).1.live = if w.endsWith c then inst.live.eraseIdx i else inst.live := by
  simp only [WinInst.takeOne, hfind, hw]
  by_cases hkey : w.wd = c.key
  · have hends : w.endsWith c = (!c.ok || !c.pathIsDir) := if_neg (not_not.mpr hkey)
    rw [if_neg (not_not.mpr hkey), hends]
    by_cases hend : c.ok = false ∨ c.pathIsDir = false
    · rw [if_pos hend, if_pos (by simpa using hend)]
      exact ⟨rfl, win_forget_live⟩
    · rw [if_neg hend, if_neg (by simpa using hend)]
      exact ⟨rfl, map_set_same hw (translateChain_wd ..)⟩
  · have hends : w.endsWith c = (!c.ok || (translateUp w c.chain).1) := if_pos hkey
    rw [if_pos hkey, hends]
    cases hok : c.ok with
    | false => exact ⟨rfl, win_forget_live⟩
    | true =>
      rw [if_pos rfl, Bool.not_true, Bool.false_or]
      by_cases hgone : (translateUp w c.chain).1 = true
      · rw [if_pos hgone, if_pos hgone]
        exact ⟨rfl, win_forget_live⟩
      · rw [if_neg hgone, if_neg hgone]
        exact ⟨rfl, rfl⟩

section
variable {s : WinPort} {queueMax : ℕ} {grown : ℕ → Bool}

theorem addWatch_moves {path : Option Name} {mask : UInt32} {os : WinAnswers} {upArmed : Bool}
    (hsteady : Steady s (.addWatch path mask os upArmed)) (hopen : s.closed = false) :
    Path Move s (s.addWatch path mask os upArmed).2 (s.addWatch path mask os upArmed).1 := by
  obtain ⟨hroom, hrealloc, harms⟩ := hsteady
  unfold WinPort.addWatch
  cases hopening : s.inst.opening path mask os with
  | none =>
    obtain ⟨hlive, hnext⟩ := opening_none hopening
    exact .one (.stays _ hlive hnext)
  | some opened =>
    obtain ⟨dirpath, only⟩ := opened
    dsimp only
    by_cases hworks : os.calloc = false ∨ os.handle = false ∨ os.port = false
    · rw [if_pos hworks, opening_fails hopening (.inl hworks)]
      exact .one (.stays _ rfl rfl)
    rw [if_neg hworks]
    by_cases hfails : os.armRead = false ∨ os.realloc = false
    · rw [if_pos hfails, opening_fails hopening (.inr hfails)]
      have harm : os.armRead = false := by
        rcases hfails with harm | hnone
        · exact harm
        · rw [hrealloc] at hnone
          cases hnone
      have hup : upArmed = false := by
        rcases harms with h | h
        · rw [harm] at h
          cases h
        · exact h
      rw [if_pos (by simp [harm, hup, WinPort.opensUp])]
      exact .one (.stays _ rfl rfl)
    · rw [if_neg hfails]
      obtain ⟨w, hwd, hadd⟩ := opening_opens hopening hworks hfails
      have harm : os.armRead = true := by simpa using (not_or.mp hfails).1
      rw [hadd, harm]
      refine .one (.adds _ _ hroom ?_ rfl hopen)
      rw [WinInst.live, WinInst.live, List.map_append, List.map_singleton, hwd]

/-- The i-th watch is forgotten. -/
theorem forgets_moves (h : s.Placed) {i : ℕ} {w : WinWatch} (hw : s.inst.watches[i]? = some w) {inst : WinInst}
    (hlive : inst.live = s.inst.live.eraseIdx i) (hnext : inst.nextWd = s.inst.nextWd) :
    Path Move s (s.frees i) { s.free i with inst } := by
  obtain ⟨m, hm, _⟩ := h.memory hw
  rw [WinPort.frees, WinPort.free, hm]
  exact .one (.frees inst i m s.closing hm hlive hnext id)

theorem rmWatch_moves (h : s.Placed) (wd : Int32) :
    Path Move s (s.rmWatch queueMax grown wd).2 (s.rmWatch queueMax grown wd).1 := by
  simp only [WinPort.rmWatch, WinInst.rmWatch]
  cases hfind : s.inst.watches.findIdx? fun w => w.wd == wd with
  | none => exact .one (.stays _ rfl rfl)
  | some i =>
    obtain ⟨hlt, _⟩ := List.findIdx?_eq_some_iff_getElem.mp hfind
    exact forgets_moves h (List.getElem?_eq_getElem hlt) win_forget_live rfl

theorem checks_moves (h : s.Placed) (i : ℕ) (there : Presence) :
    Path Move s (s.checks queueMax grown i there).2 (s.checks queueMax grown i there).1 := by
  unfold WinPort.checks
  cases hw : s.inst.watches[i]? with
  | none => exact .start
  | some w =>
    dsimp only
    by_cases hthere : w.stillThere there = true
    · rw [if_pos hthere]
      exact .start
    · rw [if_neg hthere]
      exact forgets_moves h hw win_forget_live rfl

theorem closes_moves (h : s.Placed) : Path Move s s.closes.2 s.closes.1 := by
  unfold WinPort.closes
  dsimp only
  by_cases hnone : s.mems = []
  · rw [if_pos hnone]
    exact .one (.shuts hnone)
  · rw [if_neg hnone]
    have hlen : s.inst.watches.length = s.mems.length := by
      have hlen := congrArg List.length h.wds
      simpa [WinInst.live, WinPort.blocks] using hlen
    have hpos := List.length_pos_iff.mpr hnone
    have hlt : s.mems.length - 1 < s.inst.watches.length := by omega
    obtain ⟨m, hm, _⟩ := h.memory (List.getElem?_eq_getElem hlt)
    rw [WinPort.frees, WinPort.free, hm]
    exact .one (.frees _ _ m true hm win_forget_live rfl fun _ => rfl)

theorem completes_moves {r : WinRead} {ok : Bool} {s' : WinPort} {ev : List PortEvent}
    (hc : s.completes r ok = some (s', ev)) : Path Move s ev s' := by
  unfold WinPort.completes at hc
  by_cases hr : r ∈ s.flying
  · rw [if_pos hr] at hc
    cases hc
    exact .one (.completes r ok hr)
  · rw [if_neg hr] at hc
    cases hc

/-- A packet ends the watch that it is taken for: it is taken, and there is no read again, and then the watch
is freed. -/
theorem ends_moves {p : Packet} {rest : List Packet} {i : ℕ} {m : WatchMem} {inst : WinInst}
    (hpk : s.packets = p :: rest) (hm : s.mems[i]? = some m) (hblock : m.block = p.read.block)
    (hlive : inst.live = s.inst.live.eraseIdx i) (hnext : inst.nextWd = s.inst.nextWd) :
    Path Move s [.took p.read (some m.block), .frees m.block (s.flying.filter (·.block = m.block))]
      { s with
        inst
        packets := rest
        mems := s.mems.eraseIdx i
        freed := Function.update s.freed m.block true } := by
  have htook := Move.takes p rest s.inst i m [] hpk hm hblock (.inl rfl) rfl rfl
  rw [List.append_nil] at htook
  by_cases hside : p.read.side = .own
  · rw [if_pos hside] at htook
    have hm' : (s.mems.set i { m with pending := ([] : List WinRead) ≠ [] })[i]? =
        some { m with pending := ([] : List WinRead) ≠ [] } :=
      List.getElem?_set_self (List.getElem?_eq_some_iff.mp hm).1
    have hfrees := (Path.one htook).next (.frees inst i _ s.closing hm' hlive hnext id)
    rw [List.eraseIdx_set_eq] at hfrees
    exact hfrees
  · rw [if_neg hside] at htook
    exact (Path.one htook).next (.frees inst i m s.closing hm hlive hnext id)

theorem takes_moves (h : s.Placed) (hr : s.Reading) {chain : List Fni} {pathIsDir armed : Bool} {s' : WinPort}
    {ev : List PortEvent} (ht : s.takes queueMax grown chain pathIsDir armed = some (s', ev)) :
    Path Move s ev s' := by
  unfold WinPort.takes at ht
  cases hpk : s.packets with
  | nil =>
    rw [hpk] at ht
    cases ht
  | cons p rest =>
    rw [hpk] at ht
    dsimp only at ht
    have hin : p.read ∈ s.reads := by
      rw [WinPort.reads, hpk]
      exact List.mem_append_right _ List.mem_cons_self
    obtain ⟨hmade, hwd⟩ := hr.made p.read hin
    cases hfind : s.inst.watches.findIdx? fun w => w.wd == p.read.key || upKey w.wd == p.read.key with
    | none =>
      rw [hfind] at ht
      rw [takeOne_none hfind] at ht
      cases ht
      exact .one (.drops p rest hpk (h.lost hmade hwd hfind))
    | some i =>
      obtain ⟨w, m, hw, hm, hblock, hmw, hown⟩ := h.found hmade hwd hfind
      let c : Completion := { key := p.read.key, ok := p.ok, chain, pathIsDir }
      let inst := ((s.inst.takeOne c).1.say queueMax grown (s.inst.takeOne c).2).1
      obtain ⟨hnext, hlive⟩ : inst.nextWd = s.inst.nextWd ∧
          inst.live = if w.endsWith c then s.inst.live.eraseIdx i else s.inst.live := takeOne_some hfind hw
      rw [hfind] at ht
      simp only [hw, hm] at ht
      by_cases hends : w.endsWith c = true
      · rw [if_pos hends] at ht hlive
        rw [WinPort.free, WinPort.frees, hm] at ht
        cases ht
        exact ends_moves hpk hm hblock hlive hnext
      rw [if_neg hends] at ht hlive
      by_cases hkey : w.wd = p.read.key
      · rw [if_neg (not_not.mpr hkey)] at ht
        cases ht
        have hread : (⟨m.block, w.wd, .own⟩ : WinRead) = p.read := by
          rw [hblock, hmw, hblock, ← hwd, ← hown.mp hkey]
        rw [hread]
        have htook := Move.takes p rest inst i m (if armed then [p.read] else []) hpk hm hblock
          (by cases armed <;> simp) hlive hnext
        rw [if_pos (hown.mp hkey)] at htook
        cases armed <;> exact .one htook
      · rw [if_pos hkey] at ht
        cases ht
        have hside : p.read.side ≠ .own := fun hside => hkey (hown.mpr hside)
        have habove : p.read.side = .above := by
          cases hs : p.read.side with
          | own => exact absurd hs hside
          | above => rfl
        have hread : (⟨m.block, w.wd, .above⟩ : WinRead) = p.read := by
          rw [hblock, hmw, hblock, ← hwd, ← habove]
        rw [hread]
        have htook := Move.takes p rest inst i m (if m.up && armed then [p.read] else []) hpk hm hblock
          (by cases m.up && armed <;> simp) hlive hnext
        rw [if_neg hside] at htook
        exact .one htook

theorem guarded_moves {g : Bool} {x : Option (WinPort × List PortEvent)} {s' : WinPort} {ev : List PortEvent}
    (hx : g = false → x = some (s', ev) → Path Move s ev s') (ht : (if g then none else x) = some (s', ev)) :
    Path Move s ev s' := by
  cases g with
  | true => cases ht
  | false => exact hx rfl ht

theorem turn_moves (h : s.Placed) (hr : s.Reading) {l : PortLabel} (hsteady : Steady s l) {s' : WinPort}
    {ev : List PortEvent} (ht : s.turn queueMax l = some (s', ev)) : Path Move s ev s' := by
  cases l with
  | completes r ok => exact completes_moves ht
  | takes chain pathIsDir armed grown => exact guarded_moves (fun _ ht => takes_moves h hr ht) ht
  | closes =>
    refine guarded_moves (fun _ ht => ?_) ht
    have hmoves := closes_moves h
    rw [Option.some_inj.mp ht] at hmoves
    exact hmoves
  | addWatch path mask os upArmed =>
    refine guarded_moves (fun hopen ht => ?_) ht
    have hclosed : s.closed = false := by
      by_contra hclosed
      rw [(hr.shut (by simpa using hclosed)).2] at hopen
      cases hopen
    have hmoves := addWatch_moves hsteady hclosed
    rw [Option.some_inj.mp ht] at hmoves
    exact hmoves
  | rmWatch wd grown =>
    refine guarded_moves (fun _ ht => ?_) ht
    have hmoves : Path Move s (s.rmWatch queueMax grown wd).2 (s.rmWatch queueMax grown wd).1 :=
      rmWatch_moves h wd
    rw [Option.some_inj.mp ht] at hmoves
    exact hmoves
  | checks i there grown =>
    refine guarded_moves (fun _ ht => ?_) ht
    have hmoves : Path Move s (s.checks queueMax grown i there).2 (s.checks queueMax grown i there).1 :=
      checks_moves h i there
    rw [Option.some_inj.mp ht] at hmoves
    exact hmoves

end

/-- What has been proved of a state and the events up to it. -/
structure WinPort.Kept (tr : List PortEvent) (s : WinPort) : Prop where
  placed : s.Placed
  reading : s.Reading
  told : s.Told tr

theorem kept_start : WinPort.Kept [] {} where
  placed := {
    wds := rfl
    next := rfl
    room := by decide
    nodup := List.nodup_nil
    live := fun b => by simp [WinPort.blocks]
    fresh := fun _ _ => rfl }
  reading := {
    once := List.nodup_nil
    made := fun r hr => absurd hr List.not_mem_nil
    pending := fun m hm => absurd hm List.not_mem_nil
    shut := fun hc => by cases hc }
  told := {
    owned := fun pre e post h => by simp at h
    freed := fun b => by simp
    flying := fun r hr => absurd hr List.not_mem_nil
    unwritten := fun r hr => absurd hr List.not_mem_nil
    left := fun b rs hrs => absurd hrs List.not_mem_nil }

theorem Move.kept {s s' : WinPort} {tr ev : List PortEvent} (hm : Move s ev s') (h : s.Kept tr) :
    s'.Kept (tr ++ ev) :=
  ⟨hm.placed h.placed, hm.reading h.placed h.reading, hm.told h.placed h.reading h.told⟩

theorem Move.path_kept {s s' : WinPort} {tr ev : List PortEvent} (hp : Path Move s ev s') (h : s.Kept tr) :
    s'.Kept (tr ++ ev) := by
  induction hp with
  | start => rwa [List.append_nil]
  | next _ hm ih =>
    rw [← List.append_assoc]
    exact hm.kept ih

/-- Whatever Windows is done with, and when: a packet is never taken for another watch than the one its read
is of, no two reads are into one buffer, and what is written into freed memory are the reads that were not
waited for when it was freed: each of them, unless Windows still has it. -/
theorem reads_come_home {queueMax : ℕ} {tr : List PortEvent} {s : WinPort}
    (hr : Run (portMachine queueMax) Steady {} tr s) :
    AtEach Owned tr ∧ (s.reads.map WinRead.place).Nodup ∧
      (∀ m ∈ s.mems, m.pending = true ↔ (m.block, Side.own) ∈ s.reads.map WinRead.place) ∧
      ∀ b rs, .frees b rs ∈ tr → ∀ r ∈ rs, r ∈ s.flying ∨ .scribbles r ∈ tr := by
  have hkept : s.Kept tr := by
    refine hr.invariant (fun tr s => s.Kept tr) kept_start ?_
    intro tr s l s' _ h hsteady hstep
    obtain ⟨⟨s'', ev⟩, ht, hs⟩ := Option.map_eq_some_iff.mp hstep
    cases hs
    have hev : (portMachine queueMax).events s l = ev := by
      show ((s.turn queueMax l).map Prod.snd).getD [] = ev
      rw [ht]
      rfl
    rw [hev]
    exact Move.path_kept (turn_moves h.placed h.reading hsteady ht) h
  exact ⟨hkept.told.owned, hkept.reading.once, hkept.reading.pending,
    fun b rs hrs r hr => (hkept.told.left b rs hrs r hr).2⟩

/-- A watch on `\d` is removed while Windows reads into it; Windows writes into what was its memory, and the
packet is for no watch. -/
theorem reads_come_home_late :
    ∃ (tr : List PortEvent) (s : WinPort),
      tr = [.frees 0 [⟨0, 1, .own⟩], .scribbles ⟨0, 1, .own⟩, .took ⟨0, 1, .own⟩ none] ∧ AtEach Owned tr ∧
      (s.reads.map WinRead.place).Nodup ∧
      (∀ m ∈ s.mems, m.pending = true ↔ (m.block, Side.own) ∈ s.reads.map WinRead.place) ∧
      ∀ b rs, .frees b rs ∈ tr → ∀ r ∈ rs, r ∈ s.flying ∨ .scribbles r ∈ tr := by
  have hadd := (Run.start : Run (portMachine 4096) Steady {} [] {}).next
    (l := .addWatch (some [92, 100]) inAllEvents { attrs := some true } false)
    (by exact ⟨by decide, rfl, .inl rfl⟩) rfl
  have hrm := hadd.next (l := .rmWatch 1 fun _ => true) (by exact trivial) rfl
  have hdone := hrm.next (l := .completes ⟨0, 1, .own⟩ false) (by exact trivial) rfl
  have htook := hdone.next (l := .takes [] true true fun _ => true) (by exact trivial) rfl
  exact ⟨_, _, rfl, reads_come_home htook⟩

/-- An add_watch that fails once the directory above is read leaves this read behind, and the next watch gets
its number: the packet ends that watch, without a word. -/
example : ∃ (tr : List PortEvent) (s : WinPort), Run (portMachine 4096) (fun _ _ => True) {} tr s ∧
    tr = [.frees 0 [⟨0, 1, .above⟩], .scribbles ⟨0, 1, .above⟩, .took ⟨0, 1, .above⟩ (some 1),
      .frees 1 [⟨1, 1, .own⟩]] ∧ s.inst.watches = [] ∧ s.inst.queue.qlen = 0 := by
  have hfails := (Run.start : Run (portMachine 4096) (fun _ _ => True) {} [] {}).next
    (l := .addWatch (some [47, 97, 47, 98]) inAllEvents { attrs := some true, armRead := false } true)
    (by exact trivial) rfl
  have hadd := hfails.next
    (l := .addWatch (some [47, 99]) inAllEvents { attrs := some true } false) (by exact trivial) rfl
  have hdone := hadd.next (l := .completes ⟨0, 1, .above⟩ false) (by exact trivial) rfl
  have htook := hdone.next (l := .takes [] true true fun _ => true) (by exact trivial) rfl
  exact ⟨_, _, htook, rfl, rfl, rfl⟩

end SlipstreamIO.Inotify
