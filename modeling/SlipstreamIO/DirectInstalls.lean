import SlipstreamIO.DirectSlots

/-! One direct op that makes a descriptor, from execute to its completion, while registrations and other
ops change the table: SOCKET and ACCEPT ask in their tries, an open in the worker. -/
namespace SlipstreamIO.Engine

open Runs

abbrev NonNeg := {n : Int32 // 0 ≤ n}

/-- What a system call answers. -/
inductive CallAnswer where
  | ret (n : NonNeg)
  | failed (errno : Int32) (pos : 0 < errno)

def CallAnswer.res : CallAnswer → Int32
  | .ret n => n
  | .failed errno _ => -errno

def CallAnswer.made : CallAnswer → Option Int32
  | .ret n => some n
  | .failed _ _ => none

/-- `struct slip_open_how`, 24 bytes. -/
structure OpenHow where
  flags : UInt64
  mode : UInt64
  resolve : UInt64

/-- What an OPENAT2 is refused for before the system is asked; openat2(2) is Linux's alone. -/
def openRefused (linux : Bool) (s : Sqe) (how : OpenHow) : Option Int32 :=
  if s.len < 24 then some (-einval)
  else if !linux && how.resolve ≠ 0 then some (-eopnotsupp)
  else none

def slipPosixRunBlocking (linux : Bool) (s : Sqe) (how : OpenHow) (a : CallAnswer) : Int32 :=
  match s.opcode with
  | .read | .write | .recv | .send | .connect | .openat => a.res
  | .openat2 => (openRefused linux s how).getD a.res
  | _ => -eopnotsupp

/-- The worker asks the system for a descriptor. -/
def workerAsks (linux : Bool) (s : Sqe) (how : OpenHow) : Bool :=
  s.opcode = .openat || s.opcode = .openat2 && (openRefused linux s how).isNone

/-- What a try makes of a new descriptor. -/
def handsOver (s : Sqe) (r : Ring) (fd : Int32) : DirectOutcome :=
  if s.fileIndex ≠ 0 then installDirect s r fd else { ring := r, res := some fd, kept := [fd] }

namespace EngOp
variable (o : EngOp)

/-- The op is one that makes a descriptor. -/
def makesFd : Bool :=
  o.sqe.opcode = .socket || o.sqe.opcode = .accept || o.sqe.opcode = .openat || o.sqe.opcode = .openat2

/-- A try asks the system for a descriptor. -/
def tryAsks : Bool := o.sqe.opcode = .accept || o.sqe.opcode = .socket && o.sqe.opFlags = 0

/-- The ring after the call of a try, what the try goes on with, and whether it has closed the new
descriptor again. -/
def asked (r : Ring) : CallAnswer → Ring × OsAnswer × Bool
  | .ret fd =>
    let out := handsOver o.sqe r fd
    (out.ring, .got (out.res.getD 0) 0 0, out.kept.isEmpty)
  | .failed errno _ => (r, if errno = eagain then .again else .failed errno, false)

/-- The call, where there is one. -/
def call (r : Ring) (a : CallAnswer) : Ring × OsAnswer × Bool :=
  if o.tryAsks then o.asked r a else (r, .again, false)

end EngOp

/-- Where the op stands: in front of its first try, parked, with the worker, completed. -/
inductive DirectPlace where
  | started
  | parked
  | worker
  | done
  deriving DecidableEq

structure DirectRun where
  ring : Ring
  op : EngOp
  place : DirectPlace := .started

/-- A CQE of the op: the descriptor that was made for it, if one was, and whether in the worker; the table
before and behind the call; its value, whether the descriptor was closed again, and the value there had
been if the system had made another descriptor. -/
structure Instantiation where
  made : Option Int32
  byWorker : Bool
  before : Option (List Int32)
  after : Option (List Int32)
  answer : Int32
  closed : Bool
  instead : NonNeg → Option Int32

/-- `armed` is what the backend's arm answers when the op parks. -/
inductive DirectRunLabel where
  | others (l : TableLabel)
  | tries (a : CallAnswer) (armed : Bool)
  | works (a : CallAnswer) (how : OpenHow)

namespace DirectRun
variable (s : DirectRun)

/-- What a try comes to: the value of a CQE, if there is one, and where the op is then. -/
def verdict (t : TryTurn) (armed : Bool) : Option Int32 × DirectPlace :=
  match t.verdict with
  | none => (t.emits.map Prod.fst, s.place)
  | some (.ran res) => (some res, .done)
  | some (.park _) => if armed then (none, .parked) else (some (-ebusy), .done)
  | some .file => if s.place = .started then (none, .worker) else (some (-eopnotsupp), .done)

/-- The value of the CQE of a try. -/
def tryAnswer (a : CallAnswer) (armed : Bool) : Option Int32 :=
  (s.verdict (s.op.slipPosixTry (s.op.call s.ring a).2.1) armed).1

/-- The CQE of a try, with what its call did. -/
def told (a : CallAnswer) (armed : Bool) (res : Int32) : Instantiation where
  made := if s.op.tryAsks then a.made else none
  byWorker := false
  before := s.ring.fixed
  after := (s.op.call s.ring a).1.fixed
  answer := res
  closed := (s.op.call s.ring a).2.2
  instead := fun fd => s.tryAnswer (.ret fd) armed

def tries (a : CallAnswer) (armed : Bool) : Option (List Instantiation × DirectRun) :=
  if s.place = .started ∨ s.place = .parked then
    let t := s.op.slipPosixTry (s.op.call s.ring a).2.1
    some ((s.tryAnswer a armed).toList.map (s.told a armed),
      { ring := (s.op.call s.ring a).1, op := t.op, place := (s.verdict t armed).2 })
  else none

/-- The worker's turn: `slip_posix_run_blocking`, and the post of what it answers. -/
def worked (linux : Bool) (a : CallAnswer) (how : OpenHow) : Instantiation where
  made := if workerAsks linux s.op.sqe how then a.made else none
  byWorker := true
  before := s.ring.fixed
  after := s.ring.fixed
  answer := slipPosixRunBlocking linux s.op.sqe how a
  closed := false
  instead := fun fd => some (slipPosixRunBlocking linux s.op.sqe how (.ret fd))

def works (linux : Bool) (a : CallAnswer) (how : OpenHow) : Option (List Instantiation × DirectRun) :=
  if s.place = .worker then some ([s.worked linux a how], { s with place := .done }) else none

def out (linux : Bool) : DirectRunLabel → Option (List Instantiation × DirectRun)
  | .others l => some ([], { s with ring := (s.ring.tableStep l).1 })
  | .tries a armed => s.tries a armed
  | .works a how => s.works linux a how

end DirectRun

def directMachine (linux : Bool) : Machine DirectRun DirectRunLabel Instantiation where
  step s l := (s.out linux l).map Prod.snd
  events s l := ((s.out linux l).map Prod.fst).getD []

/-- What others install is a descriptor. -/
def OthersInstallFds (s : DirectRun) : DirectRunLabel → Prop
  | .others l => InstallsFd s.ring l
  | _ => True

instance (s : DirectRun) : (l : DirectRunLabel) → Decidable (OthersInstallFds s l)
  | .others l => inferInstanceAs (Decidable (InstallsFd s.ring l))
  | .tries _ _ | .works _ _ => isTrue trivial

namespace Instantiation

/-- The slot of a direct op got the descriptor. -/
def Installed (fileIndex : UInt32) (fd : Int32) (x : Instantiation) : Prop :=
  x.closed = false ∧ ∃ table slot, x.before = some table ∧ table.getD slot 0 < 0 ∧ slot < 2 ^ 31 ∧
    x.after = some (table.set slot fd) ∧
    if fileIndex = ioringFileIndexAlloc then x.answer = Int32.ofNat slot
    else slot = (fileIndex - 1).toNat ∧ x.answer = 0

/-- The descriptor is in the table, and the CQE carries the slot, or 0 for a named one; or the op failed,
the table is as it was and a descriptor that was made is closed. The CQE does not depend on the descriptor's
number. -/
def Sound (fileIndex : UInt32) (x : Instantiation) : Prop :=
  match x.made with
  | none => x.after = x.before ∧ x.answer < 0
  | some fd => (∀ fd', x.instead fd' = some x.answer) ∧
      (x.Installed fileIndex fd ∨ x.answer < 0 ∧ x.after = x.before ∧ x.closed = true)

/-- The worker opened a file. -/
def Opened (x : Instantiation) : Prop := x.byWorker = true ∧ x.made ≠ none

end Instantiation

section Installs
variable {r : Ring} {fd fd' : Int32} {fileIndex : UInt32} {s : Sqe}

/-- The slot that an install takes does not depend on the descriptor. -/
theorem Ring.slipFixedInstall_answer (r : Ring) (fileIndex : UInt32) (fd fd' : Int32) :
    (r.slipFixedInstall fileIndex fd).2 = (r.slipFixedInstall fileIndex fd').2 := by
  unfold slipFixedInstall
  cases r.fixed with
  | none => rfl
  | some table =>
    dsimp only
    split
    · cases Ring.allocScan table r.allocOff (r.allocOff + r.allocLen) r.allocLen
        (if r.allocHint < r.allocOff ∨ r.allocOff + r.allocLen ≤ r.allocHint then r.allocOff
          else r.allocHint) with
      | none => rfl
      | some slot => rfl
    · cases table[(fileIndex - 1).toNat]? with
      | none => rfl
      | some held =>
        dsimp only
        split <;> rfl

theorem ofNat_nonneg {slot : ℕ} (h : slot < 2 ^ 31) : ¬ Int32.ofNat slot < 0 := by
  rw [Int32.lt_iff_toInt_lt, Int32.toInt_ofNat_of_lt (by omega)]
  have hz : Int32.toInt 0 = 0 := rfl
  omega

/-- An install refuses and leaves the ring alone, or fills one empty slot. -/
theorem Ring.HintHolds.install_cases (h : r.HintHolds) (fileIndex : UInt32) (fd : Int32) :
    (r.slipFixedInstall fileIndex fd).2 < 0 ∧ (r.slipFixedInstall fileIndex fd).1 = r ∨
      ∃ table slot, r.fixed = some table ∧ table.getD slot 0 < 0 ∧ slot < 2 ^ 31 ∧
        (r.slipFixedInstall fileIndex fd).1.fixed = some (table.set slot fd) ∧
        (r.slipFixedInstall fileIndex fd).2 = Int32.ofNat slot ∧
        (fileIndex ≠ ioringFileIndexAlloc → slot = (fileIndex - 1).toNat) := by
  cases htable : r.fixed with
  | none =>
    left
    simp only [slipFixedInstall, htable]
    exact ⟨by decide, trivial⟩
  | some table =>
    have hsmall {slot : ℕ} (hfree : table.getD slot 0 < 0) : slot < 2 ^ 31 := by
      have hlt := lt_length_of_getD hfree
      have hn := h.small
      rw [Ring.fixedN_eq htable] at hn
      omega
    simp only [slipFixedInstall, htable]
    by_cases halloc : fileIndex = ioringFileIndexAlloc
    · simp only [if_pos halloc]
      cases hscan : Ring.allocScan table r.allocOff (r.allocOff + r.allocLen) r.allocLen
          (if r.allocHint < r.allocOff ∨ r.allocOff + r.allocLen ≤ r.allocHint then r.allocOff
            else r.allocHint) with
      | none => exact .inl ⟨show -enfile < 0 by decide, rfl⟩
      | some slot =>
        have hfree := allocScan_free hscan
        exact .inr ⟨table, slot, rfl, hfree, hsmall hfree, rfl, rfl, fun hne => absurd halloc hne⟩
    · simp only [if_neg halloc]
      cases hheld : table[(fileIndex - 1).toNat]? with
      | none => exact .inl ⟨show -ebadf < 0 by decide, rfl⟩
      | some held =>
        dsimp only
        by_cases hbusy : 0 ≤ held
        · rw [if_pos hbusy]
          exact .inl ⟨show -ebusy < 0 by decide, rfl⟩
        · rw [if_neg hbusy]
          have hfree : table.getD (fileIndex - 1).toNat 0 < 0 := by
            rw [List.getD_eq_getElem?_getD, hheld, Option.getD_some]
            exact Int32.not_le.mp hbusy
          exact .inr ⟨table, _, rfl, hfree, hsmall hfree, rfl, rfl, fun _ => rfl⟩

/-- What the op of a new descriptor answers when it names a slot. -/
theorem handsOver_res (hdirect : s.fileIndex ≠ 0) :
    (handsOver s r fd).res = some (if (r.slipFixedInstall s.fileIndex fd).2 < 0 then
      (r.slipFixedInstall s.fileIndex fd).2
      else if s.fileIndex = ioringFileIndexAlloc then (r.slipFixedInstall s.fileIndex fd).2 else 0) := by
  rw [handsOver, if_pos hdirect]
  by_cases hneg : (r.slipFixedInstall s.fileIndex fd).2 < 0
  · rw [installDirect_full hneg, if_pos hneg]
  · rw [installDirect_slot hneg, if_neg hneg]

theorem handsOver_answer (hdirect : s.fileIndex ≠ 0) : (handsOver s r fd).res = (handsOver s r fd').res := by
  rw [handsOver_res hdirect, handsOver_res hdirect, r.slipFixedInstall_answer _ fd fd']

end Installs

section Turns
variable {o : EngOp} {r : Ring} {s : DirectRun} {fd : Int32} {a : CallAnswer} {armed : Bool} {x : Instantiation}

theorem neg_of_pos {errno : Int32} (h : 0 < errno) : -errno < 0 := by
  rw [Int32.lt_iff_toInt_lt] at h ⊢
  have hz : Int32.toInt 0 = 0 := rfl
  rw [hz] at h ⊢
  rw [Int32.toInt_neg, Int.bmod_eq_of_le]
  all_goals
    have := errno.toInt_lt
    omega

/-- A direct op's CQE for a descriptor it got: the slot's, or an error for one that is closed again. -/
theorem Ring.HintHolds.handsOver_sound (h : r.HintHolds) (hdirect : o.sqe.fileIndex ≠ 0)
    (hmade : x.made = some fd) (hbefore : x.before = r.fixed)
    (hafter : x.after = (handsOver o.sqe r fd).ring.fixed)
    (hclosed : x.closed = (handsOver o.sqe r fd).kept.isEmpty)
    (hanswer : (handsOver o.sqe r fd).res = some x.answer)
    (hinstead : ∀ fd', x.instead fd' = some x.answer) : x.Sound o.sqe.fileIndex := by
  rw [Instantiation.Sound, hmade]
  refine ⟨hinstead, ?_⟩
  rw [handsOver_res hdirect] at hanswer
  rw [handsOver, if_pos hdirect] at hafter hclosed
  rcases h.install_cases o.sqe.fileIndex fd with
    ⟨hneg, hsame⟩ | ⟨table, slot, htable, hfree, hsmall, htable', hslot, hnamed⟩
  · right
    rw [if_pos hneg, Option.some.injEq] at hanswer
    rw [installDirect_full hneg] at hafter hclosed
    refine ⟨by rwa [← hanswer], ?_, hclosed⟩
    rw [hafter, hbefore, hsame]
  · left
    have hneg : ¬ (r.slipFixedInstall o.sqe.fileIndex fd).2 < 0 := by
      rw [hslot]
      exact ofNat_nonneg hsmall
    rw [if_neg hneg, Option.some.injEq] at hanswer
    rw [installDirect_slot hneg] at hafter hclosed
    refine ⟨hclosed, table, slot, by rw [hbefore, htable], hfree, hsmall, by rw [hafter, htable'], ?_⟩
    by_cases halloc : o.sqe.fileIndex = ioringFileIndexAlloc
    · rw [if_pos halloc] at hanswer ⊢
      rw [← hanswer, hslot]
    · rw [if_neg halloc] at hanswer ⊢
      exact ⟨hnamed halloc, hanswer.symm⟩

/-- The turn of a try that got a descriptor gives one CQE, with what the op made of it. -/
theorem verdict_got (hasks : o.tryAsks) (answer : Int32) (armed : Bool) :
    (s.verdict (o.slipPosixTry (.got answer 0 0)) armed).1 = some answer := by
  simp only [EngOp.tryAsks, Bool.or_eq_true, Bool.and_eq_true, decide_eq_true_eq] at hasks
  unfold EngOp.slipPosixTry
  rcases hasks with hopcode | ⟨hopcode, hflags⟩
  · simp only [hopcode]
    by_cases hmulti : o.sqe.ioprio &&& ioringAcceptMultishot ≠ 0
    · rw [if_pos hmulti, EngOp.runAcceptMultishot]
      by_cases hneg : answer < 0
      · rw [if_pos hneg]
        rfl
      · rw [if_neg hneg]
        rfl
    · rw [if_neg hmulti]
      rfl
  · simp only [hopcode, hflags]
    rfl

/-- A turn without a descriptor fails, if it gives a CQE at all. -/
theorem verdict_fails (hmakes : o.makesFd) {answer : OsAnswer} (hneg : answer.res < 0)
    (hnot : ∀ n bid header, answer ≠ .got n bid header) {res : Int32}
    (hres : (s.verdict (o.slipPosixTry answer) armed).1 = some res) : res < 0 := by
  have hran {t : TryTurn} {v : Int32} (ht : t = o.ran v) (hv : v < 0)
      (h : (s.verdict t armed).1 = some res) : res < 0 := by
    rw [ht] at h
    exact Option.some.inj h ▸ hv
  have hparks {t : TryTurn} {events : UInt16} (ht : t = o.parks events)
      (h : (s.verdict t armed).1 = some res) : res < 0 := by
    rw [ht] at h
    cases armed with
    | true => cases h
    | false => exact Option.some.inj h ▸ (by decide)
  have hfile (h : (s.verdict { op := o, verdict := some .file } armed).1 = some res) : res < 0 := by
    simp only [DirectRun.verdict] at h
    split at h
    · cases h
    · exact Option.some.inj h ▸ (by decide)
  have honce (h : (s.verdict (o.once pollIn answer) armed).1 = some res) : res < 0 := by
    by_cases hagain : answer = .again
    · exact hparks (if_pos hagain) h
    · exact hran (if_neg hagain) hneg h
  simp only [EngOp.makesFd, Bool.or_eq_true, decide_eq_true_eq] at hmakes
  unfold EngOp.slipPosixTry at hres
  rcases hmakes with ((hopcode | hopcode) | hopcode) | hopcode
  · simp only [hopcode] at hres
    by_cases hflags : o.sqe.opFlags ≠ 0
    · rw [if_pos hflags] at hres
      exact hran rfl (by decide) hres
    · rw [if_neg hflags] at hres
      exact hran rfl hneg hres
  · simp only [hopcode] at hres
    by_cases hmulti : o.sqe.ioprio &&& ioringAcceptMultishot ≠ 0
    · rw [if_pos hmulti] at hres
      cases answer with
      | got n bid header => exact absurd rfl (hnot n bid header)
      | again => exact hparks rfl hres
      | failed errno => exact hran rfl hneg hres
      | noBuffer rc => exact hran rfl hneg hres
      | disk => exact hran rfl hneg hres
    · rw [if_neg hmulti] at hres
      exact honce hres
  · simp only [hopcode] at hres
    exact hfile hres
  · simp only [hopcode] at hres
    exact hfile hres

end Turns

/-! ### Whole runs -/

/-- A ring without a table, and the op in front of its first try. -/
def setupDirect (n : ℕ) (cqEntries : UInt32) (o : EngOp) : DirectRun where
  ring := (setupCore n cqEntries).ring
  op := o

/-- The table is in order, and the op asks for what it asked for. -/
structure DirectRun.Inv (o : EngOp) (s : DirectRun) : Prop where
  hint : s.ring.HintHolds
  sqe : s.op.sqe = o.sqe

namespace DirectRun.Inv
variable {o : EngOp} {s : DirectRun} {a : CallAnswer} {armed linux : Bool} {how : OpenHow}
  {p : List Instantiation × DirectRun}

theorem call_cases (hasks : s.op.tryAsks = true) (a : CallAnswer) :
    (∃ fd, a = .ret fd ∧ s.op.call s.ring a = s.op.asked s.ring (.ret fd)) ∨
      ∃ answer, s.op.call s.ring a = (s.ring, answer, false) ∧ a.made = none ∧ answer.res < 0 ∧
        ∀ n bid header, answer ≠ .got n bid header := by
  cases a with
  | ret fd => exact .inl ⟨fd, rfl, if_pos hasks⟩
  | failed errno pos =>
    refine .inr ⟨if errno = eagain then .again else .failed errno, if_pos hasks, rfl, ?_, ?_⟩
    · split
      · decide
      · exact neg_of_pos pos
    · intro n bid header
      split <;> exact OsAnswer.noConfusion

/-- Each CQE of a try is sound, and no try opens a file. -/
theorem tries (h : s.Inv o) (hmakes : o.makesFd = true) (hdirect : o.sqe.fileIndex ≠ 0)
    (hs : s.tries a armed = some p) :
    p.2.Inv o ∧ ∀ x ∈ p.1, x.Sound o.sqe.fileIndex ∧ ¬ x.Opened := by
  have hsqe := h.sqe
  have hmakes' : s.op.makesFd = true := by rwa [EngOp.makesFd, hsqe]
  have hdirect' : s.op.sqe.fileIndex ≠ 0 := by rwa [hsqe]
  unfold DirectRun.tries at hs
  split at hs
  swap
  · cases hs
  obtain rfl := Option.some.inj hs
  have hkeeps : (s.op.call s.ring a).1.HintHolds := by
    unfold EngOp.call
    split
    · cases a with
      | ret fd =>
        simp only [EngOp.asked, handsOver, if_pos hdirect']
        unfold installDirect
        dsimp only
        split <;> exact h.hint.install _ fd.2
      | failed errno pos => exact h.hint
    · exact h.hint
  refine ⟨⟨hkeeps, (s.op.slipPosixTry_turn _).tried.sqe.trans hsqe⟩, fun x hx => ?_⟩
  obtain ⟨res, hres, rfl⟩ := List.mem_map.mp hx
  rw [Option.mem_toList] at hres
  refine ⟨?_, fun hopened => by cases hopened.1⟩
  -- a turn that was not answered with a descriptor
  have hfails {answer : OsAnswer} (hcall : s.op.call s.ring a = (s.ring, answer, false))
      (hneg : answer.res < 0) (hnot : ∀ n bid header, answer ≠ .got n bid header)
      (hmade : (s.told a armed res).made = none) : (s.told a armed res).Sound o.sqe.fileIndex := by
    rw [Instantiation.Sound, hmade]
    rw [tryAnswer, hcall] at hres
    refine ⟨?_, verdict_fails hmakes' hneg hnot hres⟩
    rw [told, hcall]
  by_cases hasks : s.op.tryAsks = true
  · rcases call_cases hasks a with ⟨fd, rfl, hcall⟩ | ⟨answer, hcall, hmade, hneg, hnot⟩
    · have hanswer (fd' : NonNeg) :
          s.tryAnswer (.ret fd') armed = some ((handsOver s.op.sqe s.ring fd').res.getD 0) := by
        rw [tryAnswer, EngOp.call, if_pos hasks, EngOp.asked]
        exact verdict_got hasks _ armed
      have hsome : (handsOver s.op.sqe s.ring fd).res = some res := by
        have hres' := (hanswer fd).symm.trans hres
        rw [handsOver_res hdirect'] at hres' ⊢
        exact hres'
      rw [← hsqe]
      have hring : (s.told (.ret fd) armed res).after = (handsOver s.op.sqe s.ring fd).ring.fixed := by
        rw [told, hcall, EngOp.asked]
      have hclosed : (s.told (.ret fd) armed res).closed = (handsOver s.op.sqe s.ring fd).kept.isEmpty := by
        rw [told, hcall, EngOp.asked]
      apply h.hint.handsOver_sound hdirect' (if_pos hasks) rfl hring hclosed hsome
      intro fd'
      have hsame := @handsOver_answer s.ring fd' fd s.op.sqe hdirect'
      exact (hanswer fd').trans (by rw [hsame, hsome, Option.getD_some]; rfl)
    · exact hfails hcall hneg hnot ((if_pos hasks).trans hmade)
  · exact hfails (if_neg hasks) (by decide) (fun _ _ _ => OsAnswer.noConfusion) (if_neg hasks)

/-- Without a new descriptor the worker answers an error. -/
theorem worked_fails (hmakes : s.op.makesFd = true) (hmade : (s.worked linux a how).made = none) :
    (s.worked linux a how).answer < 0 := by
  have hfailed (hnone : a.made = none) : a.res < 0 := by
    cases a with
    | ret fd => cases hnone
    | failed errno pos => exact neg_of_pos pos
  have hrefused {e : Int32} (he : openRefused linux s.op.sqe how = some e) : e < 0 := by
    unfold openRefused at he
    split at he
    · exact Option.some.inj he ▸ (by decide)
    · split at he
      · exact Option.some.inj he ▸ (by decide)
      · cases he
  simp only [worked, workerAsks] at hmade
  simp only [EngOp.makesFd, Bool.or_eq_true, decide_eq_true_eq] at hmakes
  rw [worked, slipPosixRunBlocking]
  rcases hmakes with ((hopcode | hopcode) | hopcode) | hopcode
  · simp only [hopcode]
    decide
  · simp only [hopcode]
    decide
  · simp only [hopcode] at hmade ⊢
    exact hfailed hmade
  · simp only [hopcode] at hmade ⊢
    cases href : openRefused linux s.op.sqe how with
    | none =>
      rw [href] at hmade
      exact hfailed hmade
    | some e => exact hrefused href

/-- The CQE of the worker is sound unless it has opened a file. -/
theorem works (h : s.Inv o) (hmakes : o.makesFd = true) (hs : s.works linux a how = some p) :
    p.2.Inv o ∧ ∀ x ∈ p.1, x.Sound o.sqe.fileIndex ↔ ¬ x.Opened := by
  have hsqe := h.sqe
  have hmakes' : s.op.makesFd = true := by rwa [EngOp.makesFd, hsqe]
  unfold DirectRun.works at hs
  split at hs
  swap
  · cases hs
  obtain rfl := Option.some.inj hs
  refine ⟨⟨h.hint, hsqe⟩, fun x hx => ?_⟩
  obtain rfl := List.mem_singleton.mp hx
  rw [Instantiation.Sound]
  cases hmade : (s.worked linux a how).made with
  | none =>
    refine iff_of_true ⟨rfl, worked_fails hmakes' hmade⟩ ?_
    intro hopened
    exact hopened.2 hmade
  | some fd =>
    refine iff_of_false ?_ (fun hnot => hnot ⟨rfl, by rw [hmade]; exact Option.some_ne_none fd⟩)
    rintro ⟨-, ⟨-, table, slot, hbefore, hfree, -, hafter, -⟩ | ⟨-, -, hclosed⟩⟩
    · -- the worker leaves the table as it is
      have hsame : some table = some (table.set slot fd) := hbefore.symm.trans hafter
      have hfd : 0 ≤ fd := by
        simp only [worked] at hmade
        split at hmade
        · cases a with
          | ret n =>
            rw [← Option.some.inj hmade]
            exact n.2
          | failed errno pos => cases hmade
        · cases hmade
      refine set_ne_of_sign (lt_length_of_getD hfree) ⟨fun _ => hfd, fun _ => hfree⟩ ?_
      exact (Option.some.inj hsame).symm
    · cases hclosed

theorem step (h : s.Inv o) (hmakes : o.makesFd = true) (hdirect : o.sqe.fileIndex ≠ 0)
    {l : DirectRunLabel} (hl : OthersInstallFds s l) (hs : s.out linux l = some p) :
    p.2.Inv o ∧ ∀ x ∈ p.1, x.Sound o.sqe.fileIndex ↔ ¬ x.Opened := by
  cases l with
  | others l =>
    cases hs
    exact ⟨⟨h.hint.step hl, h.sqe⟩, fun x hx => absurd hx List.not_mem_nil⟩
  | tries a armed =>
    obtain ⟨hinv, hsound⟩ := h.tries hmakes hdirect hs
    exact ⟨hinv, fun x hx => iff_of_true (hsound x hx).1 (hsound x hx).2⟩
  | works a how => exact h.works hmakes hs

end DirectRun.Inv

section Runs
variable {o : EngOp} {s : DirectRun} {linux : Bool} {n : ℕ} {e : UInt32} {tr : List Instantiation}

/-- In every run of a direct op, over every table and with everything others do to it, its CQEs are sound
exactly when the worker has not opened a file for it. -/
theorem direct_op_sound_iff (hmakes : o.makesFd = true) (hdirect : o.sqe.fileIndex ≠ 0)
    (hr : Run (directMachine linux) OthersInstallFds (setupDirect n e o) tr s) :
    (∀ x ∈ tr, x.Sound o.sqe.fileIndex) ↔ ∀ x ∈ tr, ¬ x.Opened := by
  have hall : s.Inv o ∧ ∀ x ∈ tr, x.Sound o.sqe.fileIndex ↔ ¬ x.Opened := by
    apply hr.invariant (fun tr s => s.Inv o ∧ ∀ x ∈ tr, x.Sound o.sqe.fileIndex ↔ ¬ x.Opened)
    · refine ⟨⟨Ring.HintHolds.fresh (Nat.zero_le _) le_rfl rfl, rfl⟩, ?_⟩
      intro x hx
      exact absurd hx List.not_mem_nil
    · intro tr s l s' _ ⟨hinv, htr⟩ hl hs
      obtain ⟨p, hp, rfl⟩ := Option.map_eq_some_iff.mp hs
      have hstep := hinv.step hmakes hdirect hl hp
      refine ⟨hstep.1, fun x hx => ?_⟩
      rcases List.mem_append.mp hx with hx | hx
      · exact htr x hx
      · apply hstep.2 x
        simpa [directMachine, hp] using hx
  constructor
  · intro hsound x hx
    exact (hall.2 x hx).mp (hsound x hx)
  · intro hnone x hx
    exact (hall.2 x hx).mpr (hnone x hx)

/-- A multishot accept into slots of a table of two: parked, retried, two sockets installed, and a third one
closed again. -/
theorem direct_op_sound_iff_accept : ∃ tr s,
    Run (directMachine false) OthersInstallFds (setupDirect 1 1
      { sqe := { opcode := .accept, ioprio := ioringAcceptMultishot, fileIndex := ioringFileIndexAlloc } }) tr s ∧
      tr.map Instantiation.answer = [0, 1, -enfile] ∧ s.ring.fixed = some [7, 8] ∧
      ((∀ x ∈ tr, x.Sound ioringFileIndexAlloc) ↔ ∀ x ∈ tr, ¬ x.Opened) := by
  obtain ⟨tr, s, hr, hanswers, htable⟩ := Run.of_exec (directMachine false) OthersInstallFds (setupDirect 1 1
      { sqe := { opcode := .accept, ioprio := ioringAcceptMultishot, fileIndex := ioringFileIndexAlloc } })
    (fun tr s => tr.map Instantiation.answer = [0, 1, -enfile] ∧ s.ring.fixed = some [7, 8])
    [.others (.files2 (some ⟨2, 1, 0, 0⟩) true), .tries (.failed eagain (by decide)) true,
      .tries (.ret ⟨7, by decide⟩) true, .tries (.ret ⟨8, by decide⟩) true,
      .tries (.ret ⟨9, by decide⟩) true] (by decide)
  exact ⟨tr, s, hr, hanswers, htable, direct_op_sound_iff (by decide) (by decide) hr⟩

/-- An OPENAT that names slot 1 goes to the worker, which answers with the descriptor itself. -/
theorem direct_open_answers_descriptor : ∃ tr s,
    Run (directMachine false) OthersInstallFds
      (setupDirect 1 1 { sqe := { opcode := .openat, fileIndex := 2 } }) tr s ∧
      ¬ ∀ x ∈ tr, x.Sound 2 := by
  obtain ⟨tr, s, hr, hopened⟩ := Run.of_exec (directMachine false) OthersInstallFds
    (setupDirect 1 1 { sqe := { opcode := .openat, fileIndex := 2 } })
    (fun tr _ => ∃ x ∈ tr, x.made = some 7 ∧ x.answer = 7 ∧ x.instead ⟨8, by decide⟩ = some 8)
    [.others (.files2 (some ⟨2, 1, 0, 0⟩) true), .tries (.ret ⟨7, by decide⟩) true,
      .works (.ret ⟨7, by decide⟩) ⟨0, 0, 0⟩] (by decide)
  refine ⟨tr, s, hr, fun hsound => ?_⟩
  obtain ⟨x, hx, hmade, hanswer, hother⟩ := hopened
  have hx' := hsound x hx
  rw [Instantiation.Sound, hmade] at hx'
  have hsame := hother.symm.trans (hx'.1 ⟨8, by decide⟩)
  rw [hanswer] at hsame
  exact absurd hsame (by decide)

end Runs

end SlipstreamIO.Engine
