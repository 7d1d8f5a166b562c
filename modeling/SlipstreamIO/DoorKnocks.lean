import SlipstreamIO.DispatchDoor

/-! One knock at the door of the dispatch backend: a token for it, owed, given or taken, as long as there
is something behind the door, and every hit answered with room. -/
namespace SlipstreamIO.Engine

open ThreadedList Runs

theorem lt_growTo {fd : ℕ} (k : ℕ) {want : ℕ} (hpos : 0 < want) (hk : fd < want + k) :
    fd < growTo fd k want := by
  induction k generalizing want with
  | zero => exact hk
  | succ k ih =>
    unfold growTo
    split
    · apply ih <;> omega
    · omega

namespace DoorFd
variable (e : DoorFd) (sd t : Side)

@[simp] theorem setOps_reg (l : List Slot) : (e.setOps sd l).reg = e.reg := by cases sd <;> rfl

@[simp] theorem setOps_nextReady (l : List Slot) : (e.setOps sd l).nextReady = e.nextReady := by
  cases sd <;> rfl

@[simp] theorem setOps_ops (l : List Slot) : (e.setOps sd l).ops t = if t = sd then l else e.ops t := by
  cases sd <;> cases t <;> rfl

theorem ops_with_reg (r : DspReg) : ({ e with reg := r } : DoorFd).ops t = e.ops t := by
  cases t <;> rfl

theorem setOps_with_reg_ops (l : List Slot) (r : DspReg) :
    ({ e.setOps sd l with reg := r } : DoorFd).ops t = if t = sd then l else e.ops t := by
  cases sd <;> cases t <;> rfl

@[simp] theorem setOps_own : e.setOps sd (e.ops sd) = e := by cases sd <;> rfl

theorem with_reg_setOps (l : List Slot) (r : DspReg) :
    ({ e with reg := r } : DoorFd).setOps sd l = { e.setOps sd l with reg := r } := by
  cases sd <;> rfl

theorem setOps_with_own_reg (l : List Slot) : { e.setOps sd l with reg := e.reg } = e.setOps sd l := by
  cases sd <;> rfl

/-- A waiter behind a side that was hit. -/
theorem mem_behind {op : Slot} : op ∈ e.behind ↔ ∃ sd, e.reg.hit sd = true ∧ op ∈ e.ops sd := by
  unfold behind
  rw [List.mem_append]
  constructor
  · rintro (h | h) <;> split at h
    · next hit => exact ⟨.input, hit, h⟩
    · cases h
    · next hit => exact ⟨.output, hit, h⟩
    · cases h
  · rintro ⟨sd, hit, h⟩
    cases sd with
    | input =>
      have hrd : e.reg.rdHit = true := hit
      left
      rw [if_pos hrd]
      exact h
    | output =>
      have hwr : e.reg.wrHit = true := hit
      right
      rw [if_pos hwr]
      exact h

end DoorFd

namespace DspDoor
variable {s s' : DspDoor} {l : DspDoorLabel}

/-- A knock sets the flag; whoever sets it owes the signal. -/
theorem knockLocked_eq (s : DspDoor) : s.knockLocked = ({ s with knocked := true }, !s.knocked) := by
  unfold knockLocked
  split
  · next hk =>
    have hs : { s with knocked := true } = s := by rw [← hk]
    rw [hs, hk]
    rfl
  · next hk =>
    rw [Bool.eq_false_of_not_eq_true hk]
    rfl

/-- Signals still to come: of the handler that runs, of ops that came back, of pokes, and of a wait that
left something behind. -/
def owed (s : DspDoor) : ℕ :=
  (s.handler.getD false).toNat + s.doneOwes + s.pokeOwes +
    match s.pc with
    | .leaving _ _ => 1
    | _ => 0

/-- The token a wait took and has not yet accounted for. -/
def tokenTaken (s : DspDoor) : ℕ :=
  match s.pc with
  | .taken | .synced => 1
  | _ => 0

/-- One token for one knock, and a knock for whatever there is to collect. -/
structure OneKnock (s : DspDoor) : Prop where
  token : s.sem + s.owed + s.tokenTaken = if s.knocked then 1 else 0
  knocked : s.readyHead ≠ none ∨ s.done ≠ [] → s.knocked = true

/-- The table ends where it ends, every op is in the one place it is said to be in, and ops out of the
core's hands are ops of the pool. -/
structure Placed (s : DspDoor) : Prop where
  beyond : ∀ f, s.fdsN ≤ f → s.fds f = {}
  listed : ∀ f sd, ∀ op ∈ (s.fds f).ops sd, s.place op = .parked f sd
  once : ∀ f sd, ((s.fds f).ops sd).Nodup
  pool : ∀ op, s.place op ≠ .core → op < s.opPoolN
  back : ∀ d ∈ s.done, s.place d.1 = .cameBack
  backOnce : (s.done.map Prod.fst).Nodup

/-- The chain, from `ready_head` on, is the descriptors marked queued. -/
structure Chained (s : DspDoor) (chain : List ℕ) : Prop where
  threads : Threads (fun f => (s.fds f).nextReady) s.readyHead chain
  queued : ∀ f, f ∈ chain ↔ (s.fds f).reg.queued = true

/-- What a pass has still to retry is parked, each op once, and has room for its answer. -/
def Roomy (s : DspDoor) : Prop :=
  ∀ ready room, s.pc = .leaving ready room ∨ s.pc = .finishing ready room →
    ready.Nodup ∧ (∀ op ∈ ready, ∃ f sd, s.place op = .parked f sd) ∧ ready.length ≤ room

namespace Placed

theorem congr (h : s.Placed) (hn : s'.opPoolN = s.opPoolN)
    (hops : ∀ f sd, (s'.fds f).ops sd = (s.fds f).ops sd)
    (hbeyond : ∀ f, s'.fdsN ≤ f → s'.fds f = {}) (hplace : s'.place = s.place)
    (hdone : s'.done = s.done) : s'.Placed := by
  constructor
  · exact hbeyond
  · intro f sd op hop
    rw [hplace]
    exact h.listed f sd op (hops f sd ▸ hop)
  · intro f sd
    rw [hops]
    exact h.once f sd
  · rw [hplace, hn]
    exact h.pool
  · rw [hplace, hdone]
    exact h.back
  · rw [hdone]
    exact h.backOnce

/-- Ops that are not with the core, each once: there are no more of them than the pool has. -/
theorem length_le (h : s.Placed) {ops : List Slot} (hnd : ops.Nodup)
    (hout : ∀ op ∈ ops, s.place op ≠ .core) : ops.length ≤ s.opPoolN := by
  have hsub : ops ⊆ List.range s.opPoolN := by
    intro op hop
    exact List.mem_range.mpr (h.pool op (hout op hop))
  have hlen := (List.subperm_of_subset hnd hsub).length_le
  rwa [List.length_range] at hlen

/-- A slot of the table: it may grow, and the new entries are what they were. -/
theorem slot (h : s.Placed) {fd : ℕ} {grown : Bool} (hs : s.slot fd grown = some s') :
    s.fdsN ≤ s'.fdsN ∧ fd < s'.fdsN ∧ s' = { s with fdsN := s'.fdsN } := by
  unfold DspDoor.slot at hs
  split at hs
  · next hlt =>
    cases hs
    exact ⟨Nat.le_refl _, hlt, rfl⟩
  next hge =>
  split at hs
  · have hlt : fd < growTo fd (fd + 1) (if s.fdsN ≠ 0 then s.fdsN else 64) := by
      apply lt_growTo
      · split <;> omega
      · omega
    dsimp only at hs
    generalize growTo fd (fd + 1) (if s.fdsN ≠ 0 then s.fdsN else 64) = want at hs hlt
    have hfds : (fun f => if s.fdsN ≤ f ∧ f < want then {} else s.fds f) = s.fds := by
      ext1 f
      by_cases hf : s.fdsN ≤ f ∧ f < want
      · rw [if_pos hf, h.beyond f hf.1]
      · rw [if_neg hf]
    rw [hfds] at hs
    cases hs
    exact ⟨by dsimp only; omega, hlt, rfl⟩
  · cases hs

end Placed

/-! ### The walk of the chain -/

/-- An entry with its hits answered and off the chain. -/
def cut (s : DspDoor) (pre : List ℕ) : ℕ → DoorFd := fun f =>
  if f ∈ pre then { s.fds f with reg := (s.fds f).reg.answered, nextReady := none } else s.fds f

@[simp] theorem cut_nil (s : DspDoor) : s.cut [] = s.fds := by
  ext1 f
  exact if_neg List.not_mem_nil

/-- The state of the walk one descriptor on. -/
def step1 (s : DspDoor) (i : ℕ) : DspDoor :=
  { s.setFd i { s.fds i with reg := (s.fds i).reg.answered, nextReady := none } with
    readyHead := (s.fds i).nextReady }

theorem step1_of_ne {i f : ℕ} (hf : f ≠ i) : (s.step1 i).fds f = s.fds f := if_neg hf

theorem cut_cons {i : ℕ} {pre : List ℕ} (hi : i ∉ pre) : (s.step1 i).cut pre = s.cut (i :: pre) := by
  ext1 f
  unfold cut
  by_cases hf : f = i
  · rw [hf, if_neg hi, if_pos List.mem_cons_self]
    exact if_pos rfl
  · have hmem : f ∈ i :: pre ↔ f ∈ pre := by simp [hf]
    simp only [hmem, step1_of_ne hf]

/-- The walk takes descriptors off the front of the chain, with the waiters behind their hits, until
there are none left or the next one's waiters do not fit. -/
theorem walkChain_spec {chain : List ℕ} {fuel : ℕ} (ready : List Slot)
    (h : Threads (fun f => (s.fds f).nextReady) s.readyHead chain) (hfuel : chain.length ≤ fuel) :
    ∃ pre suf, chain = pre ++ suf ∧
      walkChain fuel s ready = ({ s with fds := s.cut pre, readyHead := suf.head? },
        ready ++ pre.flatMap fun f => (s.fds f).behind) ∧
      Threads (fun f => (s.cut pre f).nextReady) suf.head? suf ∧
      ∀ f ∈ suf.head?,
        s.opPoolN < (ready ++ pre.flatMap fun f => (s.fds f).behind).length + (s.fds f).behind.length := by
  induction chain generalizing s ready fuel with
  | nil =>
    have hhead : s.readyHead = none := h
    refine ⟨[], [], rfl, ?_, rfl, fun f hf => absurd hf (Option.not_mem_none f)⟩
    have hs : { s with fds := s.cut [], readyHead := none } = s := by rw [cut_nil, ← hhead]
    rw [List.flatMap_nil, List.append_nil, List.head?_nil, hs]
    cases fuel with
    | zero => rfl
    | succ fuel =>
      unfold walkChain
      rw [hhead]
  | cons i rest ih =>
    have hhead : s.readyHead = some i := h.1
    have hi : i ∉ rest := (List.nodup_cons.mp (threads_nodup h)).1
    obtain ⟨fuel, rfl⟩ : ∃ k, fuel = k + 1 := by
      rw [List.length_cons] at hfuel
      exact ⟨fuel - 1, by omega⟩
    unfold walkChain
    rw [hhead]
    dsimp only
    split
    · next hfull =>
      refine ⟨[], i :: rest, rfl, ?_, ?_, ?_⟩
      · rw [cut_nil, List.flatMap_nil, List.append_nil, List.head?_cons, ← hhead]
      · rw [cut_nil, List.head?_cons, ← hhead]
        exact h
      · rintro f hf
        cases hf
        rwa [List.flatMap_nil, List.append_nil]
    · have hrest : Threads (fun f => ((s.step1 i).fds f).nextReady) (s.step1 i).readyHead rest := by
        refine Seg.congr h.2 fun f hf => ?_
        rw [step1_of_ne]
        rintro rfl
        exact hi hf
      obtain ⟨pre, suf, hsplit, hwalk, hthreads, hfull⟩ :=
        ih (ready ++ (s.fds i).behind) hrest (Nat.le_of_succ_le_succ hfuel)
      have hipre : i ∉ pre := fun hm => hi (hsplit ▸ List.mem_append_left suf hm)
      have hbehind : pre.flatMap (fun f => ((s.step1 i).fds f).behind) =
          pre.flatMap fun f => (s.fds f).behind := by
        apply List.flatMap_congr
        intro f hf
        rw [step1_of_ne]
        rintro rfl
        exact hipre hf
      have hall : ready ++ (s.fds i).behind ++ pre.flatMap (fun f => (s.fds f).behind) =
          ready ++ (i :: pre).flatMap fun f => (s.fds f).behind := by
        rw [List.flatMap_cons, List.append_assoc]
      rw [cut_cons hipre] at hwalk hthreads
      rw [hbehind, hall] at hwalk hfull
      refine ⟨i :: pre, suf, by rw [hsplit]; rfl, hwalk, hthreads, ?_⟩
      intro f hf
      have hne : f ≠ i := by
        rintro rfl
        exact hi (hsplit ▸ List.mem_append_right pre (List.mem_of_mem_head? hf))
      have hlt := hfull f hf
      rwa [step1_of_ne hne] at hlt

/-! ### What a wait collects -/

namespace Placed

theorem behind_parked (h : s.Placed) {f : ℕ} {op : Slot} (hop : op ∈ (s.fds f).behind) :
    ∃ sd, s.place op = .parked f sd := by
  obtain ⟨sd, -, hmem⟩ := (DoorFd.mem_behind _).mp hop
  exact ⟨sd, h.listed f sd op hmem⟩

theorem behind_nodup (h : s.Placed) (f : ℕ) : (s.fds f).behind.Nodup := by
  have hside (c : Bool) (sd : Side) : (if c then (s.fds f).ops sd else []).Nodup := by
    split
    · exact h.once f sd
    · exact List.nodup_nil
  have hin (c : Bool) (sd : Side) : ∀ op ∈ (if c then (s.fds f).ops sd else []),
      s.place op = .parked f sd := by
    intro op hop
    split at hop
    · exact h.listed f sd op hop
    · cases hop
  refine List.Nodup.append (hside _ .input) (hside _ .output) ?_
  intro op hi ho
  have heq := (hin _ .input op hi).symm.trans (hin _ .output op ho)
  cases heq

/-- The ops behind different descriptors are different ones. -/
theorem flat_nodup (h : s.Placed) {pre : List ℕ} (hpre : pre.Nodup) :
    (pre.flatMap fun f => (s.fds f).behind).Nodup := by
  rw [List.nodup_flatMap]
  refine ⟨fun f _ => h.behind_nodup f, hpre.imp ?_⟩
  intro f g hne op hf hg
  obtain ⟨sd, hf⟩ := h.behind_parked hf
  obtain ⟨t, hg⟩ := h.behind_parked hg
  have heq := hf.symm.trans hg
  cases heq
  exact hne rfl

theorem done_length (h : s.Placed) : s.done.length ≤ s.opPoolN := by
  rw [← List.length_map (f := Prod.fst)]
  apply h.length_le h.backOnce
  intro op hop
  obtain ⟨d, hd, rfl⟩ := List.mem_map.mp hop
  rw [h.back d hd]
  exact OpPlace.noConfusion

theorem handed_eq (h : s.Placed) : s.handed = s.done.reverse := by
  apply List.take_of_length_le
  rw [List.length_reverse]
  exact h.done_length

/-- With the ops that came back, what is collected off the chain is not more than the pool. -/
theorem collected_length (h : s.Placed) {pre : List ℕ} (hpre : pre.Nodup) :
    s.done.length + (pre.flatMap fun f => (s.fds f).behind).length ≤ s.opPoolN := by
  have hback : ∀ op ∈ s.done.map Prod.fst, s.place op = .cameBack := by
    intro op hop
    obtain ⟨d, hd, rfl⟩ := List.mem_map.mp hop
    exact h.back d hd
  have hparked : ∀ op ∈ pre.flatMap (fun f => (s.fds f).behind), ∃ f sd, s.place op = .parked f sd := by
    intro op hop
    obtain ⟨f, -, hop⟩ := List.mem_flatMap.mp hop
    exact ⟨f, h.behind_parked hop⟩
  have hnd : (s.done.map Prod.fst ++ pre.flatMap fun f => (s.fds f).behind).Nodup := by
    refine List.Nodup.append h.backOnce (h.flat_nodup hpre) ?_
    intro op hd hr
    obtain ⟨f, sd, hr⟩ := hparked op hr
    rw [hback op hd] at hr
    cases hr
  have hlen := h.length_le hnd ?_
  · rwa [List.length_append, List.length_map] at hlen
  intro op hop hcore
  obtain hop | hop := List.mem_append.mp hop
  · rw [hback op hop] at hcore
    cases hcore
  · obtain ⟨f, sd, hop⟩ := hparked op hop
    rw [hop] at hcore
    cases hcore

end Placed

/-- The chain's descriptors are entries of the table. -/
theorem Chained.length_le {chain : List ℕ} (hc : s.Chained chain) (hp : s.Placed) :
    chain.length ≤ s.fdsN := by
  have hsub : chain ⊆ List.range s.fdsN := by
    intro f hf
    rw [List.mem_range]
    by_contra hge
    have hq := (hc.queued f).mp hf
    rw [hp.beyond f (by omega)] at hq
    cases hq
  have hlen := (List.subperm_of_subset (threads_nodup hc.threads) hsub).length_le
  rwa [List.length_range] at hlen

/-- The state behind the lock of a wait that took `pre` off the chain and left `suf`. -/
def collected (s : DspDoor) (pre suf : List ℕ) : DspDoor :=
  let ready := pre.flatMap fun f => (s.fds f).behind
  let room := s.opPoolN - s.done.length
  { s with
    done := []
    place := fun op => if op ∈ s.done.map Prod.fst then .core else s.place op
    fds := s.cut pre
    readyHead := suf.head?
    knocked := if suf = [] then false else s.knocked
    pc := if suf = [] then .finishing ready room else .leaving ready room }

theorem collect_spec {chain : List ℕ} (hp : s.Placed) (hc : s.Chained chain) :
    ∃ pre suf, chain = pre ++ suf ∧ s.collect = s.collected pre suf ∧
      Threads (fun f => (s.cut pre f).nextReady) suf.head? suf := by
  have hrest : s.done.take (s.done.length - s.opPoolN) = [] := by
    rw [Nat.sub_eq_zero_of_le hp.done_length]
    rfl
  have hplace : (fun op => if op ∈ s.done.reverse.map Prod.fst then OpPlace.core else s.place op) =
      fun op => if op ∈ s.done.map Prod.fst then .core else s.place op := by
    ext1 op
    simp only [List.map_reverse, List.mem_reverse]
  have hfuel := hc.length_le hp
  -- the lists and the chain are those of `s` when the walk starts
  have hwalk := walkChain_spec (s := { s with
    done := [], place := fun op => if op ∈ s.done.map Prod.fst then .core else s.place op }) []
    hc.threads hfuel
  obtain ⟨pre, suf, hsplit, hwalk, hthreads, -⟩ := hwalk
  unfold collect
  dsimp only
  rw [hp.handed_eq, hrest, hplace, List.length_reverse]
  by_cases hroom : 0 < s.opPoolN - s.done.length
  · refine ⟨pre, suf, hsplit, ?_, hthreads⟩
    rw [if_pos hroom, hwalk, List.nil_append]
    cases suf with
    | nil => rfl
    | cons f suf => rfl
  · refine ⟨[], chain, rfl, ?_, ?_⟩
    · rw [if_neg hroom]
      have hhead := hc.threads
      unfold collected
      rw [cut_nil]
      cases chain with
      | nil =>
        have hhead : s.readyHead = none := hhead
        simp [hhead]
      | cons f chain =>
        have hhead : s.readyHead = some f := hhead.1
        simp [hhead]
    · have hhead : chain.head? = s.readyHead := by
        have hthreads := hc.threads
        cases chain with
        | nil => exact hthreads.symm
        | cons f chain => exact hthreads.1.symm
      rw [cut_nil, hhead]
      exact hc.threads

/-! ### The invariant -/

/-- What holds at the door between any two steps. -/
structure Sound (s : DspDoor) : Prop where
  placed : s.Placed
  chained : ∃ chain, s.Chained chain
  knock : s.OneKnock
  roomy : s.Roomy

section Frames

/-- The flag goes up, and whoever put it up owes the signal. -/
theorem OneKnock.knock (h : s.OneKnock) (hk : s'.knocked = true)
    (hsum : s'.sem + s'.owed + s'.tokenTaken =
      s.sem + s.owed + s.tokenTaken + if s.knocked then 0 else 1) : s'.OneKnock := by
  refine ⟨?_, fun _ => hk⟩
  rw [hsum, h.token, hk]
  cases s.knocked <;> rfl

/-- Signals and tokens only change hands. -/
theorem OneKnock.passes (h : s.OneKnock) (hk : s'.knocked = s.knocked)
    (hsum : s'.sem + s'.owed + s'.tokenTaken = s.sem + s.owed + s.tokenTaken)
    (hhead : s'.readyHead = s.readyHead) (hdone : s'.done = s.done) : s'.OneKnock := by
  constructor
  · rw [hsum, hk]
    exact h.token
  · rw [hhead, hdone, hk]
    exact h.knocked

theorem Roomy.congr (h : s.Roomy) (hpc : s'.pc = s.pc)
    (hplace : ∀ op f sd, s.place op = .parked f sd → s'.place op = .parked f sd) : s'.Roomy := by
  intro ready room hready
  rw [hpc] at hready
  obtain ⟨hnd, hparked, hlen⟩ := h ready room hready
  refine ⟨hnd, fun op hop => ?_, hlen⟩
  obtain ⟨f, sd, hp⟩ := hparked op hop
  exact ⟨f, sd, hplace op f sd hp⟩

/-- Away from a pass there is nothing to retry. -/
theorem Roomy.idle (hl : ∀ ready room, s.pc ≠ .leaving ready room)
    (hf : ∀ ready room, s.pc ≠ .finishing ready room) : s.Roomy := by
  rintro ready room (h | h)
  · exact absurd h (hl ready room)
  · exact absurd h (hf ready room)

/-- Whatever leaves the links and the marks of the chain alone. -/
theorem Chained.congr {chain : List ℕ} (h : s.Chained chain)
    (hnext : ∀ f, (s'.fds f).nextReady = (s.fds f).nextReady)
    (hqueued : ∀ f, (s'.fds f).reg.queued = (s.fds f).reg.queued)
    (hhead : s'.readyHead = s.readyHead) : s'.Chained chain := by
  constructor
  · rw [hhead]
    exact Seg.congr h.threads fun f _ => hnext f
  · intro f
    rw [hqueued]
    exact h.queued f

end Frames

/-- An op goes to a side, or leaves one, and nothing else moves. -/
structure Reparks (s s' : DspDoor) (op : Slot) : Prop where
  rest : s' = { s with fds := s'.fds, fdsN := s'.fdsN, place := s'.place }
  nextReady : ∀ f, (s'.fds f).nextReady = (s.fds f).nextReady
  queued : ∀ f, (s'.fds f).reg.queued = (s.fds f).reg.queued
  hit : ∀ f sd, (s'.fds f).reg.hit sd = (s.fds f).reg.hit sd
  place : ∀ x, x ≠ op → s'.place x = s.place x
  placed : s'.Placed

theorem Reparks.trans {s'' : DspDoor} {op : Slot} (h : s.Reparks s' op) (h' : s'.Reparks s'' op) :
    s.Reparks s'' op where
  rest := by
    rw [h'.rest, h.rest]
  nextReady f := (h'.nextReady f).trans (h.nextReady f)
  queued f := (h'.queued f).trans (h.queued f)
  hit f sd := (h'.hit f sd).trans (h.hit f sd)
  place x hx := (h'.place x hx).trans (h.place x hx)
  placed := h'.placed

/-- One side of one entry gets another list, and one op another place. -/
theorem Placed.reparks (h : s.Placed) {op : Slot} {fd : ℕ} {side : Side} {ops : List Slot}
    {p : OpPlace} {reg : DspReg} (hfd : fd < s.fdsN)
    (hin : ∀ x ∈ ops, x ≠ op → x ∈ (s.fds fd).ops side) (hop : op ∈ ops → p = .parked fd side)
    (hnd : ops.Nodup) (hpool : p ≠ .core → op < s.opPoolN) (hback : s.place op ≠ .cameBack)
    (hgone : ∀ f sd, (f, sd) ≠ (fd, side) → op ∉ (s.fds f).ops sd)
    (hqueued : reg.queued = (s.fds fd).reg.queued) (hhit : ∀ sd, reg.hit sd = (s.fds fd).reg.hit sd) :
    s.Reparks ((s.setFd fd { (s.fds fd).setOps side ops with reg := reg }).setPlace op p) op := by
  have hfds (f : ℕ) : ((s.setFd fd { (s.fds fd).setOps side ops with reg := reg }).setPlace op p).fds f =
      if f = fd then { (s.fds fd).setOps side ops with reg := reg } else s.fds f := rfl
  have hplace (x : Slot) : ((s.setFd fd { (s.fds fd).setOps side ops with reg := reg }).setPlace op
      p).place x = if x = op then p else s.place x := rfl
  have hlist (f : ℕ) (sd : Side) :
      (((s.setFd fd { (s.fds fd).setOps side ops with reg := reg }).setPlace op p).fds f).ops sd =
        if (f, sd) = (fd, side) then ops else (s.fds f).ops sd := by
    rw [hfds]
    by_cases hf : f = fd
    · rw [if_pos hf, DoorFd.setOps_with_reg_ops]
      by_cases hsd : sd = side
      · rw [if_pos hsd, if_pos (by rw [hf, hsd])]
      · rw [if_neg hsd, if_neg fun heq => hsd (congrArg Prod.snd heq), hf]
    · rw [if_neg hf, if_neg fun heq => hf (congrArg Prod.fst heq)]
  refine ⟨rfl, ?_, ?_, ?_, ?_, ?_⟩
  · intro f
    rw [hfds]
    split
    · next hf => simp [hf]
    · rfl
  · intro f
    rw [hfds]
    split
    · next hf => rw [hf, ← hqueued]
    · rfl
  · intro f sd
    rw [hfds]
    split
    · next hf => rw [hf, ← hhit]
    · rfl
  · intro x hx
    rw [hplace, if_neg hx]
  · constructor
    · intro f hf
      rw [hfds, if_neg]
      · exact h.beyond f hf
      rintro rfl
      exact absurd hfd (Nat.not_lt.mpr hf)
    · intro f sd x hx
      rw [hlist] at hx
      rw [hplace]
      by_cases hfs : (f, sd) = (fd, side)
      · rw [if_pos hfs] at hx
        cases hfs
        by_cases hxo : x = op
        · rw [if_pos hxo]
          exact hop (hxo ▸ hx)
        · rw [if_neg hxo]
          exact h.listed _ _ x (hin x hx hxo)
      · rw [if_neg hfs] at hx
        rw [if_neg]
        · exact h.listed f sd x hx
        rintro rfl
        exact hgone f sd hfs hx
    · intro f sd
      rw [hlist]
      split
      · exact hnd
      · exact h.once f sd
    · intro x hx
      rw [hplace] at hx
      by_cases hxo : x = op
      · rw [if_pos hxo] at hx
        rw [hxo]
        exact hpool hx
      · rw [if_neg hxo] at hx
        exact h.pool x hx
    · intro d hd
      rw [hplace, if_neg]
      · exact h.back d hd
      intro hdop
      exact hback (hdop ▸ h.back d hd)
    · exact h.backOnce

theorem Reparks.refl (h : s.Placed) (op : Slot) : s.Reparks s op :=
  ⟨rfl, fun _ => rfl, fun _ => rfl, fun _ _ => rfl, fun _ _ => rfl, h⟩

theorem slot_reparks (h : s.Placed) {fd : ℕ} {grown : Bool} (hs : s.slot fd grown = some s') (op : Slot) :
    s.Reparks s' op ∧ fd < s'.fdsN ∧ s'.place = s.place ∧ s'.fds = s.fds ∧ s'.opPoolN = s.opPoolN := by
  obtain ⟨hle, hlt, heq⟩ := h.slot hs
  have hfds : s'.fds = s.fds := by rw [heq]
  have hplace : s'.place = s.place := by rw [heq]
  have hn : s'.opPoolN = s.opPoolN := by rw [heq]
  have hdone : s'.done = s.done := by rw [heq]
  have hplaced : s'.Placed := by
    refine h.congr hn (fun f sd => by rw [hfds]) (fun f hf => ?_) hplace hdone
    rw [hfds]
    exact h.beyond f (hle.trans hf)
  refine ⟨⟨?_, ?_, ?_, ?_, ?_, hplaced⟩, hlt, hplace, hfds, hn⟩
  · rw [heq]
  all_goals
    intros
    simp only [hfds, hplace]

theorem setPlace_own (s : DspDoor) (op : Slot) : s.setPlace op (s.place op) = s := by
  have hplace : (fun x => if x = op then s.place op else s.place x) = s.place := by
    ext1 x
    split
    · next hx => rw [hx]
    · rfl
  unfold setPlace
  rw [hplace]

theorem arm_reparks (h : s.Placed) {op : Slot} (hop : s.place op = .core) (hn : op < s.opPoolN)
    (fd : ℕ) (side : Side) (grown started : Bool) :
    s.Reparks (s.arm op fd side grown started).1 op := by
  unfold arm
  cases hslot : s.slot fd grown with
  | none => exact Reparks.refl h op
  | some s₁ =>
    obtain ⟨hslot, hlt, hplace, hfds, hpool⟩ := slot_reparks h hslot op
    have hp := hslot.placed
    have hcore : s₁.place op = .core := hplace ▸ hop
    have hback : s₁.place op ≠ .cameBack := by simp [hcore]
    have hnowhere (f : ℕ) (sd : Side) : op ∉ (s₁.fds f).ops sd := by
      intro hin
      rw [hp.listed f sd op hin] at hcore
      cases hcore
    have hjoins (l : List Slot) (hl : ∀ x ∈ l, x ∈ (s₁.fds fd).ops side) (hnd : l.Nodup) (reg : DspReg)
        (hqueued : reg.queued = (s₁.fds fd).reg.queued)
        (hhit : ∀ sd, reg.hit sd = (s₁.fds fd).reg.hit sd) :
        s.Reparks ((s₁.setFd fd { (s₁.fds fd).setOps side (op :: l) with reg := reg }).setPlace op
          (.parked fd side)) op := by
      refine hslot.trans (Placed.reparks hp hlt ?_ (fun _ => rfl) ?_ (fun _ => hpool ▸ hn) hback
        (fun f sd _ => hnowhere f sd) hqueued hhit)
      · intro x hx hne
        exact hl x ((List.mem_cons.mp hx).resolve_left hne)
      · exact List.nodup_cons.mpr ⟨fun hin => hnowhere fd side (hl op hin), hnd⟩
    dsimp only
    split
    · have hr := hjoins _ (fun x hx => hx) (hp.once fd side) _ rfl (fun _ => rfl)
      rwa [DoorFd.setOps_with_own_reg] at hr
    split
    · have hr := hjoins [] (fun x hx => absurd hx List.not_mem_nil) List.nodup_nil
        ((s₁.fds fd).reg.setSource side true) (by simp) (by simp)
      rwa [← DoorFd.with_reg_setOps] at hr
    · have hr : s₁.Reparks ((s₁.setFd fd { (s₁.fds fd).setOps side ((s₁.fds fd).ops side) with
          reg := (s₁.fds fd).reg.setSource side false }).setPlace op .core) op :=
        Placed.reparks hp hlt (fun x hx _ => hx) (fun hin => absurd hin (hnowhere fd side))
          (hp.once fd side) (fun hne => absurd rfl hne) hback (fun f sd _ => hnowhere f sd)
          (by simp) (by simp)
      rw [DoorFd.setOps_own] at hr
      have hown := setPlace_own (s₁.setFd fd
        { s₁.fds fd with reg := (s₁.fds fd).reg.setSource side false }) op
      have hcore' : (s₁.setFd fd { s₁.fds fd with
          reg := (s₁.fds fd).reg.setSource side false }).place op = .core := hcore
      rw [hcore'] at hown
      rw [hown] at hr
      exact hslot.trans hr

theorem disarm_reparks (h : s.Placed) {op : Slot} {fd : ℕ} {side : Side}
    (hop : s.place op = .parked fd side) :
    s.Reparks (s.disarm op fd side) op ∧ (s.disarm op fd side).place op = .core := by
  unfold disarm
  cases hslot : s.slot fd true with
  | none =>
    unfold slot at hslot
    split at hslot <;> cases hslot
  | some s₁ =>
    obtain ⟨hslot, hlt, hplace, hfds, hpool⟩ := slot_reparks h hslot op
    have hp := hslot.placed
    have hparked : s₁.place op = .parked fd side := hplace ▸ hop
    have hleaves (reg : DspReg) (hqueued : reg.queued = (s₁.fds fd).reg.queued)
        (hhit : ∀ sd, reg.hit sd = (s₁.fds fd).reg.hit sd) :
        s.Reparks ((s₁.setFd fd { (s₁.fds fd).setOps side (((s₁.fds fd).ops side).erase op) with
          reg := reg }).setPlace op .core) op := by
      refine hslot.trans (Placed.reparks hp hlt ?_ ?_ ?_ (fun hne => absurd rfl hne) ?_ ?_ hqueued hhit)
      · intro x hx _
        exact List.mem_of_mem_erase hx
      · intro hin
        exact absurd hin (List.Nodup.not_mem_erase (hp.once fd side))
      · exact (hp.once fd side).erase op
      · simp [hparked]
      · intro f sd hne hin
        have heq := (hp.listed f sd op hin).symm.trans hparked
        cases heq
        exact hne rfl
    dsimp only
    refine ⟨?_, if_pos rfl⟩
    rw [DoorFd.setOps_reg]
    split
    · exact hleaves _ (by simp) (by simp)
    · exact hleaves _ rfl (fun _ => rfl)

/-! ### Every step keeps it -/

theorem Sound.reparks {op : Slot} (h : s.Sound) (hr : s.Reparks s' op)
    (hready : ∀ ready room, s.pc = .leaving ready room ∨ s.pc = .finishing ready room → op ∉ ready) :
    s'.Sound := by
  obtain ⟨chain, hchain⟩ := h.chained
  have hpc : s'.pc = s.pc := by rw [hr.rest]
  have hhead : s'.readyHead = s.readyHead := by rw [hr.rest]
  refine ⟨hr.placed, ⟨chain, hchain.congr hr.nextReady hr.queued hhead⟩, ?_, ?_⟩
  · apply h.knock.passes
    · rw [hr.rest]
    · rw [hr.rest]
      rfl
    · exact hhead
    · rw [hr.rest]
  · intro ready room hpass
    rw [hpc] at hpass
    obtain ⟨hnd, hparked, hlen⟩ := h.roomy ready room hpass
    refine ⟨hnd, fun x hx => ?_, hlen⟩
    have hne : x ≠ op := by
      rintro rfl
      exact hready ready room hpass hx
    rw [hr.place x hne]
    exact hparked x hx

/-- The hit noted, and the descriptor on the chain. -/
def noted (s : DspDoor) (fd : ℕ) (side : Side) : DspDoor :=
  let e := s.fds fd
  if e.reg.queued then s.setFd fd { e with reg := e.reg.setHit side }
  else
    { s.setFd fd { e with
        reg := { e.reg.setHit side with queued := true }, nextReady := s.readyHead } with
      readyHead := some fd }

theorem noted_rest (s : DspDoor) (fd : ℕ) (side : Side) :
    s.noted fd side = { s with
      fds := (s.noted fd side).fds, readyHead := (s.noted fd side).readyHead } := by
  unfold noted
  dsimp only
  split <;> rfl

theorem setHit_queued (reg : DspReg) (side : Side) : (reg.setHit side).queued = reg.queued := by
  cases side <;> rfl

theorem setHit_hit (reg : DspReg) (side sd : Side) (h : reg.hit sd = true) :
    (reg.setHit side).hit sd = true := by
  cases side <;> cases sd <;> first | exact h | rfl

theorem report_eq {fd : ℕ} (hfd : fd < s.fdsN) (side : Side) :
    s.report fd side = ({ s.noted fd side with knocked := true }, !s.knocked) := by
  unfold DspDoor.report
  rw [if_pos hfd]
  dsimp only
  rw [knockLocked_eq]
  unfold noted
  dsimp only
  rw [setHit_queued]
  split <;> rfl

theorem noted_fds (s : DspDoor) (fd : ℕ) (side : Side) (f : ℕ) :
    ((s.noted fd side).fds f).ops = (s.fds f).ops ∧
      (f ≠ fd → (s.noted fd side).fds f = s.fds f) ∧
      ∀ sd, (s.fds f).reg.hit sd = true → ((s.noted fd side).fds f).reg.hit sd = true := by
  by_cases hf : f = fd
  · subst hf
    unfold noted setFd
    dsimp only
    split
    · dsimp only
      rw [if_pos rfl]
      refine ⟨?_, fun hne => absurd rfl hne, fun sd hsd => setHit_hit _ _ _ hsd⟩
      ext1 sd
      exact DoorFd.ops_with_reg _ _ _
    · dsimp only
      rw [if_pos rfl]
      refine ⟨?_, fun hne => absurd rfl hne, fun sd hsd => ?_⟩
      · ext1 sd
        cases sd <;> rfl
      · have hhit := setHit_hit (s.fds f).reg side sd hsd
        cases sd <;> exact hhit
  · have heq : (s.noted fd side).fds f = s.fds f := by
      unfold noted setFd
      dsimp only
      split <;> exact if_neg hf
    rw [heq]
    exact ⟨rfl, fun _ => rfl, fun _ hsd => hsd⟩

/-- The descriptor gets on the front of the chain unless it is on it. -/
theorem Chained.noted {chain : List ℕ} (h : s.Chained chain) (fd : ℕ) (side : Side) :
    ∃ chain, (s.noted fd side).Chained chain := by
  by_cases hq : (s.fds fd).reg.queued = true
  · refine ⟨chain, h.congr (fun f => ?_) (fun f => ?_) ?_⟩
    all_goals
      unfold DspDoor.noted setFd
      dsimp only
      rw [if_pos hq]
    · dsimp only
      split
      · next hf => rw [hf]
      · rfl
    · dsimp only
      split
      · next hf => rw [hf, setHit_queued]
      · rfl
  · have hnot : fd ∉ chain := fun hin => hq ((h.queued fd).mp hin)
    have hother (f : ℕ) (hf : f ≠ fd) := (noted_fds s fd side f).2.1 hf
    have hself : (s.noted fd side).readyHead = some fd ∧
        ((s.noted fd side).fds fd).nextReady = s.readyHead ∧
        ((s.noted fd side).fds fd).reg.queued = true := by
      unfold DspDoor.noted setFd
      dsimp only
      rw [if_neg hq]
      dsimp only
      rw [if_pos rfl]
      exact ⟨rfl, rfl, rfl⟩
    obtain ⟨hhead, hnext, hqueued⟩ := hself
    refine ⟨fd :: chain, ⟨hhead, ?_⟩, ?_⟩
    · show Seg _ ((s.noted fd side).fds fd).nextReady chain none
      rw [hnext]
      refine Seg.congr h.threads fun f hf => ?_
      rw [hother f]
      rintro rfl
      exact hnot hf
    · intro f
      by_cases hf : f = fd
      · rw [hf, hqueued]
        simp
      · rw [hother f hf, ← h.queued f]
        simp [hf]

theorem Sound.report (h : s.Sound) (hidle : s.handler = none) (fd : ℕ) (side : Side) :
    Sound { (s.report fd side).1 with handler := some (s.report fd side).2 } := by
  obtain ⟨chain, hchain⟩ := h.chained
  by_cases hfd : fd < s.fdsN
  · rw [report_eq hfd]
    have hfds := noted_fds s fd side
    have hrest := noted_rest s fd side
    obtain ⟨chain', hchain'⟩ := hchain.noted fd side
    have hplace : (s.noted fd side).place = s.place := by rw [hrest]
    have hn : (s.noted fd side).fdsN = s.fdsN := by rw [hrest]
    have hpc : (s.noted fd side).pc = s.pc := by rw [hrest]
    refine ⟨?_, ⟨chain', hchain'.congr (fun _ => rfl) (fun _ => rfl) rfl⟩, ?_, ?_⟩
    · refine h.placed.congr ?_ (fun f sd => congrFun (hfds f).1 sd) ?_ hplace ?_
      · rw [hrest]
      · intro f hf
        have hf : s.fdsN ≤ f := hn ▸ hf
        have hne : f ≠ fd := by omega
        exact ((hfds f).2.1 hne).trans (h.placed.beyond f hf)
      · rw [hrest]
    · apply h.knock.knock rfl
      rw [hrest]
      unfold owed tokenTaken
      dsimp only
      rw [hidle]
      cases s.knocked with
      | false =>
        simp
        omega
      | true => simp
    · refine h.roomy.congr hpc fun op f sd hp => ?_
      show (s.noted fd side).place op = _
      rw [hplace]
      exact hp
  · unfold DspDoor.report
    rw [if_neg hfd]
    have hquiet : OneKnock { s with handler := some false } := by
      refine h.knock.passes rfl ?_ rfl rfl
      unfold owed tokenTaken
      dsimp only
      rw [hidle]
      rfl
    exact ⟨h.placed.congr rfl (fun _ _ => rfl) h.placed.beyond rfl rfl,
      ⟨chain, hchain.congr (fun _ => rfl) (fun _ => rfl) rfl⟩, hquiet,
      h.roomy.congr rfl (fun _ _ _ hp => hp)⟩

/-- There is room in `done[]` for an op that comes back. -/
theorem Placed.done_room (h : s.Placed) {op : Slot} (hop : s.place op = .onQueue) :
    s.done.length < s.opPoolN := by
  have hnot : op ∉ s.done.map Prod.fst := by
    intro hin
    obtain ⟨d, hd, rfl⟩ := List.mem_map.mp hin
    rw [h.back d hd] at hop
    cases hop
  have hlen := h.length_le (List.nodup_cons.mpr ⟨hnot, h.backOnce⟩) ?_
  · rw [List.length_cons, List.length_map] at hlen
    exact hlen
  intro x hx hcore
  obtain rfl | hx := List.mem_cons.mp hx
  · rw [hop] at hcore
    cases hcore
  · obtain ⟨d, hd, rfl⟩ := List.mem_map.mp hx
    rw [h.back d hd] at hcore
    cases hcore

theorem finished_eq (h : s.Placed) {op : Slot} (hop : s.place op = .onQueue) (res : Int32) :
    s.finished op res = ({ s.setPlace op .cameBack with
      done := s.done ++ [(op, res)], knocked := true }, !s.knocked) := by
  unfold DspDoor.finished
  rw [if_pos (h.done_room hop)]
  dsimp only
  rw [knockLocked_eq]
  rfl

theorem Sound.finished (h : s.Sound) {op : Slot} (hop : s.place op = .onQueue) (res : Int32) :
    Sound { (s.finished op res).1 with
      doneOwes := if (s.finished op res).2 then s.doneOwes + 1 else s.doneOwes } := by
  obtain ⟨chain, hchain⟩ := h.chained
  rw [finished_eq h.placed hop]
  have hplace (x : Slot) (hx : x ≠ op) : (s.setPlace op .cameBack).place x = s.place x := if_neg hx
  have hself : (s.setPlace op .cameBack).place op = .cameBack := if_pos rfl
  refine ⟨?_, ⟨chain, hchain.congr (fun _ => rfl) (fun _ => rfl) rfl⟩, ?_, ?_⟩
  · refine ⟨h.placed.beyond, ?_, h.placed.once, ?_, ?_, ?_⟩
    · intro f sd x hx
      have hxp := h.placed.listed f sd x hx
      refine (hplace x ?_).trans hxp
      rintro rfl
      rw [hop] at hxp
      cases hxp
    · intro x hx
      by_cases hxo : x = op
      · apply h.placed.pool
        rw [hxo, hop]
        exact OpPlace.noConfusion
      · exact h.placed.pool x (hplace x hxo ▸ hx)
    · intro d hd
      obtain hd | hd := List.mem_append.mp hd
      · refine (hplace d.1 ?_).trans (h.placed.back d hd)
        intro hdop
        have hback := h.placed.back d hd
        rw [hdop, hop] at hback
        cases hback
      · rw [List.mem_singleton.mp hd]
        exact hself
    · show ((s.done ++ [(op, res)]).map Prod.fst).Nodup
      rw [List.map_append]
      refine List.Nodup.append h.placed.backOnce (List.nodup_singleton _) ?_
      intro x hx hxo
      obtain ⟨d, hd, rfl⟩ := List.mem_map.mp hx
      have hback := h.placed.back d hd
      rw [List.mem_singleton.mp hxo, hop] at hback
      cases hback
  · apply h.knock.knock rfl
    unfold owed tokenTaken
    cases s.knocked with
    | false =>
      simp [setPlace]
      omega
    | true => simp [setPlace]
  · refine h.roomy.congr rfl fun x f sd hx => (hplace x ?_).trans hx
    rintro rfl
    rw [hop] at hx
    cases hx

theorem forget_fds (s : DspDoor) (fd f : ℕ) : (s.forget fd).fds f =
    if fd < s.fdsN ∧ f = fd then
      { s.fds fd with reg := { queued := (s.fds fd).reg.queued }, inOps := [], outOps := [] }
    else s.fds f := by
  unfold DspDoor.forget setFd
  by_cases hfd : fd < s.fdsN
  · by_cases hf : f = fd <;> simp [hfd, hf]
  · simp [hfd]

theorem forget_rest (s : DspDoor) (fd : ℕ) : s.forget fd = { s with fds := (s.forget fd).fds } := by
  unfold DspDoor.forget
  split <;> rfl

theorem Sound.forget (h : s.Sound) (fd : ℕ) : (s.forget fd).Sound := by
  obtain ⟨chain, hchain⟩ := h.chained
  have hrest := forget_rest s fd
  have hplace : (s.forget fd).place = s.place := by rw [hrest]
  have hsub (f : ℕ) (sd : Side) : ((s.forget fd).fds f).ops sd = (s.fds f).ops sd ∨
      ((s.forget fd).fds f).ops sd = [] := by
    rw [forget_fds]
    split
    · cases sd <;> exact .inr rfl
    · exact .inl rfl
  refine ⟨?_, ⟨chain, ?_⟩, ?_, ?_⟩
  · constructor
    · intro f hf
      have hf : s.fdsN ≤ f := by
        rw [hrest] at hf
        exact hf
      rw [forget_fds, if_neg]
      · exact h.placed.beyond f hf
      · omega
    · intro f sd op hop
      rw [hplace]
      obtain heq | heq := hsub f sd
      · exact h.placed.listed f sd op (heq ▸ hop)
      · rw [heq] at hop
        cases hop
    · intro f sd
      obtain heq | heq := hsub f sd
      · rw [heq]
        exact h.placed.once f sd
      · rw [heq]
        exact List.nodup_nil
    · rw [hrest]
      exact h.placed.pool
    · rw [hrest]
      exact h.placed.back
    · rw [hrest]
      exact h.placed.backOnce
  · refine hchain.congr (fun f => ?_) (fun f => ?_) (by rw [hrest])
    all_goals
      rw [forget_fds]
      split
      · next hf => rw [hf.2]
      · rfl
  · refine h.knock.passes (by rw [hrest]) ?_ (by rw [hrest]) (by rw [hrest])
    rw [hrest]
    rfl
  · refine h.roomy.congr (by rw [hrest]) fun op f sd hop => ?_
    rw [hplace]
    exact hop

theorem cut_ops (s : DspDoor) (pre : List ℕ) (f : ℕ) (sd : Side) :
    (s.cut pre f).ops sd = (s.fds f).ops sd := by
  unfold cut
  split
  · cases sd <;> rfl
  · rfl

theorem collected_place (h : s.Placed) {pre suf : List ℕ} {x : Slot} {f : ℕ} {sd : Side}
    (hx : s.place x = .parked f sd) : (s.collected pre suf).place x = .parked f sd := by
  show (if x ∈ s.done.map Prod.fst then OpPlace.core else s.place x) = _
  rw [if_neg]
  · exact hx
  intro hin
  obtain ⟨d, hd, rfl⟩ := List.mem_map.mp hin
  rw [h.back d hd] at hx
  cases hx

theorem Placed.collected (h : s.Placed) {pre suf : List ℕ}
    (hpre : ∀ f ∈ pre, (s.fds f).reg.queued = true) : (s.collected pre suf).Placed := by
  constructor
  · intro f hf
    show s.cut pre f = {}
    unfold cut
    rw [if_neg]
    · exact h.beyond f hf
    intro hin
    have hq := hpre f hin
    rw [h.beyond f hf] at hq
    cases hq
  · intro f sd op hop
    have hop : op ∈ (s.cut pre f).ops sd := hop
    rw [cut_ops] at hop
    exact collected_place h (h.listed f sd op hop)
  · intro f sd
    show ((s.cut pre f).ops sd).Nodup
    rw [cut_ops]
    exact h.once f sd
  · intro op hop
    apply h.pool op
    intro hcore
    apply hop
    show (if op ∈ s.done.map Prod.fst then OpPlace.core else s.place op) = .core
    rw [hcore]
    exact ite_self _
  · intro d hd
    exact absurd hd List.not_mem_nil
  · exact List.nodup_nil

theorem Chained.collected {pre suf : List ℕ} (h : s.Chained (pre ++ suf))
    (hthreads : Threads (fun f => (s.cut pre f).nextReady) suf.head? suf) :
    (s.collected pre suf).Chained suf := by
  refine ⟨hthreads, fun f => ?_⟩
  show _ ↔ (s.cut pre f).reg.queued = true
  have hdisj : f ∈ pre → f ∉ suf := fun hp hs =>
    (List.nodup_append.mp (threads_nodup h.threads)).2.2 f hp f hs rfl
  have hq := h.queued f
  rw [List.mem_append] at hq
  unfold cut
  by_cases hp : f ∈ pre
  · rw [if_pos hp]
    simp [hdisj hp, DspReg.answered]
  · rw [if_neg hp, ← hq]
    simp [hp]

theorem OneKnock.collected (h : s.OneKnock) (hpc : s.pc = .synced) (pre suf : List ℕ) :
    (s.collected pre suf).OneKnock := by
  have htoken := h.token
  unfold owed tokenTaken at htoken
  rw [hpc] at htoken
  dsimp only at htoken
  have hk : s.knocked = true := by
    by_contra hk
    rw [if_neg hk] at htoken
    omega
  rw [if_pos hk] at htoken
  -- the token is the one there is
  have hzero : s.sem = 0 ∧ (s.handler.getD false).toNat = 0 ∧ s.doneOwes = 0 ∧ s.pokeOwes = 0 := by omega
  unfold DspDoor.collected
  constructor
  · unfold owed tokenTaken
    cases suf with
    | nil => simp [hzero]
    | cons f suf => simp [hk, hzero]
  · rintro (hhead | hdone)
    · cases suf with
      | nil => exact absurd rfl hhead
      | cons f suf => exact hk
    · exact absurd rfl hdone

theorem Roomy.collected (hp : s.Placed) {pre suf : List ℕ} (hpre : pre.Nodup) :
    (s.collected pre suf).Roomy := by
  have hroom := hp.collected_length hpre
  intro ready room hpass
  have hready : ready = (pre.flatMap fun f => (s.fds f).behind) ∧
      room = s.opPoolN - s.done.length := by
    unfold DspDoor.collected at hpass
    cases suf with
    | nil =>
      simp at hpass
      exact ⟨hpass.1.symm, hpass.2.symm⟩
    | cons f suf =>
      simp at hpass
      exact ⟨hpass.1.symm, hpass.2.symm⟩
  obtain ⟨rfl, rfl⟩ := hready
  refine ⟨hp.flat_nodup hpre, fun op hop => ?_, by omega⟩
  obtain ⟨f, -, hop⟩ := List.mem_flatMap.mp hop
  obtain ⟨sd, hop⟩ := hp.behind_parked hop
  exact ⟨f, sd, collected_place hp hop⟩

theorem Sound.collect (h : s.Sound) (hpc : s.pc = .synced) : s.collect.Sound := by
  obtain ⟨chain, hchain⟩ := h.chained
  obtain ⟨pre, suf, rfl, heq, hthreads⟩ := collect_spec h.placed hchain
  have hpre : pre.Nodup := (List.nodup_append.mp (threads_nodup hchain.threads)).1
  rw [heq]
  refine ⟨?_, ⟨suf, hchain.collected hthreads⟩, h.knock.collected hpc pre suf,
    Roomy.collected h.placed hpre⟩
  apply h.placed.collected
  intro f hf
  exact (hchain.queued f).mp (List.mem_append_left suf hf)

/-- The rest of a pass, with room for it. -/
theorem Sound.finishing (h : s.Sound) {old : List Slot} {k : ℕ} (hpc : s.pc = .finishing old k)
    {ready : List Slot} {room : ℕ} (hnd : ready.Nodup)
    (hparked : ∀ op ∈ ready, ∃ f sd, s.place op = .parked f sd) (hlen : ready.length ≤ room) :
    Sound { s with pc := .finishing ready room } := by
  obtain ⟨chain, hchain⟩ := h.chained
  refine ⟨h.placed.congr rfl (fun _ _ => rfl) h.placed.beyond rfl rfl,
    ⟨chain, hchain.congr (fun _ => rfl) (fun _ => rfl) rfl⟩, ?_, ?_⟩
  · refine h.knock.passes rfl ?_ rfl rfl
    unfold owed tokenTaken
    rw [hpc]
  · rintro ready' room' (hpass | hpass)
    · cases hpass
    · cases hpass
      exact ⟨hnd, hparked, hlen⟩

/-- A retried op leaves its side, and may be parked again; the others wait for their turn. -/
theorem retry_reparks (h : s.Placed) {op : Slot} {ready : List Slot} {room : ℕ}
    {again : Option (Side × Bool × Bool)} (hs : s.retry op ready room again = some s') :
    ∃ s₁ room', s.Reparks s₁ op ∧ s' = { s₁ with pc := .finishing ready room' } ∧ room - 1 ≤ room' := by
  unfold DspDoor.retry at hs
  split at hs
  · next fd side hop =>
    obtain ⟨hleft, hcore⟩ := disarm_reparks h hop
    have hn : op < (s.disarm op fd side).opPoolN := by
      rw [hleft.rest]
      apply h.pool
      rw [hop]
      exact OpPlace.noConfusion
    cases again with
    | none =>
      cases hs
      exact ⟨_, _, hleft, rfl, Nat.le_refl _⟩
    | some answers =>
      obtain ⟨side', grown, started⟩ := answers
      have harmed := hleft.trans (arm_reparks hleft.placed hcore hn fd side' grown started)
      dsimp only at hs
      split at hs
      · next he =>
        rw [he] at harmed
        cases hs
        exact ⟨_, _, harmed, rfl, Nat.sub_le _ _⟩
      · next he =>
        rw [he] at harmed
        cases hs
        exact ⟨_, _, harmed, rfl, Nat.le_refl _⟩
  · cases hs

theorem Sound.retry {op : Slot} {ready : List Slot} {room : ℕ} {again : Option (Side × Bool × Bool)}
    (h : s.Sound) (hpc : s.pc = .finishing (op :: ready) room)
    (hs : s.retry op ready room again = some s') : s'.Sound := by
  obtain ⟨hnd, hparked, hlen⟩ := h.roomy _ _ (.inr hpc)
  obtain ⟨hop, hnd⟩ := List.nodup_cons.mp hnd
  rw [List.length_cons] at hlen
  obtain ⟨s₁, room', hr, rfl, hroom⟩ := retry_reparks h.placed hs
  -- the pass goes on with the others first, so that the op can move
  have hrest : Sound { s with pc := .finishing ready room' } :=
    h.finishing hpc hnd (fun x hx => hparked x (List.mem_cons_of_mem op hx)) (by omega)
  have hr' : Reparks { s with pc := .finishing ready room' } { s₁ with pc := .finishing ready room' } op := by
    have hplaced : Placed { s₁ with pc := .finishing ready room' } :=
      hr.placed.congr rfl (fun _ _ => rfl) hr.placed.beyond rfl rfl
    refine ⟨?_, hr.nextReady, hr.queued, hr.hit, hr.place, hplaced⟩
    rw [hr.rest]
  refine hrest.reparks hr' ?_
  rintro ready' room'' (hpass | hpass)
  · cases hpass
  · cases hpass
    exact hop

/-- A step of the submitter's or of a signal that touches neither the table nor the ops. -/
theorem Sound.counts (h : s.Sound) (hrest : s' = { s with
      sem := s'.sem, handler := s'.handler, doneOwes := s'.doneOwes, pokeOwes := s'.pokeOwes, pc := s'.pc })
    (hsum : s'.sem + s'.owed + s'.tokenTaken = s.sem + s.owed + s.tokenTaken) (hroomy : s'.Roomy) :
    s'.Sound := by
  obtain ⟨chain, hchain⟩ := h.chained
  have hfds : s'.fds = s.fds := by rw [hrest]
  have hhead : s'.readyHead = s.readyHead := by rw [hrest]
  refine ⟨?_, ⟨chain, hchain.congr (fun f => by rw [hfds]) (fun f => by rw [hfds]) hhead⟩, ?_, hroomy⟩
  · apply h.placed.congr
    · rw [hrest]
    · intro f sd
      rw [hfds]
    · rw [hrest]
      exact h.placed.beyond
    · rw [hrest]
    · rw [hrest]
  · apply h.knock.passes
    · rw [hrest]
    · exact hsum
    · exact hhead
    · rw [hrest]

theorem atHand_iff {op : Slot} :
    s.atHand op = true ↔ s.pc = .elsewhere ∧ op < s.opPoolN ∧ s.place op = .core := by
  unfold atHand
  simp [and_assoc]

/-- An op goes out on a queue. -/
theorem Sound.submit (h : s.Sound) {op : Slot} (hn : op < s.opPoolN) (hop : s.place op = .core) :
    (s.setPlace op .onQueue).Sound := by
  obtain ⟨chain, hchain⟩ := h.chained
  have hplace {x : Slot} {p : OpPlace} (hx : s.place x = p) (hp : p ≠ .core) :
      (s.setPlace op .onQueue).place x = p := by
    refine (if_neg ?_).trans hx
    rintro rfl
    exact hp (hx.symm.trans hop)
  refine ⟨⟨h.placed.beyond, ?_, h.placed.once, ?_, ?_, h.placed.backOnce⟩,
    ⟨chain, hchain.congr (fun _ => rfl) (fun _ => rfl) rfl⟩, h.knock.passes rfl rfl rfl rfl,
    h.roomy.congr rfl fun x f sd hx => hplace hx OpPlace.noConfusion⟩
  · intro f sd x hx
    exact hplace (h.placed.listed f sd x hx) OpPlace.noConfusion
  · intro x hx
    by_cases hxo : x = op
    · exact hxo ▸ hn
    · exact h.placed.pool x fun hcore => hx ((if_neg hxo).trans hcore)
  · intro d hd
    exact hplace (h.placed.back d hd) OpPlace.noConfusion

theorem Sound.poke (h : s.Sound) :
    Sound { s with knocked := true, pokeOwes := if s.knocked then s.pokeOwes else s.pokeOwes + 1 } := by
  obtain ⟨chain, hchain⟩ := h.chained
  refine ⟨h.placed.congr rfl (fun _ _ => rfl) h.placed.beyond rfl rfl,
    ⟨chain, hchain.congr (fun _ => rfl) (fun _ => rfl) rfl⟩, ?_,
    h.roomy.congr rfl fun _ _ _ hp => hp⟩
  apply h.knock.knock rfl
  unfold owed tokenTaken
  cases s.knocked with
  | false =>
    simp
    omega
  | true => simp

theorem Sound.step (h : s.Sound) (hs : s.step l = some s') : s'.Sound := by
  cases l with
  | report fd side =>
    simp only [DspDoor.step] at hs
    split at hs
    · next hidle =>
      cases hs
      exact h.report hidle fd side
    · cases hs
  | handlerSignal =>
    simp only [DspDoor.step] at hs
    obtain ⟨knock, hk, rfl⟩ := Option.map_eq_some_iff.mp hs
    refine h.counts rfl ?_ (h.roomy.congr rfl fun _ _ _ hp => hp)
    unfold owed tokenTaken
    dsimp only
    rw [hk]
    cases knock with
    | false => rfl
    | true =>
      simp
      omega
  | submit op =>
    simp only [DspDoor.step] at hs
    split at hs <;> cases hs
    next hhand =>
    obtain ⟨-, hn, hop⟩ := atHand_iff.mp hhand
    exact h.submit hn hop
  | done op res =>
    simp only [DspDoor.step] at hs
    split at hs
    · next hop =>
      have hback := h.finished hop res
      rw [finished_eq h.placed hop] at hs hback
      cases hs
      exact hback
    · cases hs
  | doneSignal =>
    simp only [DspDoor.step] at hs
    split at hs <;> cases hs
    refine h.counts rfl ?_ (h.roomy.congr rfl fun _ _ _ hp => hp)
    unfold owed tokenTaken
    dsimp only
    omega
  | poke =>
    simp only [DspDoor.step, knockLocked_eq] at hs
    cases hs
    have hpoke := h.poke
    cases hk : s.knocked with
    | false =>
      rw [hk] at hpoke
      exact hpoke
    | true =>
      rw [hk] at hpoke
      exact hpoke
  | pokeSignal =>
    simp only [DspDoor.step] at hs
    split at hs <;> cases hs
    refine h.counts rfl ?_ (h.roomy.congr rfl fun _ _ _ hp => hp)
    unfold owed tokenTaken
    dsimp only
    omega
  | arm op fd side grown started =>
    simp only [DspDoor.step] at hs
    split at hs <;> cases hs
    next hhand =>
    obtain ⟨hpc, hn, hop⟩ := atHand_iff.mp hhand
    refine h.reparks (arm_reparks h.placed hop hn fd side grown started) ?_
    rintro ready room (hpass | hpass) <;> rw [hpc] at hpass <;> cases hpass
  | unpark op =>
    simp only [DspDoor.step] at hs
    split at hs
    · next fd side hop =>
      split at hs <;> cases hs
      next hpc =>
      refine h.reparks (disarm_reparks h.placed hop).1 ?_
      rintro ready room (hpass | hpass) <;> rw [hpc] at hpass <;> cases hpass
    · cases hs
  | forget fd =>
    simp only [DspDoor.step] at hs
    split at hs <;> cases hs
    exact h.forget fd
  | wait | timeout | barrier =>
    simp only [DspDoor.step] at hs
    split at hs <;> cases hs
    next hpc =>
    refine h.counts rfl ?_ (Roomy.idle (fun _ _ => DspPc.noConfusion) fun _ _ => DspPc.noConfusion)
    unfold owed tokenTaken
    simp [hpc]
  | take =>
    simp only [DspDoor.step] at hs
    split at hs <;> cases hs
    next hpc =>
    refine h.counts rfl ?_ (Roomy.idle (fun _ _ => DspPc.noConfusion) fun _ _ => DspPc.noConfusion)
    unfold owed tokenTaken
    rw [hpc.1]
    dsimp only
    omega
  | collect =>
    simp only [DspDoor.step] at hs
    split at hs <;> cases hs
    next hpc => exact h.collect hpc
  | keep =>
    simp only [DspDoor.step] at hs
    split at hs <;> cases hs
    next ready room hpc =>
    refine h.counts rfl ?_ ?_
    · unfold owed tokenTaken
      rw [hpc]
      dsimp only
      omega
    · rintro ready' room' (hpass | hpass)
      · cases hpass
      · cases hpass
        exact h.roomy _ _ (.inl hpc)
  | retry again =>
    simp only [DspDoor.step] at hs
    split at hs
    · next op ready room hpc =>
      split at hs
      · exact h.retry hpc hs
      · cases hs
    · cases hs
  | finish =>
    simp only [DspDoor.step] at hs
    split at hs
    · next ready room hpc =>
      split at hs <;> cases hs
      refine h.counts rfl ?_ (Roomy.idle (fun _ _ => DspPc.noConfusion) fun _ _ => DspPc.noConfusion)
      unfold owed tokenTaken
      rw [hpc]
    · cases hs

/-! ### What came back, and what was hit -/

/-- What a step does to `done[]` and to the hits. -/
inductive Does (s s' : DspDoor) : DspDoorLabel → Prop
  | rests {l : DspDoorLabel} (he : s.events l = []) (hd : s'.done = s.done)
      (hh : ∀ f sd, (s.fds f).reg.hit sd = true → (s'.fds f).reg.hit sd = true) : Does s s' l
  | comesBack {op : Slot} {res : Int32} (hd : s'.done = s.done ++ [(op, res)])
      (hh : s'.fds = s.fds) : Does s s' (.done op res)
  | forgets {fd : ℕ} (hd : s'.done = s.done) (hh : ∀ f, f ≠ fd → s'.fds f = s.fds f) :
      Does s s' (.forget fd)
  | collects (hpc : s.pc = .synced) (hs : s' = s.collect) : Does s s' .collect

theorem Reparks.does {op : Slot} (h : s.Reparks s' op) (he : s.events l = []) : s.Does s' l := by
  refine .rests he ?_ fun f sd hit => (h.hit f sd).trans hit
  rw [h.rest]

theorem step_does (h : s.Sound) (hs : s.step l = some s') : s.Does s' l := by
  cases l with
  | report fd side =>
    simp only [DspDoor.step] at hs
    split at hs <;> cases hs
    by_cases hfd : fd < s.fdsN
    · rw [report_eq hfd]
      refine .rests rfl ?_ fun f sd hit => (noted_fds s fd side f).2.2 sd hit
      show (s.noted fd side).done = s.done
      rw [noted_rest]
    · unfold DspDoor.report
      rw [if_neg hfd]
      exact .rests rfl rfl fun _ _ hit => hit
  | handlerSignal =>
    simp only [DspDoor.step] at hs
    obtain ⟨knock, -, rfl⟩ := Option.map_eq_some_iff.mp hs
    exact .rests rfl rfl fun _ _ hit => hit
  | done op res =>
    simp only [DspDoor.step] at hs
    split at hs
    · next hop =>
      rw [finished_eq h.placed hop] at hs
      cases hs
      exact .comesBack rfl rfl
    · cases hs
  | poke =>
    simp only [DspDoor.step, knockLocked_eq] at hs
    cases hs
    exact .rests rfl rfl fun _ _ hit => hit
  | arm op fd side grown started =>
    simp only [DspDoor.step] at hs
    split at hs <;> cases hs
    next hhand =>
    obtain ⟨-, hn, hop⟩ := atHand_iff.mp hhand
    exact (arm_reparks h.placed hop hn fd side grown started).does rfl
  | unpark op =>
    simp only [DspDoor.step] at hs
    split at hs
    · next fd side hop =>
      split at hs <;> cases hs
      exact (disarm_reparks h.placed hop).1.does rfl
    · cases hs
  | forget fd =>
    simp only [DspDoor.step] at hs
    split at hs <;> cases hs
    refine .forgets ?_ fun f hf => ?_
    · rw [forget_rest]
    · rw [forget_fds, if_neg fun hfd => hf hfd.2]
  | collect =>
    simp only [DspDoor.step] at hs
    split at hs <;> cases hs
    next hpc => exact .collects hpc rfl
  | retry again =>
    simp only [DspDoor.step] at hs
    split at hs
    · next op ready room hpc =>
      split at hs
      · obtain ⟨s₁, room', hr, rfl, -⟩ := retry_reparks h.placed hs
        refine .rests rfl ?_ fun f sd hit => (hr.hit f sd).trans hit
        show s₁.done = s.done
        rw [hr.rest]
      · cases hs
    · cases hs
  | submit op | doneSignal | pokeSignal | wait | timeout | take | barrier =>
    simp only [DspDoor.step] at hs
    split at hs <;> cases hs
    exact .rests rfl rfl fun _ _ hit => hit
  | keep | finish =>
    simp only [DspDoor.step] at hs
    repeat' split at hs
    all_goals cases hs
    exact .rests rfl rfl fun _ _ hit => hit

/-- The wait that goes from `s` to `s'` passes every waiter of the side on, each once and with room for
its answer. -/
def Hands (s s' : DspDoor) (f : ℕ) (sd : Side) : Prop :=
  ∃ ready room, (s'.pc = .leaving ready room ∨ s'.pc = .finishing ready room) ∧
    (∀ op ∈ (s.fds f).ops sd, op ∈ ready) ∧ ready.Nodup ∧ ready.length ≤ room ∧
      room + s.handed.length = s.opPoolN

theorem collect_hands (h : s.Sound) {f : ℕ} {sd : Side} (hit : (s.fds f).reg.hit sd = true)
    (hgone : (s.collect.fds f).reg.hit sd = false) : s.Hands s.collect f sd := by
  obtain ⟨chain, hchain⟩ := h.chained
  obtain ⟨pre, suf, rfl, heq, -⟩ := collect_spec h.placed hchain
  have hpre : pre.Nodup := (List.nodup_append.mp (threads_nodup hchain.threads)).1
  have hroom := h.placed.collected_length hpre
  have hf : f ∈ pre := by
    by_contra hf
    rw [heq] at hgone
    have hgone : (s.cut pre f).reg.hit sd = false := hgone
    unfold cut at hgone
    rw [if_neg hf, hit] at hgone
    cases hgone
  refine ⟨pre.flatMap fun f => (s.fds f).behind, s.opPoolN - s.done.length, ?_, ?_,
    h.placed.flat_nodup hpre, by omega, ?_⟩
  · rw [heq]
    unfold DspDoor.collected
    cases suf with
    | nil => exact .inr rfl
    | cons g suf => exact .inl rfl
  · intro op hop
    exact List.mem_flatMap.mpr ⟨f, hf, (DoorFd.mem_behind _).mpr ⟨sd, hit, hop⟩⟩
  · rw [h.placed.handed_eq, List.length_reverse]
    omega

/-- A hit goes with its descriptor, or with a wait that hands its side over. -/
theorem step_hit (h : s.Sound) (hs : s.step l = some s') {f : ℕ} {sd : Side}
    (hit : (s.fds f).reg.hit sd = true) (hgone : (s'.fds f).reg.hit sd = false) :
    l = .forget f ∨ (l = .collect ∧ s.Hands s' f sd) := by
  cases step_does h hs with
  | rests he hd hh =>
    rw [hh f sd hit] at hgone
    cases hgone
  | comesBack hd hh =>
    rw [hh, hit] at hgone
    cases hgone
  | forgets hd hh =>
    left
    by_contra hne
    rw [hh f fun hf => hne (by rw [hf]), hit] at hgone
    cases hgone
  | collects hpc heq =>
    subst heq
    exact .inr ⟨rfl, collect_hands h hit hgone⟩

end DspDoor

/-- The blocking ops that came back, and those that were put into `out`, with their results. -/
def finishedOps (tr : List DoorEvent) : List (Slot × Int32) :=
  tr.filterMap fun ev => match ev with
    | .finished d => some d
    | .handed _ => none

def handedOps (tr : List DoorEvent) : List (Slot × Int32) :=
  tr.filterMap fun ev => match ev with
    | .handed d => some d
    | .finished _ => none

/-- What came back was handed out, or is in `done[]`. -/
theorem handed_once {s s' : DspDoor} {l : DspDoorLabel} {tr : List DoorEvent} (h : s.Sound)
    (hs : s.step l = some s') (hp : (finishedOps tr).Perm (handedOps tr ++ s.done)) :
    (finishedOps (tr ++ s.events l)).Perm (handedOps (tr ++ s.events l) ++ s'.done) := by
  unfold finishedOps handedOps at hp ⊢
  rw [List.filterMap_append, List.filterMap_append]
  cases DspDoor.step_does h hs with
  | rests he hd hh =>
    rw [he, hd]
    simpa using hp
  | @comesBack op res hd hh =>
    have hmore := hp.append_right [(op, res)]
    rw [List.append_assoc] at hmore
    rw [hd]
    simpa [DspDoor.events] using hmore
  | forgets hd hh =>
    rw [hd]
    simpa [DspDoor.events] using hp
  | collects hpc heq =>
    obtain ⟨chain, hchain⟩ := h.chained
    obtain ⟨pre, suf, -, hcollect, -⟩ := DspDoor.collect_spec h.placed hchain
    have hdone : s'.done = [] := by
      rw [heq, hcollect]
      rfl
    have hfin : (s.handed.map DoorEvent.handed).filterMap (fun ev => match ev with
        | .finished d => some d
        | .handed _ => none) = [] := by
      simp [List.filterMap_map]
    have hhand : (s.handed.map DoorEvent.handed).filterMap (fun ev => match ev with
        | .handed d => some d
        | .finished _ => none) = s.handed := by
      simp [List.filterMap_map]
    show (_ ++ (s.handed.map DoorEvent.handed).filterMap _).Perm
      (_ ++ (s.handed.map DoorEvent.handed).filterMap _ ++ _)
    rw [hfin, hhand, hdone, List.append_nil, List.append_nil, h.placed.handed_eq]
    exact hp.trans (List.Perm.append_left _ (List.reverse_perm _).symm)

theorem setupDspDoor_sound (n : ℕ) : (setupDspDoor n).Sound := by
  have hnone (f : ℕ) (sd : Side) : ((setupDspDoor n).fds f).ops sd = [] := by cases sd <;> rfl
  refine ⟨⟨fun _ _ => rfl, ?_, ?_, fun op hop => absurd rfl hop, fun d hd => absurd hd List.not_mem_nil,
    List.nodup_nil⟩, ⟨[], rfl, fun f => by simp [setupDspDoor]⟩, ⟨rfl, ?_⟩,
    DspDoor.Roomy.idle (fun _ _ => DspPc.noConfusion) fun _ _ => DspPc.noConfusion⟩
  · intro f sd op hop
    rw [hnone] at hop
    cases hop
  · intro f sd
    rw [hnone]
    exact List.nodup_nil
  · rintro (hhead | hdone)
    · exact absurd rfl hhead
    · exact absurd rfl hdone

/-- What the door promises of a state that was reached over the events `tr`. -/
structure KnocksOnce (s : DspDoor) (tr : List DoorEvent) : Prop where
  token : s.sem + s.owed + s.tokenTaken = if s.knocked then 1 else 0
  knocked : s.readyHead ≠ none ∨ s.done ≠ [] → s.knocked = true
  chain : ∃ chain, Threads (fun f => (s.fds f).nextReady) s.readyHead chain ∧ chain.Nodup ∧
    ∀ f, f ∈ chain ↔ (s.fds f).reg.queued = true
  done : (finishedOps tr).Perm (handedOps tr ++ s.done)
  hits : ∀ l s', s.step l = some s' → ∀ f sd, (s.fds f).reg.hit sd = true →
    (s'.fds f).reg.hit sd = false → l = .forget f ∨ (l = .collect ∧ s.Hands s' f sd)
  answered : ∀ ready room, s.pc = .finishing ready room → s.step .finish ≠ none → ready = []

theorem door_knocks_once (n : ℕ) {tr : List DoorEvent} {s : DspDoor}
    (hr : Run dspDoorMachine (fun _ _ => True) (setupDspDoor n) tr s) : KnocksOnce s tr := by
  have h : s.Sound ∧ (finishedOps tr).Perm (handedOps tr ++ s.done) := by
    refine hr.invariant (fun tr s => s.Sound ∧ (finishedOps tr).Perm (handedOps tr ++ s.done)) ?_ ?_
    · exact ⟨setupDspDoor_sound n, List.Perm.refl _⟩
    · intro tr s l s' _ h _ hs
      exact ⟨h.1.step hs, handed_once h.1 hs h.2⟩
  obtain ⟨hsound, hdone⟩ := h
  obtain ⟨chain, hchain⟩ := hsound.chained
  refine ⟨hsound.knock.token, hsound.knock.knocked,
    ⟨chain, hchain.threads, threads_nodup hchain.threads, hchain.queued⟩, hdone,
    fun l s' hs f sd => DspDoor.step_hit hsound hs, ?_⟩
  intro ready room hpc hfinish
  have hlen := (hsound.roomy ready room (.inr hpc)).2.2
  simp only [DspDoor.step, hpc] at hfinish
  split at hfinish
  · next hend =>
    obtain hnil | rfl := hend
    · exact hnil
    · exact List.eq_nil_of_length_eq_zero (Nat.le_zero.mp hlen)
  · exact absurd rfl hfinish

/-- A report between a token taken and the lock: two hits for one knock, both handed over. -/
theorem door_knocks_once_two : ∃ tr s, Run dspDoorMachine (fun _ _ => True) (setupDspDoor 4) tr s ∧
    s.pc = .finishing [1, 0] 3 ∧ s.sem = 0 ∧ KnocksOnce s tr := by
  obtain ⟨tr, s, hr, hpc, hsem⟩ := Run.of_exec dspDoorMachine (fun _ _ => True) (setupDspDoor 4)
    (fun _ s => s.pc = .finishing [1, 0] 3 ∧ s.sem = 0)
    [.arm 0 5 .input true true, .arm 1 6 .output true true, .submit 2, .wait, .report 5 .input,
      .handlerSignal, .take, .report 6 .output, .done 2 7, .handlerSignal, .barrier, .collect]
    (by decide +kernel)
  exact ⟨tr, s, hr, hpc, hsem, door_knocks_once 4 hr⟩

end SlipstreamIO.Engine
