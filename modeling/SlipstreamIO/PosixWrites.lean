import SlipstreamIO.PosixMachine
import SlipstreamIO.IndexedBag

/-! What the backend writes into the ring: parking and unparking, handing an op to the worker, the
worker's queue and what a cancel takes out of it, and the turns of a try. -/
namespace SlipstreamIO.Engine

open ThreadedList Runs IndexedBag

/-- What the ring holds beside the fields the backend writes. -/
def Ring.core (r : Ring) : Ring :=
  { r with opPool := fun _ => {}, waiting := [], wqHead := none, wqTail := none, workerLive := false }

/-- Nothing changes but links and places, and these in the ops of `own` alone. -/
structure Ring.Relinks (own : Slot → Prop) (r r' : Ring) : Prop where
  others : ∀ x, ¬ own x → r'.opPool x = r.opPool x
  alike : ∀ x, r'.opPool x =
    { r.opPool x with next := (r'.opPool x).next, waitSlot := (r'.opPool x).waitSlot }
  core : r'.core = r.core

section Relinks
variable {own own' : Slot → Prop} {r r' r'' : Ring} {op x t : Slot} {links : List (Slot × Option Slot)}

theorem Ring.Relinks.refl (r : Ring) : Ring.Relinks own r r := ⟨fun _ _ => rfl, fun _ => rfl, rfl⟩

theorem Ring.Relinks.trans (h : Ring.Relinks own r r') (h' : Ring.Relinks own r' r'') :
    Ring.Relinks own r r'' where
  others x hx := (h'.others x hx).trans (h.others x hx)
  alike x := by rw [h'.alike x, h.alike x]
  core := h'.core.trans h.core

theorem Ring.Relinks.mono (h : Ring.Relinks own r r') (hown : ∀ x, own x → own' x) :
    Ring.Relinks own' r r' :=
  ⟨fun x hx => h.others x (fun ho => hx (hown x ho)), h.alike, h.core⟩

theorem relinks_setNext (r : Ring) (x : Slot) (p : Option Slot) (hx : own x) :
    Ring.Relinks own r (r.inVault (·.setNext x p)) where
  others y hy := by
    have hne : y ≠ x := by
      rintro rfl
      exact hy hx
    exact if_neg hne
  alike y := by
    simp only [Ring.inVault_toVault, Vault.setNext, Vault.setOp_opPool]
    split
    · next he => rw [he]
    · rfl
  core := rfl

theorem relinks_waitSlot (r : Ring) (x : Slot) (i : ℕ) (hx : own x) :
    Ring.Relinks own r (r.inVault (·.setOp x { r.opPool x with waitSlot := i })) where
  others y hy := by
    have hne : y ≠ x := by
      rintro rfl
      exact hy hx
    exact if_neg hne
  alike y := by
    simp only [Ring.inVault_toVault, Vault.setOp_opPool]
    split
    · next he => rw [he]
    · rfl
  core := rfl

/-- The backend's arm and disarm write links only, of the op and of the parked ones. -/
theorem relink_spec (r : Ring) (op : Slot) (links : List (Slot × Option Slot)) :
    Ring.Relinks (· ∈ op :: r.waiting) r (r.relink op links) ∧
      (r.relink op links).waiting = r.waiting ∧ (r.relink op links).wqHead = r.wqHead ∧
      (r.relink op links).wqTail = r.wqTail ∧
      ∀ x, ((r.relink op links).opPool x).waitSlot = (r.opPool x).waitSlot := by
  unfold Ring.relink
  have hmem : ∀ l ∈ links.filter (·.1 ∈ op :: r.waiting), l.1 ∈ op :: r.waiting := by
    intro l hl
    simpa using (List.mem_filter.mp hl).2
  generalize links.filter (·.1 ∈ op :: r.waiting) = writes at hmem
  generalize op :: r.waiting = parked at hmem
  induction writes generalizing r with
  | nil => exact ⟨.refl r, rfl, rfl, rfl, fun _ => rfl⟩
  | cons l writes ih =>
    obtain ⟨hlink, hw, hh, ht, hslot⟩ := ih (r.inVault (·.setNext l.1 l.2))
      (fun l' hl' => hmem l' (List.mem_cons_of_mem _ hl'))
    have hfirst : Ring.Relinks (· ∈ parked) r (r.inVault (·.setNext l.1 l.2)) :=
      relinks_setNext r l.1 l.2 (hmem l List.mem_cons_self)
    refine ⟨hfirst.trans hlink, hw, hh, ht, fun x => (hslot x).trans ?_⟩
    simp only [Ring.inVault_toVault, Vault.setNext, Vault.setOp_opPool]
    split
    · next he => rw [he]
    · rfl

/-- A park that succeeds puts the op at the end of `waiting[]`, and the op knows. -/
theorem park_spec {armed ok : Bool} (h : r.park op armed links = (r', ok)) :
    Ring.Relinks (· ∈ op :: r.waiting) r r' ∧ r'.wqHead = r.wqHead ∧ r'.wqTail = r.wqTail ∧
      r'.waiting = r.waiting ++ (if ok then [op] else []) ∧
      ∀ x, (r'.opPool x).waitSlot =
        if ok = true ∧ x = op then r.waiting.length else (r.opPool x).waitSlot := by
  obtain ⟨hlink, hw, hh, ht, hslot⟩ := relink_spec r op links
  unfold Ring.park at h
  split at h
  · cases h
    exact ⟨.refl r, rfl, rfl, by simp, by simp⟩
  dsimp only at h
  split at h <;> cases h
  · refine ⟨?_, hh, ht, by simp [hw], fun x => ?_⟩
    · have hset := relinks_waitSlot (r.relink op links) op (r.relink op links).waiting.length
        (show op ∈ op :: r.waiting from List.mem_cons_self)
      have hboth := hlink.trans hset
      exact ⟨hboth.others, hboth.alike, hboth.core⟩
    · simp only [Ring.inVault_toVault, Vault.setOp_opPool, true_and]
      split
      · rw [hw]
      · exact hslot x
  · refine ⟨hlink, hh, ht, by simp [hw], fun x => ?_⟩
    rw [hslot x]
    simp

/-- The parked ops know their places. -/
def Ring.Bagged (r : Ring) : Prop := Indexed r.waiting fun x => (r.opPool x).waitSlot

theorem park_bagged {armed ok : Bool} (hb : r.Bagged) (hop : op ∉ r.waiting)
    (h : r.park op armed links = (r', ok)) : r'.Bagged := by
  obtain ⟨-, -, -, hw, hslot⟩ := park_spec h
  unfold Ring.Bagged
  rw [hw]
  cases ok with
  | false =>
    simp only [Bool.false_eq_true, if_false, List.append_nil]
    intro i y hy
    show (r'.opPool y).waitSlot = i
    rw [hslot y]
    simpa using hb i y hy
  | true =>
    apply Indexed.push hb
    · simp [hslot]
    · intro y hy
      have hne : y ≠ op := by
        rintro rfl
        exact hop hy
      show (r'.opPool y).waitSlot = (r.opPool y).waitSlot
      rw [hslot y, if_neg (by simp [hne])]

/-- An unpark moves the last op to the place of the leaving one. -/
theorem unpark_spec (hb : r.Bagged) (hop : op ∈ r.waiting) (links : List (Slot × Option Slot)) :
    Ring.Relinks (· ∈ r.waiting) r (r.unpark op links) ∧
      (r.unpark op links).wqHead = r.wqHead ∧ (r.unpark op links).wqTail = r.wqTail ∧
      (r.unpark op links).waiting = swapRemove r.waiting (r.opPool op).waitSlot ∧
      (r.unpark op links).Bagged := by
  have hi := hb.mem_iff.mp hop
  obtain ⟨last, hlast⟩ : ∃ last, r.waiting.getLast? = some last :=
    ⟨_, List.getLast?_eq_some_getLast (List.ne_nil_of_mem hop)⟩
  have hleave : ReadyBackend.leaveWaiting r (r.opPool op).waitSlot =
      { r.inVault (·.setOp last { r.opPool last with waitSlot := (r.opPool op).waitSlot }) with
        waiting := swapRemove r.waiting (r.opPool op).waitSlot } := by
    unfold ReadyBackend.leaveWaiting
    rw [hlast]
  have hval : r.unpark op links =
      (ReadyBackend.leaveWaiting r (r.opPool op).waitSlot).relink op links := by
    unfold Ring.unpark
    dsimp only
    rw [if_neg (not_not.mpr hi)]
  obtain ⟨hlink, hw, hh, ht, hslot⟩ :=
    relink_spec (ReadyBackend.leaveWaiting r (r.opPool op).waitSlot) op links
  have hset := relinks_waitSlot r last (r.opPool op).waitSlot
    (show last ∈ r.waiting from List.mem_of_getLast? hlast)
  have hleft : Ring.Relinks (· ∈ r.waiting) r
      (ReadyBackend.leaveWaiting r (r.opPool op).waitSlot) := by
    rw [hleave]
    exact ⟨hset.others, hset.alike, hset.core⟩
  rw [hval]
  refine ⟨hleft.trans (hlink.mono fun x hx => ?_), ?_, ?_, ?_, ?_⟩
  · obtain rfl | hx := List.mem_cons.mp hx
    · exact hop
    · rw [hleave] at hx
      exact ((mem_swapRemove hb hi).mp hx).1
  · rw [hh, hleave]
    rfl
  · rw [ht, hleave]
    rfl
  · rw [hw, hleave]
  · have hleftw : (ReadyBackend.leaveWaiting r (r.opPool op).waitSlot).waiting =
        swapRemove r.waiting (r.opPool op).waitSlot := by rw [hleave]
    have hlefts (x : Slot) : ((ReadyBackend.leaveWaiting r (r.opPool op).waitSlot).opPool x).waitSlot =
        if x = last then (r.opPool op).waitSlot else (r.opPool x).waitSlot := by
      rw [hleave]
      simp only [Ring.inVault_toVault, Vault.setOp_opPool]
      split <;> rfl
    unfold Ring.Bagged
    rw [hw, hleftw]
    apply Indexed.swapRemove hb hlast
    · show (Vault.opPool _ last).waitSlot = _
      rw [hslot, hlefts, if_pos rfl]
    · intro y hy
      show (Vault.opPool _ y).waitSlot = _
      rw [hslot, hlefts, if_neg hy]

/-- The worker queue holds these ops. -/
def Ring.Queues (r : Ring) (wq : List Slot) : Prop := IsQueue r.next r.wqHead r.wqTail wq

theorem Ring.Queues.congr {wq : List Slot} (h : r.Queues wq) (hh : r'.wqHead = r.wqHead)
    (ht : r'.wqTail = r.wqTail) (hp : ∀ x ∈ wq, r'.opPool x = r.opPool x) : r'.Queues wq := by
  unfold Ring.Queues
  rw [hh, ht]
  apply IsQueue.congr h
  intro x hx
  rw [Vault.next, hp x hx]
  rfl

theorem workerPop_spec {wq : List Slot} (h : r.Queues (op :: wq)) :
    Ring.Relinks own r (r.workerPop op) ∧ (r.workerPop op).waiting = r.waiting ∧
      (r.workerPop op).Queues wq :=
  ⟨⟨fun _ _ => rfl, fun _ => rfl, rfl⟩, rfl, h.pop⟩

/-- Taking an op out of the worker queue from behind its cell. -/
theorem unlinkWq_spec {pre suf : List Slot} (h : r.Queues (pre ++ t :: suf))
    (hlen : (pre ++ suf).length ≤ r.opPoolN) :
    Ring.Relinks (· ∈ pre) r (r.unlinkWq (Link.after pre) t) ∧
      (r.unlinkWq (Link.after pre) t).waiting = r.waiting ∧
      (r.unlinkWq (Link.after pre) t).Queues (pre ++ suf) ∧
      ∀ x, ((r.unlinkWq (Link.after pre) t).opPool x).waitSlot = (r.opPool x).waitSlot := by
  have hlink : ∀ x, Link.after pre = .nextOf x → x ∈ pre := by
    intro x hx
    unfold Link.after at hx
    split at hx
    · cases hx
    · next hlast =>
      cases hx
      exact List.mem_of_getLast? hlast
  generalize hp : Link.after pre = p at hlink
  refine ⟨?_, ?_, ?_, ?_⟩
  · unfold Ring.unlinkWq
    cases p with
    | head =>
      dsimp only
      split <;> exact ⟨fun _ _ => rfl, fun _ => rfl, rfl⟩
    | nextOf x =>
      have hset := relinks_setNext r x (r.next t) (show x ∈ pre from hlink x rfl)
      dsimp only
      split
      · exact ⟨hset.others, hset.alike, hset.core⟩
      · exact hset
  · unfold Ring.unlinkWq
    cases p <;> (dsimp only; split <;> rfl)
  · have hnext (y : Slot) :
        (r.unlinkWq p t).next y = if p = .nextOf y then r.next t else r.next y := by
      unfold Ring.unlinkWq
      cases p <;> (dsimp only; split <;> simp [Ring.inVault, eq_comm])
    have hhead : (r.unlinkWq p t).wqHead = if p = .head then r.next t else r.wqHead := by
      unfold Ring.unlinkWq
      cases p <;> (dsimp only; split <;> rfl)
    have htail : (r.unlinkWq p t).wqTail = if r.wqTail = some t then
        walkLast (r.unlinkWq p t).next r.opPoolN (r.unlinkWq p t).wqHead none else r.wqTail := by
      unfold Ring.unlinkWq
      cases p <;> by_cases hlast : r.wqTail = some t <;> simp [hlast, Ring.inVault]
    apply IsQueue.unlink h _ _ _ _ r.opPoolN hlen
    · intro ht
      rw [htail, if_pos ht]
    · intro ht
      rw [htail, if_neg ht]
    · intro hph
      rw [hhead, if_pos (hp ▸ hph)]
    · intro hph
      rw [hhead, if_neg (hp ▸ hph)]
    · intro b hb
      rw [hnext, if_pos (hp ▸ hb)]
    · intro b hb
      rw [hnext, if_neg (hp ▸ hb)]
  · intro x
    unfold Ring.unlinkWq
    cases p with
    | head =>
      dsimp only
      split <;> rfl
    | nextOf y =>
      have hslot : ((r.inVault (·.setNext y (r.next t))).opPool x).waitSlot = (r.opPool x).waitSlot := by
        simp only [Ring.inVault_toVault, Vault.setNext, Vault.setOp_opPool]
        split
        · next he => rw [he]
        · rfl
      dsimp only
      split <;> exact hslot

/-- The op goes behind the worker queue; a linked one is marked. -/
theorem handToWorker_spec {wq : List Slot} (h : r.Queues wq) (hop : op ∉ wq) (hnext : r.next op = none) :
    (r.slipPosixHandToWorker op).Queues (wq ++ [op]) ∧
      (r.slipPosixHandToWorker op).waiting = r.waiting ∧ (r.slipPosixHandToWorker op).core = r.core ∧
      (∀ x, x ∉ wq → x ≠ op → (r.slipPosixHandToWorker op).opPool x = r.opPool x) ∧
      ∀ x, (r.slipPosixHandToWorker op).opPool x = { r.opPool x with
        next := ((r.slipPosixHandToWorker op).opPool x).next
        stallsQueue := if x = op ∧ r.linked op = true then true else (r.opPool x).stallsQueue } := by
  generalize hm : (if r.linked op then r.inVault (·.setOp op { r.opPool op with stallsQueue := true })
    else r) = m
  have hpool (x : Slot) : m.opPool x = { r.opPool x with
      stallsQueue := if x = op ∧ r.linked op = true then true else (r.opPool x).stallsQueue } := by
    rw [← hm]
    by_cases hl : r.linked op = true
    · simp only [hl, if_true, and_true, Ring.inVault_toVault, Vault.setOp_opPool]
      by_cases hx : x = op
      · simp [hx]
      · simp [hx]
    · simp [hl]
  have hmnext (x : Slot) : m.next x = r.next x := by
    rw [Vault.next, hpool]
    rfl
  have hmrest : m.wqHead = r.wqHead ∧ m.wqTail = r.wqTail ∧ m.waiting = r.waiting ∧ m.core = r.core := by
    rw [← hm]
    split <;> exact ⟨rfl, rfl, rfl, rfl⟩
  obtain ⟨hmh, hmt, hmw, hmc⟩ := hmrest
  have hmq : m.Queues wq := by
    unfold Ring.Queues
    rw [hmh, hmt]
    exact IsQueue.congr h fun x _ => hmnext x
  have hone : IsQueue m.next (some op) (some op) [op] := ⟨⟨rfl, (hmnext op).trans hnext⟩, rfl⟩
  have hdisj : ∀ y ∈ wq, y ∉ [op] := by
    rintro y hy hyo
    rw [List.mem_singleton] at hyo
    exact hop (hyo ▸ hy)
  unfold Ring.slipPosixHandToWorker
  rw [hm]
  dsimp only
  cases htail : m.wqTail with
  | none =>
    refine ⟨?_, hmw, hmc, fun x _ hx => ?_, fun x => ?_⟩
    · refine IsQueue.append hmq hone hdisj (by simp) ?_ ?_ (fun y _ => rfl)
      · rw [htail]
        rfl
      · intro y hy
        rw [htail] at hy
        cases hy
    · show m.opPool x = r.opPool x
      rw [hpool, if_neg (by simp [hx])]
    · show m.opPool x = { r.opPool x with
        next := (m.opPool x).next
        stallsQueue := if x = op ∧ r.linked op = true then true else (r.opPool x).stallsQueue }
      rw [hpool]
  | some last =>
    have hlast : last ∈ wq := List.mem_of_getLast? (hmq.tail.symm.trans htail)
    have hset (x : Slot) : (m.inVault (·.setNext last (some op))).next x =
        if x = last then some op else m.next x := Vault.setNext_next _ _ _ _
    refine ⟨?_, hmw, ?_, fun x hx hxo => ?_, fun x => ?_⟩
    · refine IsQueue.append hmq hone hdisj (by simp) ?_ ?_ ?_
      · rw [htail]
        rfl
      · intro y hy
        cases htail.symm.trans hy
        exact (hset last).trans (if_pos rfl)
      · intro y hy
        apply (hset y).trans
        apply if_neg
        rintro rfl
        exact hy htail
    · exact hmc
    · have hne : x ≠ last := by
        rintro rfl
        exact hx hlast
      show (m.inVault (·.setNext last (some op))).opPool x = r.opPool x
      rw [Ring.inVault_toVault, Vault.setNext_opPool, Vault.setNext_next, if_neg hne, hpool,
        if_neg (by simp [hxo])]
      rw [Vault.next, hpool]
    · show (m.inVault (·.setNext last (some op))).opPool x = _
      rw [Ring.inVault_toVault, Vault.setNext_opPool, hpool]

/-- The walk of the worker queue from behind `pre` goes over ops the cancel does not name. -/
theorem scanWq_spec {c : Slot} {pre suf : List Slot} (h : r.Queues (pre ++ suf)) (fuel : ℕ)
    (hfuel : suf.length < fuel) :
    (r.scanWq c fuel (Link.after pre) = some none ∧
      ∀ x ∈ suf, cancelNames (r.opPool c).sqe (r.opPool x).sqe = false) ∨
    ∃ mid t suf', suf = mid ++ t :: suf' ∧
      r.scanWq c fuel (Link.after pre) = some (some (Link.after (pre ++ mid), t)) ∧
      (∀ x ∈ mid, cancelNames (r.opPool c).sqe (r.opPool x).sqe = false) ∧
      cancelNames (r.opPool c).sqe (r.opPool t).sqe = true := by
  induction suf generalizing pre fuel with
  | nil =>
    left
    rw [List.append_nil] at h
    cases fuel with
    | zero => cases hfuel
    | succ fuel =>
      rw [Ring.scanWq, h.threads.read_after]
      exact ⟨rfl, fun x hx => absurd hx List.not_mem_nil⟩
  | cons t suf ih =>
    cases fuel with
    | zero => cases hfuel
    | succ fuel =>
      obtain ⟨p, hpre, hp, -⟩ := seg_append.mp h.threads
      have hread : (Link.after pre).read r.next r.wqHead = some t := hpre.read_after.trans hp
      have hcons : pre ++ t :: suf = pre ++ [t] ++ suf := by simp
      rw [Ring.scanWq, hread]
      dsimp only
      by_cases hname : cancelNames (r.opPool c).sqe (r.opPool t).sqe = true
      · right
        rw [if_pos hname]
        exact ⟨[], t, suf, rfl, by simp, fun x hx => absurd hx List.not_mem_nil, hname⟩
      · rw [if_neg hname]
        rw [Bool.not_eq_true] at hname
        rw [hcons] at h
        have hrest := ih h fuel (by simpa using hfuel)
        rw [link_after_concat] at hrest
        obtain ⟨hscan, hall⟩ | ⟨mid, t', suf', rfl, hscan, hmid, ht'⟩ := hrest
        · left
          refine ⟨hscan, fun x hx => ?_⟩
          obtain rfl | hx := List.mem_cons.mp hx
          · exact hname
          · exact hall x hx
        · right
          refine ⟨t :: mid, t', suf', rfl, ?_, fun x hx => ?_, ht'⟩
          · rw [hscan]
            simp
          · obtain rfl | hx := List.mem_cons.mp hx
            · exact hname
            · exact hmid x hx

end Relinks

end SlipstreamIO.Engine
