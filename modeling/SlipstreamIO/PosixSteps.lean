import SlipstreamIO.PosixRefines

/-! Each step of the posix machine is a run of the core that keeps the contract, and leaves the backend
in order, unless the worker takes the op a CANCEL_ALL has its saved pointer in. -/
namespace SlipstreamIO.Engine

open ThreadedList Runs IndexedBag

variable {s s' : Posix} {wq : List Slot} {p : List PosixEvent × Posix} {b : BackPc} {op : Slot}

theorem Core.Sound.held_lt {c : Core} {x : Slot} (h : c.Sound) (hx : c.hands x = .held) :
    x < c.ring.opPoolN := by
  obtain ⟨a, free, backlog, queue, batch, -, hr⟩ := h
  exact (hr.placed.outside (show c.At (queue ++ batch) x .held from hx)).2.2

theorem Core.Sound.queue {c : Core} (h : c.Sound) :
    ∃ queue, Threads c.ring.next c.ring.queueHead queue ∧ queue.length ≤ c.ring.opPoolN := by
  obtain ⟨a, free, backlog, queue, batch, -, hr⟩ := h
  exact ⟨queue, hr.placed.queueList.threads, hr.placed.length_le.2.2⟩

theorem cell_after {pre suf : List Slot} :
    Link.after pre = .head ∨ ∃ x ∈ pre ++ suf, Link.after pre = .nextOf x := by
  obtain rfl | ⟨pre, x, rfl⟩ := List.eq_nil_or_concat pre
  · exact .inl rfl
  · right
    refine ⟨x, by simp, ?_⟩
    rw [List.concat_eq_append, link_after_concat]

/-- The pointer a cancel has saved into the worker queue. -/
def BackPc.pointer : BackPc → Link Slot
  | .cancelLock p _ | .cancelTaken p _ _ => p
  | _ => .head

namespace Posix.Inv

/-- What the backend holds has room in the pool. -/
theorem length_le (h : s.Inv wq) (hg : s.core.Sound) :
    (s.holders wq).length ≤ s.core.ring.opPoolN := by
  have hsub : s.holders wq ⊆ List.range s.core.ring.opPoolN := by
    intro x hx
    exact List.mem_range.mpr (hg.held_lt ((h.held x).mpr hx))
  have hlen := (List.subperm_of_subset h.nodup hsub).length_le
  rwa [List.length_range] at hlen

theorem wq_length_le (h : s.Inv wq) (hg : s.core.Sound) : wq.length ≤ s.core.ring.opPoolN := by
  have hlen := h.length_le hg
  simp only [holders, List.length_append] at hlen
  omega

/-- The cancel, the queue and what the backend holds are different slots of the pool. -/
theorem room (h : s.Inv wq) (hg : s.core.Sound) {c : Slot} (hc : s.core.pc.executing = some c) :
    s.Room wq 0 := by
  obtain ⟨a, free, backlog, queue, batch, -, hr⟩ := hg
  refine ⟨queue, hr.placed.queueList.threads, ?_⟩
  have hcount (x : Slot) : (c :: (queue ++ s.core.ring.waiting ++ wq)).count x ≤
      if x < s.core.ring.opPoolN then 1 else 0 := by
    have hplaces := hr.placed.places x
    have hheld := h.places x
    have hin : s.core.pc.inEnter.count x = [c].count x +
        (s.core.pc.posting.toList.map Prod.fst ++ s.core.pc.done.map Prod.fst).count x := by
      simp only [Pc.inEnter, hc, Option.toList_some, List.count_append]
      omega
    have hholds : (if s.core.hands x = .held then 1 else 0) ≤ s.core.holds x := by
      unfold Core.holds
      split
      · next hx => simp [hx]
      · omega
    simp only [holders, List.count_append] at hheld
    rw [← List.singleton_append]
    simp only [List.count_append]
    omega
  have hnd : (c :: (queue ++ s.core.ring.waiting ++ wq)).Nodup := by
    rw [List.nodup_iff_count_le_one]
    intro x
    have hx := hcount x
    split at hx <;> omega
  have hsub : c :: (queue ++ s.core.ring.waiting ++ wq) ⊆ List.range s.core.ring.opPoolN := by
    intro x hx
    have hpos := List.count_pos_iff.mpr hx
    have hle := hcount x
    rw [List.mem_range]
    split at hle <;> omega
  have hlen := (List.subperm_of_subset hnd hsub).length_le
  simp only [List.length_cons, List.length_append, List.length_range] at hlen
  omega

/-- The submitter goes on in the backend and touches no op. -/
theorem moves (h : s.Inv wq) (hc : s'.core = s.core) (hw : s'.worker = s.worker)
    (ha : s'.away = s.away) (hown : s'.back.own = s.back.own)
    (hunl : s'.back.unlinked = s.back.unlinked) (hfits : s'.Fits wq) : s'.Inv wq := by
  refine h.rest ?_ ?_ hw ha hown hunl (fun x _ _ => ?_) (fun x _ => ?_) ?_ ?_ hfits
  · rw [hc]
    exact .refl _
  · rw [hc]
  · rw [hc]
  · rw [hc]
  · rw [hc]
    exact h.live
  · rw [hc]
    exact h.alone

theorem walks (h : s.Inv wq) (hs : s'.quiet = some p) (hc : s'.core = s.core)
    (hw : s'.worker = s.worker) (ha : s'.away = s.away) (hown : s.back.own = [])
    (hown' : s'.back.own = []) (hfits : s'.Fits wq) : s.Goes p := by
  have hunl : s'.back.unlinked = s.back.unlinked := by
    rw [BackPc.unlinked_of_own hown, BackPc.unlinked_of_own hown']
  exact goes_quiet (h.moves hc hw ha (hown'.trans hown.symm) hunl hfits) hc hs

section Cancel
variable {c t : Slot} {count i : ℕ} {ptr : Link Slot} {links : List (Slot × Option Slot)} {reads : List ℕ}

/-- What a taken op leaves behind it: the search of a CANCEL_ALL goes on, any other is over. -/
theorem taken (h : s.Searched [] count) (hc : s.core.pc.executing = some c) {go : BackPc}
    (hs : s'.back = if cancelAll (s.core.ring.opPool c).sqe then go else .cancelAnswer (count + 1))
    (hpc : s'.core.pc = s.core.pc)
    (hsqe : (s'.core.ring.opPool c).sqe = (s.core.ring.opPool c).sqe) (hroom : s'.Room wq (count + 1))
    (hgo : cancelAll (s.core.ring.opPool c).sqe = true → s'.back = go → s'.Fits wq) : s'.Fits wq := by
  split at hs
  · next hall => exact hgo hall hs
  · next hone =>
    obtain ⟨c', hc', hcode, -, hzero⟩ := h
    cases hc.symm.trans hc'
    rw [Bool.not_eq_true] at hone
    unfold Fits
    rw [hs]
    refine ⟨hroom, .inr ⟨c, by rw [hpc, hc], by rw [hsqe, hcode], by rw [hsqe, hone], ?_⟩⟩
    obtain hall | rfl := hzero
    · cases hone.symm.trans hall
    · rfl

/-- The search of a CANCEL_ALL counts on. -/
theorem searched_next {l : List Slot} {count' : ℕ} (h : s.Searched l count)
    (hc : s.core.pc.executing = some c) (hall : cancelAll (s.core.ring.opPool c).sqe = true) :
    s.Searched l count' := by
  obtain ⟨c', hc', hcode, hnone, -⟩ := h
  cases hc.symm.trans hc'
  exact ⟨c, hc, hcode, hnone, .inl hall⟩

/-- A named op of `waiting[]` is unparked, and taken. -/
theorem cancels_waiting (h : s.Inv wq) (hg : s.core.Sound) (hback : s.back = .cancelWaiting i count)
    (hc : s.core.pc.executing = some c) (ht : s.core.ring.waiting[i]? = some t)
    (hs : (s.setRing (s.core.ring.unpark t links)).inCore (.cancelHeld t reads)
      (if cancelAll (s.core.ring.opPool c).sqe then .cancelWaiting i (count + 1)
        else .cancelAnswer (count + 1)) = some p) : s.Goes p := by
  have hfits := h.fits
  unfold Fits at hfits
  rw [hback] at hfits
  obtain ⟨hroom, hfits⟩ := hfits
  have hmem : t ∈ s.core.ring.waiting := List.mem_of_getElem? ht
  obtain ⟨hk, hholds⟩ := h.unparks (b := .retrying t []) hg (by rw [hback]; rfl) hmem links rfl rfl
  have hrun := setRing_run hk
  have hg' : (s.setRing (s.core.ring.unpark t links)).core.Sound := hg.run hrun
  have hslot : (s.core.ring.opPool t).waitSlot = i := h.bagged i t ht
  -- the swap has put another op at index `i`, and none in front of it
  have htake : (s.core.ring.unpark t links).waiting.take i = s.core.ring.waiting.take i := by
    rw [(unpark_spec h.bagged hmem links).2.2.2.1, hslot]
    exact take_swapRemove ht
  have hcancel : (s.setRing (s.core.ring.unpark t links)).core.cancelling := by
    obtain ⟨x, hx, hcode⟩ := hfits.cancelling
    refine ⟨x, hx, ?_⟩
    show ((s.core.ring.unpark t links).opPool x).sqe.opcode.cancels = true
    rw [hk.sqe]
    exact hcode
  have hgoes := hholds.cancels hg' rfl hcancel (by split <;> rfl) hs
    fun d hd hw hsqe hq hn => ?_
  · exact ⟨hrun.append hgoes.1, hgoes.2⟩
  have hsame (x : Slot) (hx : s.core.pc.executing = some x ∨ x ∈ s.core.ring.waiting.take i) :
      (d.ring.opPool x).sqe = (s.core.ring.opPool x).sqe := by
    rw [hsqe x]
    · exact hk.sqe x
    · refine hx.imp_right fun hx => List.mem_append_left _ ?_
      show x ∈ (s.core.ring.unpark t links).waiting
      rw [← htake] at hx
      exact List.mem_of_mem_take hx
  have hlen : (s.core.ring.unpark t links).waiting.length + 1 = s.core.ring.waiting.length := by
    rw [(unpark_spec h.bagged hmem links).2.2.2.1, hslot]
    exact length_swapRemove ht
  have hroom' {b : BackPc} : Room { s.setRing (s.core.ring.unpark t links) with core := d, back := b }
      wq (count + 1) := by
    obtain ⟨queue, hqueue, hlt⟩ := hroom
    refine ⟨queue, hq queue (hg.queue_write hk hqueue), ?_⟩
    show d.ring.waiting.length + queue.length + wq.length + (count + 1) < d.ring.opPoolN
    rw [hn, hw]
    show (s.core.ring.unpark t links).waiting.length + _ + _ + _ < (s.core.ring.unpark t links).opPoolN
    rw [hk.opPoolN]
    omega
  refine taken (hfits.mono fun _ hx => absurd hx List.not_mem_nil) hc rfl hd (hsame c (.inl hc)) hroom'
    fun hall hb => ?_
  dsimp only at hb
  unfold Fits
  dsimp only
  rw [hb, hw]
  refine ⟨hroom', ?_⟩
  dsimp only [setRing]
  rw [htake]
  exact (searched_next hfits hc hall).keep hd hsame

/-- A named op of the engine queue is unlinked, and taken. -/
theorem cancels_queued (h : s.Inv wq) (hg : s.core.Sound) (hback : s.back = .cancelQueue ptr count)
    (hc : s.core.pc.executing = some c)
    (hs : s.inCore (.cancelQueued ptr reads) (if cancelAll (s.core.ring.opPool c).sqe
      then .cancelQueue ptr (count + 1) else .cancelAnswer (count + 1)) = some p) : s.Goes p := by
  have hfits := h.fits
  unfold Fits at hfits
  rw [hback] at hfits
  obtain ⟨hroom, hsearched, queue, hqueue, hptr⟩ := hfits
  have hk : Keeps s.core (.cancelQueued ptr reads) := by
    obtain ⟨queue', hq, hlen⟩ := hg.queue
    obtain rfl := threads_unique hqueue hq
    refine ⟨?_, hsearched.cancelling⟩
    rw [walk_eq hq _ hlen]
    exact hptr
  refine ⟨inCore_run hk hs, wq, ?_⟩
  obtain ⟨d, hd, -, hp⟩ := inCore_eq hs
  have hothers (x : Slot) (hx : s.core.has x) : d.ring.opPool x = s.core.ring.opPool x := by
    apply hg.others hk hd _ hx
    · intro he
      cases he
    · intro r hr
      cases hr
  obtain ⟨a, free, backlog, queue', batch, -, hrep⟩ := hg
  have hlive := hrep.live_cancelQueued (marks_ofOp s wq) h.live hk hd
  have hn := core_step_opPoolN hk hd
  obtain ⟨t, pre, suf, _, _, _, rfl, rfl, rfl, -, -, -, hthreads⟩ := hrep.cancelQueued_spec hk hd
  have hroom' {b : BackPc} : Room { s with
      core := { s.core with ring := (s.core.ring.unlinkQueued (Link.after pre) t).cancelTarget t reads }
      back := b } wq (count + 1) := by
    obtain ⟨queue', hqueue', hlt⟩ := hroom
    obtain rfl := threads_unique hqueue' hrep.placed.queueList.threads
    refine ⟨pre ++ suf, hthreads, ?_⟩
    have hw := (unlinkQueued_sameBackend s.core.ring (Link.after pre) t).trans
      (cancelTarget_sameBackend _ t reads)
    have hcount : s.core.ring.waiting.length + (pre ++ suf).length + wq.length + (count + 1) <
        s.core.ring.opPoolN := by
      simp only [List.length_append, List.length_cons] at hlt ⊢
      omega
    rw [← hw.waiting, ← hn] at hcount
    exact hcount
  rw [hp]
  have hown : s.back.own = [] := by
    rw [hback]
    rfl
  have hsame (x : Slot) (hx : s.core.pc.executing = some x ∨ x ∈ s.core.ring.waiting) :
      ((((s.core.ring.unlinkQueued (Link.after pre) t).cancelTarget t reads).opPool x).sqe) =
        (s.core.ring.opPool x).sqe := by
    refine congrArg EngOp.sqe (hothers x (hx.symm.imp_left fun hw => ?_))
    simp [(h.held x).mpr (by simp [holders, hw])]
  have hsameBackend : s.core.ring.SameBackend
      ((s.core.ring.unlinkQueued (Link.after pre) t).cancelTarget t reads) :=
    (unlinkQueued_sameBackend _ _ _).trans (cancelTarget_sameBackend _ _ _)
  refine h.rest hsameBackend rfl rfl rfl ?_ ?_ (fun x hx _ => hothers x (.inl hx)) (fun x hx => ?_) hlive
    (fun x hx => ?_) ?_
  · rw [hown]
    dsimp only
    split <;> rfl
  · rw [BackPc.unlinked_of_own hown]
    dsimp only
    split <;> rfl
  · rw [hown] at hx
    exact absurd hx List.not_mem_nil
  · rw [Vault.next, hothers x (.inr hx)]
    exact h.alone x hx
  · refine taken (hsearched.mono fun _ hx => absurd hx List.not_mem_nil) hc rfl rfl (hsame c (.inl hc))
      hroom' fun hall hb => ?_
    dsimp only at hb
    unfold Fits
    dsimp only
    rw [hb]
    dsimp only
    rw [hsameBackend.waiting]
    exact ⟨hroom', (searched_next hsearched hc hall).keep rfl hsame, pre ++ suf, hthreads, cell_after⟩

/-- A named op of the worker queue is unlinked under the mutex, from behind the saved pointer. -/
theorem unlinks (h : s.Inv wq) (hg : s.core.Sound) (hback : s.back.own = []) {pre suf : List Slot}
    (hwq : wq = pre ++ t :: suf) (hsearched : s.Searched (s.core.ring.waiting ++ pre) count)
    (hname : s.Names t) (hroom : s.Room wq count) :
    s.Goes ([], { s.setRing (s.core.ring.unlinkWq (Link.after pre) t) with
      back := .cancelTaken (Link.after pre) t count }) := by
  have hlen := h.wq_length_le hg
  subst hwq
  obtain ⟨hlink, hwait, hqueues, hslot⟩ := unlinkWq_spec h.queues
    (by simp only [List.length_append, List.length_cons] at hlen ⊢; omega)
  generalize s.core.ring.unlinkWq (Link.after pre) t = r at hlink hwait hqueues hslot ⊢
  have hk : BackendWrites s.core r := by
    apply hlink.backend
    intro x hx
    exact .inl ((h.held x).mpr (by simp [holders, hx]))
  have halike (x : Slot) : (r.opPool x).stallsQueue = (s.core.ring.opPool x).stallsQueue ∧
      (r.opPool x).sqe = (s.core.ring.opPool x).sqe := by
    rw [hlink.alike x]
    exact ⟨rfl, rfl⟩
  refine ⟨setRing_run hk, pre ++ suf, ?_⟩
  refine ⟨⟨hqueues, ?_, fun x => ?_, h.off, ?_, ?_, ?_, fun x hx => ?_⟩, ?_, ?_, pre, suf, rfl, rfl, ?_⟩
  · intro i x hi
    rw [show (s.setRing r).core.ring.waiting = s.core.ring.waiting from hwait] at hi
    show (r.opPool x).waitSlot = i
    rw [hslot x]
    exact h.bagged i x hi
  · have hplace := h.places x
    simp only [holders, List.count_append, List.count_cons, hback, List.count_nil] at hplace
    show (holders _ _).count x = if s.core.hands x = .held then 1 else 0
    rw [← hplace]
    simp only [holders, List.count_append, List.count_cons, List.count_nil, setRing, BackPc.own, hwait]
    omega
  · refine h.known (fun x hx => ?_) fun x _ => halike x
    simp only [List.mem_append, List.mem_cons, setRing] at hx ⊢
    tauto
  · refine h.known_single (fun x hx => ?_) fun x _ => (halike x).2
    simp only [List.mem_append, List.mem_cons, List.not_mem_nil, setRing, BackPc.unlinked] at hx ⊢
    tauto
  · have hlive := hg.live_write h.live hk fun x _ hm => by
      rw [hlink.alike x]
      exact hm
    apply hlive.imp
    intro x o hm
    refine ⟨hm.1, fun hst => ?_⟩
    have hmm := hm.2 hst
    rw [BackPc.unlinked_of_own hback] at hmm
    simp only [List.mem_append, List.mem_cons, List.not_mem_nil, setRing, BackPc.unlinked] at hmm ⊢
    tauto
  · show r.next x = none
    rw [Vault.next, hlink.others x, ← h.alone x hx]
    · rfl
    · intro hxp
      have hheld : s.core.hands x = .held := (h.held x).mpr (by simp [holders, hxp])
      rw [hg.executing hx] at hheld
      cases hheld
  · obtain ⟨queue, hqueue, hlt⟩ := hroom
    refine ⟨queue, hg.queue_write hk hqueue, ?_⟩
    show r.waiting.length + queue.length + (pre ++ suf).length + (count + 1) < r.opPoolN
    rw [hwait, hk.opPoolN]
    simp only [List.length_append, List.length_cons] at hlt ⊢
    omega
  · obtain ⟨c, hc, hname⟩ := hname
    refine ⟨c, hc, ?_⟩
    show cancelNames (r.opPool c).sqe (r.opPool t).sqe = true
    rw [hk.sqe, hk.sqe]
    exact hname
  · show Searched _ (r.waiting ++ pre) count
    rw [hwait]
    exact hsearched.keep rfl fun x _ => hk.sqe x

theorem cancelStep (h : s.Inv wq) (hg : s.core.Sound) (hs : s.cancelStep links reads = some p) :
    s.Goes p := by
  have hfits := h.fits
  unfold Posix.cancelStep at hs
  split at hs
  · cases hs
  next c hc =>
  dsimp only at hs
  unfold Fits at hfits
  split at hs
  · -- the op is a cancel
    next hback =>
    split at hs
    · next hcode =>
      have hnone : s.Searched [] 0 := ⟨c, hc, hcode, fun _ hx => absurd hx List.not_mem_nil, .inr rfl⟩
      exact h.walks hs rfl rfl rfl (by rw [hback]; rfl) rfl ⟨h.room hg hc, hnone⟩
    · cases hs
  · next i count hback =>
    rw [hback] at hfits
    obtain ⟨hroom, hfits⟩ := hfits
    split at hs
    · next hi =>
      obtain ⟨queue, hq, -⟩ := hg.queue
      have hall : s.Searched (s.core.ring.waiting.take i) count := hfits
      rw [List.take_of_length_le (List.getElem?_eq_none_iff.mp hi)] at hall
      exact h.walks hs rfl rfl rfl (by rw [hback]; rfl) rfl ⟨hroom, hall, queue, hq, .inl rfl⟩
    · next t ht =>
      split at hs
      · exact h.cancels_waiting hg hback hc ht hs
      · next hname =>
        rw [Bool.not_eq_true] at hname
        refine h.walks hs rfl rfl rfl (by rw [hback]; rfl) rfl ⟨hroom, ?_⟩
        show s.Searched (s.core.ring.waiting.take (i + 1)) count
        rw [List.take_add_one, ht]
        exact hfits.append hc fun x hx => by rw [List.mem_singleton.mp hx, hname]
  · next ptr count hback =>
    rw [hback] at hfits
    obtain ⟨hroom, hsearched, queue, hqueue, hptr⟩ := hfits
    split at hs
    · refine h.walks hs rfl rfl rfl (by rw [hback]; rfl) rfl ⟨hroom, [], wq, rfl, rfl, ?_⟩
      exact hsearched.mono fun x hx => by simpa using hx
    · next t ht =>
      split at hs
      · exact h.cancels_queued hg hback hc hs
      · obtain ⟨pre, suf, rfl, -⟩ := hqueue.split_at_cell hptr ht
        exact h.walks hs rfl rfl rfl (by rw [hback]; rfl) rfl
          ⟨hroom, hsearched, _, hqueue, .inr ⟨t, by simp, rfl⟩⟩
  · next ptr count hback =>
    rw [hback] at hfits
    obtain ⟨hroom, pre, suf, rfl, rfl, hsearched⟩ := hfits
    have hlen := h.wq_length_le hg
    have hfuel : suf.length < s.core.ring.opPoolN + 1 := by
      rw [List.length_append] at hlen
      omega
    obtain ⟨hscan, hrest⟩ | ⟨mid, t, suf', rfl, hscan, hmid, hname⟩ :=
      scanWq_spec (c := c) h.queues _ hfuel
    · rw [hscan] at hs
      refine h.walks hs rfl rfl rfl (by rw [hback]; rfl) rfl ⟨hroom, .inl ?_⟩
      show s.Searched (s.core.ring.waiting ++ (pre ++ suf)) count
      rw [← List.append_assoc]
      exact hsearched.append hc hrest
    · rw [hscan] at hs
      cases hs
      have hwq : pre ++ (mid ++ t :: suf') = pre ++ mid ++ t :: suf' := by simp
      refine h.unlinks hg (by rw [hback]; rfl) hwq ?_ ⟨c, hc, hname⟩ hroom
      rw [← List.append_assoc]
      exact hsearched.append hc hmid
  · next ptr t count hback =>
    rw [hback] at hfits
    obtain ⟨hroom, -, pre, suf, hwq, rfl, hsearched⟩ := hfits
    have hown : s.back.own = [t] := by
      rw [hback]
      rfl
    refine h.cancels hg hown hsearched.cancelling (by split <;> rfl) hs
      fun d hd hw hsqe hq hn => ?_
    have hroom' {b : BackPc} : Room { s with core := d, back := b } wq (count + 1) :=
      hroom.keep hq (by rw [hw]) (Nat.le_refl _) hn
    refine taken (hsearched.mono fun _ hx => absurd hx List.not_mem_nil) hc rfl hd (hsqe c (.inl hc)) hroom'
      fun hall hb => ?_
    dsimp only at hb
    unfold Fits
    dsimp only
    rw [hb, hw]
    refine ⟨hroom', pre, suf, hwq, rfl, (searched_next hsearched hc hall).keep hd fun x hx => hsqe x ?_⟩
    refine hx.imp_right fun hx => ?_
    simp only [hwq, List.mem_append] at hx ⊢
    tauto
  · next count hback =>
    have hpc : ∃ f linked, s.core.pc = .exec f c linked false := by
      unfold Pc.executing at hc
      split at hc <;> cases hc
      exact ⟨_, _, by assumption⟩
    obtain ⟨f, linked, hpc⟩ := hpc
    obtain ⟨q, t, hq, ht, rfl⟩ := andThen_eq hs
    cases hq
    exact goes_after .start (h.execDone hpc (by rw [hback]; rfl) ht)
  · cases hs

end Cancel

section Wait
variable {ready : List Slot} {links : List (Slot × Option Slot)} {res : Int32}

theorem wake {reported : Bool} (h : s.Inv wq) (hs : s.wake reported ready = some p) : s.Goes p := by
  unfold Posix.wake at hs
  split at hs
  swap
  · cases hs
  next f forever hpc hback =>
  split at hs
  swap
  · cases hs
  next hready =>
  have hreadies : s.Readies ready := ⟨⟨f, forever, [], hpc⟩, hready⟩
  refine h.walks hs rfl rfl rfl (by rw [hback]; rfl) ?_ ?_
  · cases reported <;> rfl
  · cases reported <;> exact hreadies

theorem drain (h : s.Inv wq) (hs : s.drain = some p) : s.Goes p := by
  have hfits := h.fits
  unfold Posix.drain at hs
  unfold Fits at hfits
  split at hs
  swap
  · cases hs
  next ready hback =>
  rw [hback] at hfits
  obtain ⟨⟨got, pipe⟩, -, hs⟩ := Option.bind_eq_some_iff.mp hs
  dsimp only at hs
  refine h.walks hs rfl rfl rfl (by rw [hback]; rfl) ?_ ?_
  · split <;> rfl
  · split <;> exact hfits

/-- A ready op is unparked for its retry. -/
theorem nextReady (h : s.Inv wq) (hg : s.core.Sound) (hs : s.nextReady links = some p) : s.Goes p := by
  have hfits := h.fits
  unfold Posix.nextReady at hs
  unfold Fits at hfits
  split at hs
  swap
  · cases hs
  next f forever done op ready hpc hback =>
  rw [hback] at hfits
  obtain ⟨hwaits, hnd, hmem⟩ := hfits
  obtain ⟨hne, hnd⟩ := List.nodup_cons.mp hnd
  split at hs <;> cases hs
  have hop : op ∈ s.core.ring.waiting := hmem op List.mem_cons_self
  have hwaiting := (unpark_spec h.bagged hop links).2.2.2.1
  have hreadies : Readies (s.setRing (s.core.ring.unpark op links)) ready := by
    refine ⟨hwaits, hnd, fun x hx => ?_⟩
    show x ∈ (s.core.ring.unpark op links).waiting
    rw [hwaiting]
    apply (mem_swapRemove h.bagged (h.bagged.mem_iff.mp hop)).mpr
    refine ⟨hmem x (List.mem_cons_of_mem _ hx), ?_⟩
    rintro rfl
    exact hne hx
  obtain ⟨hk, hholds⟩ := h.unparks (b := .retrying op ready) hg (by rw [hback]; rfl) hop links rfl rfl
  exact ⟨setRing_run hk, wq, hholds, hreadies⟩

/-- The op in hand goes back to the engine with what it answered. -/
theorem handsBack (h : s.Inv wq) (hback : s.back = .retrying op ready)
    (hs : s.inCore (.handBack op res) (.finishing ready) = some p) : s.Goes p := by
  have hfits := h.fits
  unfold Fits at hfits
  rw [hback] at hfits
  obtain ⟨⟨f, forever, done, hpc⟩, hnd, hmem⟩ := hfits
  have hheld : s.core.hands op = .held := (h.held op).mpr (by simp [holders, hback, BackPc.own])
  refine ⟨inCore_run (show Keeps s.core (.handBack op res) from hheld) hs, wq, ?_⟩
  obtain ⟨c, hc, -, hp⟩ := inCore_eq hs
  simp only [Core.step, Core.handBack, hpc] at hc
  cases hc
  rw [hp]
  have hunl : s.back.unlinked = [] := by
    rw [hback]
    rfl
  have hsingle := h.single
  rw [hunl] at hsingle
  refine ⟨⟨h.queues, h.bagged, fun x => ?_, fun x r => ?_, h.marked, hsingle, ?_, fun x hx => ?_⟩,
    ⟨f, forever, _, rfl⟩, hnd, hmem⟩
  · have hplace := h.places x
    simp only [holders, List.count_append, hback, BackPc.own, Core.setHand] at hplace ⊢
    by_cases hx : x = op
    · subst hx
      simp only [hheld, List.count_singleton_self, if_true] at hplace
      simp only [List.count_nil, if_true, reduceCtorEq, if_false]
      omega
    · have hzero : [op].count x = 0 := List.count_eq_zero.mpr (by simpa using hx)
      simpa [hx, hzero] using hplace
  · show (s.core.setHand op .none).hands x = .off r ↔ _
    rw [← h.off x r]
    simp only [Core.setHand]
    split
    · next hx => simp [hx, hheld]
    · rfl
  · have hmarks := h.live
    unfold Marks at hmarks ⊢
    rw [hback] at hmarks
    exact hmarks
  · cases hx

/-- One turn of the try of a ready op. -/
theorem retry (h : s.Inv wq) (hg : s.core.Sound) {a : OsAnswer} {armed : Bool} {reads : List ℕ}
    (hs : s.retry a armed links reads = some p) : s.Goes p := by
  unfold Posix.retry at hs
  split at hs
  swap
  · cases hs
  next op ready hback =>
  obtain ⟨q, t, hq, ht, rfl⟩ := andThen_eq hs
  cases hq
  have hop : Tries s op := .inr (by simp [hback, BackPc.own])
  obtain ⟨r, hr, hwriting, hinv, -⟩ := h.turn hg hop a reads
  have hrun := hwriting.mono fun _ _ h => h.keeps
  have hg' : (s.setRing r).core.Sound := hg.run hrun
  have hback' : (s.setRing r).back = .retrying op ready := hback
  apply goes_after (by rw [hr]; exact hrun)
  rw [hr] at ht ⊢
  split at ht
  · exact goes_quiet hinv rfl ht
  · exact hinv.handsBack hback' ht
  · exact hinv.handsBack hback' ht
  · have hself : ∀ x ∈ (s.setRing r).back.own, x = op := by
      rw [hback']
      exact fun x hx => List.mem_singleton.mp hx
    have hheld : (s.setRing r).core.hands op = .held :=
      (hinv.held op).mpr (by simp [holders, hback', BackPc.own])
    have hpcw := hinv.fits
    unfold Fits at hpcw
    rw [hback'] at hpcw
    obtain ⟨hwaits, hnd, hmem⟩ := hpcw
    have hexec (x : Slot) : (s.setRing r).core.pc.executing ≠ some x := by
      obtain ⟨f, forever, done, hpc⟩ := hwaits
      rw [hpc]
      exact (Option.some_ne_none x).symm
    have hkeeps {r' : Ring} {ok : Bool} (hp : (s.setRing r).core.ring.park op armed links = (r', ok))
        (x : Slot) (hx : x ∈ ready) : x ∈ r'.waiting := by
      rw [(park_spec hp).2.2.2.1]
      exact List.mem_append_left _ (hmem x hx)
    dsimp only at ht
    split at ht
    · next r' hp =>
      cases ht
      have hk := hinv.park_writes hop hp
      refine ⟨setRing_run hk, wq, ?_⟩
      refine hinv.parks hg' hop hself hp rfl ⟨rfl, rfl, rfl, rfl⟩ rfl rfl rfl ?_ (fun x => ?_) (fun x hx => ?_)
        ⟨hwaits, hnd, hkeeps hp⟩
      · rw [hback']
        rfl
      · show (s.setRing r).core.hands x = _
        split
        · next hx =>
          rw [hx.2]
          exact hheld
        · rfl
      · exact absurd hx (hexec x)
    · next r' hp =>
      have hk := hinv.park_writes hop hp
      have hparked : ((s.setRing r).setRing r').Inv wq := by
        refine hinv.parks hg' hop hself hp rfl ⟨rfl, rfl, rfl, rfl⟩ rfl rfl rfl rfl (fun x => ?_)
          (fun x hx => ?_) ?_
        · simp [setRing]
        · exact absurd hx (hexec x)
        · unfold Fits
          rw [show ((s.setRing r).setRing r').back = .retrying op ready from hback]
          exact ⟨hwaits, hnd, hkeeps hp⟩
      have hdone := hparked.handsBack hback ht
      exact ⟨(setRing_run hk).append hdone.1, hdone.2⟩

/-- An op comes back from the backend's own place for it. -/
theorem cameBack (h : s.Inv wq) (hs : s.cameBack op res = some p) : s.Goes p := by
  have hfits := h.fits
  unfold Posix.cameBack at hs
  unfold Fits at hfits
  split at hs
  swap
  · cases hs
  next ready hback =>
  rw [hback] at hfits
  split at hs
  swap
  · cases hs
  next haway =>
  have hinhand : Posix.Inv { s with away := s.away.erase op, back := .retrying op ready } wq := by
    refine ⟨⟨h.queues, h.bagged, fun x => ?_, h.off, h.marked, fun x hx => ?_, ?_, h.alone⟩, hfits⟩
    · have hplace := h.places x
      show (holders _ _).count x = if s.core.hands x = .held then 1 else 0
      rw [← hplace]
      have hpos : 0 < s.away.count op := List.count_pos_iff.mpr haway
      simp only [holders, List.count_append, hback, BackPc.own, List.count_erase, List.count_nil,
        List.count_singleton]
      by_cases hx : x = op
      · subst hx
        simp only [beq_self_eq_true, if_true]
        omega
      · have hne : (op == x) = false := by simpa using fun he => hx he.symm
        simp [hne]
    · apply h.single x
      simp only [BackPc.unlinked, List.append_nil, List.mem_append] at hx ⊢
      exact .inl (hx.imp_right List.mem_of_mem_erase)
    · have hmarks := h.live
      unfold Marks at hmarks ⊢
      rw [hback] at hmarks
      exact hmarks
  exact hinhand.handsBack rfl hs

theorem waitReturns (h : s.Inv wq) (hs : s.waitReturns = some p) : s.Goes p := by
  unfold Posix.waitReturns at hs
  split at hs
  swap
  · cases hs
  next f forever done ready hpc hback =>
  split at hs
  swap
  · cases hs
  refine ⟨inCore_run (show Keeps s.core .waitReturn from trivial) hs, wq, ?_⟩
  obtain ⟨c, hc, -, hp⟩ := inCore_eq hs
  simp only [Core.step, Core.waitReturn, hpc] at hc
  cases hc
  rw [hp]
  exact h.leaves rfl ⟨rfl, rfl, rfl, rfl⟩ rfl rfl (by rw [hback]; rfl)

theorem fail (h : s.Inv wq) (hback : s.back = .core) (hs : s.inCore .waitFail .core = some p) :
    s.Goes p := by
  refine ⟨inCore_run (show Keeps s.core .waitFail from trivial) hs, wq, ?_⟩
  obtain ⟨c, hc, -, hp⟩ := inCore_eq hs
  simp only [Core.step, Core.waitFail] at hc
  split at hc <;> cases hc
  rw [hp]
  exact h.leaves rfl ⟨rfl, rfl, rfl, rfl⟩ rfl rfl (by rw [hback]; rfl)

theorem pending (h : s.Inv wq) (hs : s.inCore .execPending .core = some p) : s.Goes p := by
  refine ⟨inCore_run (show Keeps s.core .execPending from trivial) hs, wq, ?_⟩
  obtain ⟨c, hc, -, hp⟩ := inCore_eq hs
  simp only [Core.step, Core.execPending] at hc
  split at hc <;> cases hc
  next f op linked hpc =>
  rw [hp]
  have hback : s.back = .core := by
    by_contra hne
    obtain hexec | ⟨f', forever, done, hwait⟩ := h.fits.busy hne
    · rw [hpc] at hexec
      exact hexec rfl
    · cases hpc.symm.trans hwait
  exact h.leaves rfl ⟨rfl, rfl, rfl, rfl⟩ rfl rfl (by rw [hback]; rfl)

end Wait

section Worker
variable {res : Int32} {reads : List ℕ}

/-- The worker takes the head of its queue, and no cancel has its saved pointer in it. -/
theorem workerTake (h : s.Inv wq)
    (hptr : ∀ x, s.core.ring.wqHead = some x → s.back.pointer ≠ .nextOf x)
    (hs : s.workerTake = some p) : s.Goes p := by
  unfold Posix.workerTake at hs
  split at hs
  swap
  · cases hs
  next op hidle hhead =>
  cases hs
  have hqueues := h.queues
  cases wq with
  | nil => cases hhead.symm.trans hqueues.threads
  | cons x rest =>
    have hx : x = op := by simpa [hqueues.threads.1] using hhead
    subst hx
    obtain ⟨-, hwait, hpop⟩ : Ring.Relinks (fun _ => False) _ _ ∧ _ := workerPop_spec hqueues
    have hpool (y : Slot) : (s.core.ring.workerPop x).opPool y = s.core.ring.opPool y := rfl
    have hcell {ptr : Link Slot} {count : ℕ} (hne : ptr ≠ .nextOf x) :
        (∃ pre suf, x :: rest = pre ++ suf ∧ ptr = Link.after pre ∧
          s.Searched (s.core.ring.waiting ++ pre) count) →
        ∃ pre suf, rest = pre ++ suf ∧ ptr = Link.after pre ∧
          s.Searched (s.core.ring.waiting ++ pre) count := by
      rintro ⟨pre, suf, hsplit, rfl, hsearched⟩
      cases pre with
      | nil => exact ⟨[], rest, rfl, rfl, hsearched⟩
      | cons y pre =>
        obtain ⟨rfl, rfl⟩ := List.cons.inj hsplit
        refine ⟨pre, suf, rfl, ?_, hsearched.mono fun z hz => ?_⟩
        · obtain rfl | ⟨pre, z, rfl⟩ := List.eq_nil_or_concat pre
          · exact absurd rfl hne
          · rw [List.concat_eq_append, ← List.cons_append, link_after_concat, link_after_concat]
        · exact (List.mem_append.mp hz).elim (List.mem_append_left _)
            fun hz => List.mem_append_right _ (List.mem_cons_of_mem _ hz)
    have hshorter {count : ℕ} (hroom : s.Room (x :: rest) count) : s.Room rest count :=
      hroom.keep (fun _ hq => hq) (Nat.le_refl _) (Nat.le_succ _) rfl
    refine ⟨setRing_run ⟨fun _ _ _ => rfl, fun _ => rfl, fun _ => rfl, rfl, rfl, rfl, rfl, rfl, rfl, rfl,
      rfl, rfl, rfl, rfl, rfl⟩, rest, ⟨hpop, h.bagged, fun y => ?_, fun y r => ?_, ?_, ?_, ?_, h.alone⟩, ?_⟩
    · have hplace := h.places y
      show (holders _ _).count y = if s.core.hands y = .held then 1 else 0
      rw [← hplace]
      simp only [holders, List.count_append, List.count_cons, List.count_nil, hidle, WorkerPc.runs, setRing,
        hwait]
      omega
    · rw [show (s.setRing (s.core.ring.workerPop x)).core.hands = s.core.hands from rfl, h.off y r, hidle]
      simp
    · refine h.known (fun y hy => ?_) fun y _ => ⟨rfl, rfl⟩
      simp only [List.mem_append, List.mem_cons, WorkerPc.runs, hidle] at hy ⊢
      tauto
    · refine h.known_single (fun y hy => ?_) fun y _ => rfl
      simp only [List.mem_append, List.mem_cons, WorkerPc.touches, hidle, setRing] at hy ⊢
      tauto
    · apply h.live.imp
      intro y o hm
      refine ⟨hm.1, fun hst => ?_⟩
      have hmm := hm.2 hst
      simp only [List.mem_append, List.mem_cons, WorkerPc.touches, hidle, setRing] at hmm ⊢
      tauto
    · have hfits := h.fits
      have hne := hptr x hhead
      unfold Fits at hfits ⊢
      rw [show ({ s.setRing (s.core.ring.workerPop x) with worker := .running x } : Posix).back = s.back
        from rfl]
      cases hback : s.back with
      | cancelLock ptr count =>
        rw [hback] at hfits hne
        exact ⟨hshorter hfits.1, hcell hne hfits.2⟩
      | cancelTaken ptr t count =>
        rw [hback] at hfits hne
        exact ⟨hshorter hfits.1, hfits.2.1, hcell hne hfits.2.2⟩
      | cancelAnswer count =>
        rw [hback] at hfits
        refine ⟨hshorter hfits.1, hfits.2.imp_left fun hsearched => hsearched.mono fun y hy => ?_⟩
        exact (List.mem_append.mp hy).elim (List.mem_append_left _)
          fun hy => List.mem_append_right _ (List.mem_cons_of_mem _ hy)
      | cancelWaiting i count | cancelQueue ptr count =>
        rw [hback] at hfits
        exact ⟨hshorter hfits.1, hfits.2⟩
      | _ =>
        rw [hback] at hfits
        exact hfits

/-- The blocking call of the op returns, and a linked one has its ticket put up. -/
theorem workerFinish (h : s.Inv wq) (hs : s.workerFinish res = some p) : s.Goes p := by
  unfold Posix.workerFinish at hs
  split at hs
  swap
  · cases hs
  next op hruns =>
  obtain ⟨q, t, hq, ht, rfl⟩ := andThen_eq hs
  have hheld : s.core.hands op = .held :=
    (h.held op).mpr (by simp [holders, hruns, WorkerPc.runs])
  have hk : Keeps s.core (.offFinish op res (s.core.ring.opPool op).stallsQueue) :=
    ⟨hheld, h.marked op (by simp [hruns, WorkerPc.runs])⟩
  have ht2 : t.2 = q.2 ∧ coreEvents t.1 = [] := by
    split at ht <;> cases ht <;> exact ⟨rfl, rfl⟩
  have hrun : Run coreMachine Keeps s.core (coreEvents q.1) q.2.core :=
    inCore_run (s := { s with worker := .finished op res }) hk hq
  obtain ⟨c, hc, -, hq2⟩ := inCore_eq hq
  refine ⟨?_, wq, ?_⟩
  · rw [coreEvents_append, ht2.2, List.append_nil, ht2.1]
    exact hrun
  show t.2.Inv wq
  rw [ht2.1, hq2]
  have hcr : c.ring.toVault = s.core.ring.toVault ∧ s.core.ring.SameBackend c.ring ∧ c.pc = s.core.pc ∧
      c.hands = fun x => if x = op then .off res else s.core.hands x := by
    simp only [Core.step, Core.offFinish] at hc
    split at hc <;> cases hc <;> exact ⟨rfl, ⟨rfl, rfl, rfl, rfl⟩, rfl, rfl⟩
  obtain ⟨hvault, hsame, hpc, hhands⟩ := hcr
  have hpool (x : Slot) : c.ring.opPool x = s.core.ring.opPool x := congrArg (·.opPool x) hvault
  refine ⟨⟨?_, fun i x hi => ?_, fun x => ?_, fun x r => ?_, ?_, ?_, ?_, fun x hx => ?_⟩, ?_⟩
  · exact h.queues.congr hsame.wqHead hsame.wqTail fun x _ => hpool x
  · rw [show c.ring.waiting = s.core.ring.waiting from hsame.waiting] at hi
    show (c.ring.opPool x).waitSlot = i
    rw [hpool]
    exact h.bagged i x hi
  · have hplace := h.places x
    simp only [holders, List.count_append, hruns, WorkerPc.runs, hhands, hsame.waiting] at hplace ⊢
    by_cases hx : x = op
    · subst hx
      simp only [hheld, List.count_singleton_self, if_true] at hplace
      simp only [List.count_nil, if_true, reduceCtorEq, if_false]
      omega
    · have hzero : [op].count x = 0 := List.count_eq_zero.mpr (by simpa using hx)
      simpa [hx, hzero] using hplace
  · show c.hands x = .off r ↔ _
    have hno : s.core.hands x ≠ .off r := by
      rw [ne_eq, h.off x r, hruns]
      rintro ⟨⟩
    rw [hhands]
    by_cases hx : x = op
    · simp [hx]
    · simp [hx, hno, Ne.symm hx]
  · refine h.known (fun x hx => ?_) fun x _ => ?_
    · simp only [List.mem_append, WorkerPc.runs] at hx ⊢
      tauto
    · rw [hpool]
      exact ⟨rfl, rfl⟩
  · refine h.known_single (fun x hx => ?_) fun x _ => ?_
    · rw [hruns]
      exact hx
    · rw [hpool]
  · have hmarks := h.live
    rw [← hvault] at hmarks
    unfold Marks at hmarks ⊢
    rw [hruns] at hmarks
    exact hmarks
  · show c.ring.next x = none
    rw [Vault.next, hpool]
    exact h.alone x (hpc ▸ hx)
  · refine h.fits.keep rfl hpc (fun x _ => by rw [hpool]) (fun queue hq => ?_) hsame.waiting
      (congrArg Vault.opPoolN hvault)
    have hhead : c.ring.queueHead = s.core.ring.queueHead := by
      simp only [Core.step, Core.offFinish] at hc
      split at hc <;> cases hc <;> rfl
    show Threads c.ring.next c.ring.queueHead queue
    rw [hhead]
    apply hq.congr
    intro x _
    rw [Vault.next, hpool]
    rfl

/-- What the worker finished it posts, and that is what the backend has of the op. -/
theorem workerPost (h : s.Inv wq) (hg : s.core.Sound) (hs : s.workerPost reads = some p) :
    s.Goes p := by
  unfold Posix.workerPost at hs
  split at hs <;> cases hs
  next op res hfin =>
  have hoff : s.core.hands op = .off res := (h.off op res).mpr hfin
  have hstep : s.core.step (.offPost op reads) = some { s.core.setHand op .none with
      ring := s.core.ring.inVault (·.slipEnginePost op res reads) } := by
    simp only [Core.step, Core.offPost, hoff]
  have hev : s.core.events (.offPost op reads) = s.core.gives op res := by
    simp only [Core.events, hoff]
  have hhas : s.core.has op := .inl (by simp [hoff])
  have hothers (x : Slot) (hx : s.core.has x) (hne : x ≠ op) :
      (s.core.ring.inVault (·.slipEnginePost op res reads)).opPool x = s.core.ring.opPool x := by
    apply hg.others (show Keeps s.core (.offPost op reads) from trivial) hstep _ hx
    · intro he
      exact hne (Option.some.inj he).symm
    · intro r hr
      cases hr
  have hheldOthers {x : Slot} (hx : x ∈ s.holders wq) :
      (s.core.ring.inVault (·.slipEnginePost op res reads)).opPool x = s.core.ring.opPool x := by
    have hxh : s.core.hands x = .held := (h.held x).mpr hx
    apply hothers x (.inl (by simp [hxh]))
    rintro rfl
    cases hoff.symm.trans hxh
  have hexec (x : Slot) (hx : s.core.pc.executing = some x) :
      (s.core.ring.inVault (·.slipEnginePost op res reads)).opPool x = s.core.ring.opPool x := by
    apply hothers x (.inr hx)
    rintro rfl
    cases hoff.symm.trans (hg.executing hx)
  refine ⟨?_, wq, ?_⟩
  · have hrun : Run coreMachine Keeps s.core ([] ++ s.core.events (.offPost op reads)) _ :=
      Run.start.next (show Keeps s.core (.offPost op reads) from trivial) hstep
    rw [coreEvents_core]
    rwa [hev] at hrun
  refine ⟨⟨?_, fun i x hi => ?_, fun x => ?_, fun x r => ?_, ?_, ?_, ?_, fun x hx => ?_⟩, ?_⟩
  · exact h.queues.congr rfl rfl fun x hx => hheldOthers (by simp [holders, hx])
  · show ((s.core.ring.inVault (·.slipEnginePost op res reads)).opPool x).waitSlot = i
    rw [hheldOthers (by simp [holders, show x ∈ s.core.ring.waiting from List.mem_of_getElem? hi])]
    exact h.bagged i x hi
  · have hplace := h.places x
    simp only [holders, List.count_append, hfin, WorkerPc.runs, Core.setHand, Ring.inVault] at hplace ⊢
    by_cases hx : x = op
    · subst hx
      simpa [hoff] using hplace
    · simpa [hx] using hplace
  · show (s.core.setHand op .none).hands x = .off r ↔ _
    simp only [Core.setHand]
    by_cases hx : x = op
    · simp [hx]
    · rw [if_neg hx, h.off x r, hfin]
      simp [Ne.symm hx]
  · refine h.known (fun x hx => ?_) fun x hx => ?_
    · simp only [List.mem_append, WorkerPc.runs] at hx ⊢
      tauto
    · simp only [List.append_nil, WorkerPc.runs] at hx
      rw [hheldOthers (by simp [holders, hx])]
      exact ⟨rfl, rfl⟩
  · have hsub (x : Slot) (hx : x ∈ s.back.unlinked) : x ∈ s.back.own := by
      cases hb : s.back with
      | cancelTaken p t count => simpa [hb, BackPc.own, BackPc.unlinked] using hx
      | _ => simp [hb, BackPc.unlinked] at hx
    refine h.known_single (fun x hx => ?_) fun x hx => ?_
    · simp only [List.mem_append, WorkerPc.touches, List.not_mem_nil] at hx ⊢
      tauto
    · simp only [List.append_nil, List.mem_append, WorkerPc.touches] at hx
      have hxs := hsub x
      rw [hheldOthers (by simp only [holders, List.mem_append]; tauto)]
  · apply (hg.live_post h.live hhas res reads).imp
    intro x o hm
    refine ⟨hm.1.1, fun hst => ?_⟩
    have hmm := hm.1.2 hst
    simp only [List.mem_append, List.mem_singleton, WorkerPc.touches, hfin, List.not_mem_nil] at hmm ⊢
    tauto
  · show (s.core.ring.inVault (·.slipEnginePost op res reads)).next x = none
    rw [Vault.next, hexec x hx]
    exact h.alone x hx
  · refine h.fits.keep rfl rfl (fun x hx => congrArg EngOp.sqe ?_)
      (fun queue hq => hg.queue_post hhas res reads hq) rfl (slipEnginePost_opPoolN _ _ _ _)
    obtain hx | hx := hx
    · exact hexec x hx
    · exact hheldOthers hx

/-- The worker is past its poke, whether it wrote or not. -/
theorem pokes {pipe : Pipe} (h : s.Inv wq) (hw : s.worker = .posted) :
    Posix.Inv { s with pipe := pipe, worker := .idle } wq := by
  have hmarks := h.live
  have hmarked := h.marked
  have hsingle := h.single
  unfold Marks at hmarks
  rw [hw] at hmarks hmarked hsingle
  refine ⟨⟨h.queues, h.bagged, fun x => ?_, fun x r => ?_, hmarked, hsingle, hmarks, h.alone⟩, h.fits⟩
  · have hplace := h.places x
    simpa only [holders, hw, WorkerPc.runs] using hplace
  · show s.core.hands x = .off r ↔ _
    rw [h.off x r, hw]
    simp

/-- The fixed table is nobody's place. -/
theorem table (h : s.Inv wq) (l : TableLabel) : s.Goes ([], s.setRing (s.core.ring.tableStep l).1) := by
  refine ⟨setRing_run (table_writes s.core l), wq, ?_⟩
  obtain ⟨fixed, allocOff, allocLen, allocHint, heq⟩ := s.core.ring.tableStep_eq l
  rw [heq]
  exact ⟨⟨h.queues, h.bagged, h.places, h.off, h.marked, h.single, h.live, h.alone⟩, h.fits⟩

end Worker

end Posix.Inv

/-- The worker does not take the op a CANCEL_ALL has its saved pointer in. -/
def Posix.Spares (s : Posix) : PosixLabel → Prop
  | .workerTake => ∀ x, s.core.ring.wqHead = some x → s.back.pointer ≠ .nextOf x
  | _ => True

instance (s : Posix) : (l : PosixLabel) → Decidable (s.Spares l)
  | .workerTake =>
    inferInstanceAs (Decidable (∀ x, s.core.ring.wqHead = some x → s.back.pointer ≠ .nextOf x))
  | .engine _ | .tries _ _ _ _ | .pending | .cancel _ _ | .wake _ _ | .drain | .ready _ | .cameBack _ _
  | .back | .fail | .workerFinish _ | .workerPost _ | .workerPoke | .senderEmit _ _ _ | .senderPoke
  | .interrupted _ | .table _ => isTrue trivial

/-- One step of the machine. -/
theorem Posix.Inv.step {l : PosixLabel} (h : s.Inv wq) (hg : s.core.Sound) (hk : s.Spares l)
    (hs : s.out l = some p) : s.Goes p := by
  cases l with
  | engine l =>
    by_cases hl : l.isEngine = true
    · exact h.engine hg hl hs
    · simp [Posix.out, Posix.engineStep, hl] at hs
  | tries a armed links reads =>
    simp only [Posix.out] at hs
    split at hs
    · next hback => exact h.execute hg hback hs
    · exact h.retry hg hs
  | pending => exact h.pending hs
  | cancel links reads => exact h.cancelStep hg hs
  | wake reported ready => exact h.wake hs
  | drain => exact h.drain hs
  | ready links => exact h.nextReady hg hs
  | cameBack op res => exact h.cameBack hs
  | back => exact h.waitReturns hs
  | fail =>
    simp only [Posix.out] at hs
    split at hs
    · next hback => exact h.fail hback hs
    · cases hs
  | workerTake => exact h.workerTake hk hs
  | workerFinish res => exact h.workerFinish hs
  | workerPost reads => exact h.workerPost hg hs
  | workerPoke =>
    simp only [Posix.out] at hs
    split at hs
    swap
    · cases hs
    next hw =>
    obtain ⟨pipe, -, hs⟩ := Option.bind_eq_some_iff.mp hs
    exact goes_quiet (h.pokes hw) rfl hs
  | senderEmit u res reads =>
    cases hs
    have hinv := h.emit hg u res 0 reads
    exact ⟨emit_run s.core u res 0 reads, wq, hinv.moves rfl rfl rfl rfl rfl hinv.fits⟩
  | senderPoke =>
    simp only [Posix.out] at hs
    split at hs
    swap
    · cases hs
    obtain ⟨pipe, -, hs⟩ := Option.bind_eq_some_iff.mp hs
    cases hs
    exact ⟨.start, wq, h.moves rfl rfl rfl rfl rfl h.fits⟩
  | interrupted worker =>
    simp only [Posix.out] at hs
    split at hs
    · cases hs
    split at hs
    · split at hs
      swap
      · cases hs
      next hw => exact goes_quiet (h.pokes hw) rfl hs
    · split at hs
      swap
      · cases hs
      cases hs
      exact ⟨.start, wq, h.moves rfl rfl rfl rfl rfl h.fits⟩
  | table l =>
    cases hs
    exact h.table l

theorem setupPosix_inv (n : ℕ) (e : UInt32) (b : Bool) (k : ℕ) (hk : 0 < k) :
    (setupPosix n e b k hk).Inv [] where
  queues := isQueue_nil _
  bagged := indexed_nil _
  places _ := rfl
  off _ _ := iff_of_false nofun nofun
  marked _ hx := absurd hx List.not_mem_nil
  single _ hx := absurd hx List.not_mem_nil
  live := ⟨List.range n, [], Vault.emptyVault_rep n e, fun _ _ _ => ⟨UInt32.zero_and, nofun⟩⟩
  alone _ hx := by cases hx
  fits := trivial

theorem setupPosix_sound (n : ℕ) (e : UInt32) (b : Bool) (k : ℕ) (hk : 0 < k) :
    (setupPosix n e b k hk).core.Sound :=
  ⟨{}, List.range n, [], [], [], Chains.wellFormed_empty, setupCore_rep n e⟩

theorem Posix.step_out {l : PosixLabel} (hs : posixMachine.step s l = some s') :
    s.out l = some (posixMachine.events s l, s') := by
  obtain ⟨⟨ev, t⟩, ht, rfl⟩ := Option.map_eq_some_iff.mp hs
  simp [posixMachine, ht]

/-- Every run of the backend is a run of the engine over a backend that keeps the contract. -/
theorem posix_refines {n : ℕ} {e : UInt32} {b : Bool} {k : ℕ} {hk : 0 < k} {tr : List PosixEvent}
    (hr : Run posixMachine Posix.Spares (setupPosix n e b k hk) tr s) :
    Run coreMachine Keeps (setupCore n e) (coreEvents tr) s.core ∧ ∃ wq, s.Inv wq := by
  refine hr.invariant
    (fun tr s => Run coreMachine Keeps (setupCore n e) (coreEvents tr) s.core ∧ ∃ wq, s.Inv wq)
    ⟨.start, [], setupPosix_inv n e b k hk⟩ ?_
  rintro tr s l s' - ⟨hrun, wq, hinv⟩ hspares hs
  have hg : s.core.Sound := (setupPosix_sound n e b k hk).run hrun
  have hgoes := hinv.step hg hspares (Posix.step_out hs)
  refine ⟨?_, hgoes.2⟩
  rw [coreEvents_append]
  exact hrun.append hgoes.1

end SlipstreamIO.Engine
