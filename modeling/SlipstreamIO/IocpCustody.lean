import SlipstreamIO.EnterSleeps
import SlipstreamIO.IocpRefines

/-! What becomes of what the completion port backend has in its care: the memory Windows writes into, and the
ops enter waits for. -/
namespace SlipstreamIO.Engine

open Runs

/-- The wrappers whose packets are at the port. -/
def IocpState.packets (st : IocpState) : List ℕ := st.port.filterMap Packet.wrapper

/-- What Windows writes into, or has written into, is memory that was not freed, and each of it is in one
place; a wrapper is freed once; an op is held exactly while one wrapper carries it; and neither the wait
nor the close comes upon a wrapper that was freed. -/
structure Iocp.MemorySafe (s : Iocp) : Prop where
  live : ∀ w, w ∈ s.be.issued ∨ w ∈ s.be.packets → (s.be.wrappers w).isSome = true
  apart : (s.be.issued ++ s.be.packets).Nodup
  kept : s.phase ≠ .closed → ∀ w, (s.be.wrappers w).isSome = true → w ∈ s.be.issued ∨ w ∈ s.be.packets
  freed_once : s.be.freed.Nodup
  freed : ∀ w, w ∈ s.be.freed ↔ w < s.be.made ∧ s.be.wrappers w = none
  carried : s.phase = .running → ∀ x, s.core.hands x = .held ↔ ∃ w o, s.be.wrappers w = some o ∧ o.op = x
  carried_once : s.phase = .running → ∀ w w' o o', s.be.wrappers w = some o → s.be.wrappers w' = some o' →
    o.op = o'.op → w = w'
  takes : s.phase = .running → s.be.port ≠ [] → ∀ f forever done, s.core.pc = .wait f forever done →
    done.length < s.core.ring.opPoolN → ∀ a reads, (s.out (.take a reads)).isSome = true
  drains : s.phase = .closing → s.be.port ≠ [] → s.be.inFlight ≠ [] → (s.out .drain).isSome = true

namespace Iocp
section Custody
variable {s : Iocp} {w : ℕ}

theorem Inv.home (h : s.Inv) (hphase : s.phase ≠ .closed) :
    (s.be.issued ++ s.be.packets).Perm s.be.inFlight := by
  have hhome := h.owns.home
  rwa [h.dropped hphase, List.append_nil] at hhome

theorem handBack_isSome (hpc : ∃ f forever done, s.core.pc = .wait f forever done) (op : Slot)
    (res : Int32) : (s.inCore (.handBack op res)).isSome = true := by
  obtain ⟨f, forever, done, hpc⟩ := hpc
  simp [Iocp.inCore, Core.step, Core.handBack, hpc]

theorem rearm_isSome (hpc : ∃ f forever done, s.core.pc = .wait f forever done) (op : Slot) (res : Int32)
    (a : WinAnswers) (reads : List ℕ) : (s.rearm op res a reads).isSome = true := by
  unfold Iocp.rearm Iocp.andThen
  simp only [Option.bind_some, Option.isSome_map]
  unfold Iocp.armNext
  split
  · rfl
  · apply handBack_isSome
    exact hpc

/-- The wrapper of a packet at the port is in memory. -/
theorem Inv.at_port (h : s.Inv) {answer : Except UInt32 UInt32} {port : List Packet}
    (hport : s.be.port = .io w answer :: port) : ∃ o, s.be.wrappers w = some o := by
  have hw : w ∈ s.be.inFlight := by
    apply h.owns.home.mem_iff.mp
    rw [hport]
    simp [Packet.wrapper]
  exact Option.isSome_iff_exists.mp ((h.owns.live w).mpr hw)

theorem Inv.take_isSome (h : s.Inv) {f : Frame} {forever : Bool} {done : List (Slot × Int32)}
    (hpc : s.core.pc = .wait f forever done) (hroom : done.length < s.core.ring.opPoolN)
    (hport : s.be.port ≠ []) (a : WinAnswers) (reads : List ℕ) : (s.take a reads).isSome = true := by
  obtain ⟨packet, port, hp⟩ := List.exists_cons_of_ne_nil hport
  unfold Iocp.take
  rw [hpc, hp]
  dsimp only
  rw [if_neg (by omega)]
  cases packet with
  | poke => rfl
  | io w answer =>
    obtain ⟨o, ho⟩ := h.at_port hp
    simp only [ho, Option.bind_some]
    split
    · apply rearm_isSome
      exact ⟨f, forever, done, hpc⟩
    · apply handBack_isSome
      exact ⟨f, forever, done, hpc⟩

theorem Inv.drain_isSome (h : s.Inv) (hport : s.be.port ≠ []) (hflight : s.be.inFlight ≠ []) :
    s.drain.isSome = true := by
  obtain ⟨packet, port, hp⟩ := List.exists_cons_of_ne_nil hport
  unfold Iocp.drain
  rw [hp]
  dsimp only
  rw [if_neg hflight]
  cases packet with
  | poke => rfl
  | io w answer =>
    obtain ⟨o, ho⟩ := h.at_port hp
    simp [ho, Iocp.quiet]

theorem Inv.memorySafe (h : s.Inv) : s.MemorySafe := by
  have hsub : ∀ w ∈ s.be.issued ++ s.be.packets, w ∈ s.be.inFlight := fun w hw =>
    h.owns.home.mem_iff.mp (List.mem_append_left _ hw)
  have hspent := List.nodup_append.mp (h.owns.spent.nodup_iff.mpr List.nodup_range)
  refine ⟨fun w hw => ?_, ?_, fun hp w hw => ?_, hspent.1, fun w => ?_, fun hr x => ?_, ?_, ?_, ?_⟩
  · exact (h.owns.live w).mpr (hsub w (List.mem_append.mpr hw))
  · have hnodup := h.owns.home.nodup_iff.mpr h.owns.nodup
    exact (List.nodup_append.mp hnodup).1
  · exact List.mem_append.mp ((h.home hp).mem_iff.mpr ((h.owns.live w).mp hw))
  · have hmade : w ∈ s.be.freed ∨ w ∈ s.be.inFlight ↔ w < s.be.made := by
      rw [← List.mem_append, h.owns.spent.mem_iff, List.mem_range]
    have hlive := h.owns.live w
    rw [← hmade, ← Option.not_isSome_iff_eq_none, hlive]
    constructor
    · intro hw
      exact ⟨.inl hw, fun hf => hspent.2.2 w hw w hf rfl⟩
    · rintro ⟨hw | hw, hnot⟩
      · exact hw
      · exact absurd hw hnot
  · rw [h.held hr x, Option.isSome_iff_exists]
    exact exists_congr fun w => h.sourced hr x w
  · intro hr w w' o o' ho ho' hop
    have hw := (h.sourced hr o.op w).mpr ⟨o, ho, rfl⟩
    have hw' := (h.sourced hr o.op w').mpr ⟨o', ho', hop.symm⟩
    exact Option.some.inj (hw.symm.trans hw')
  · intro hr hport f forever done hpc hroom a reads
    have hout : s.out (.take a reads) = s.take a reads := by simp only [Iocp.out, hr, Iocp.running]
    rw [hout]
    exact h.take_isSome hpc hroom hport a reads
  · intro hr hport hflight
    have hout : s.out .drain = s.drain := by simp only [Iocp.out, hr]
    rw [hout]
    exact h.drain_isSome hport hflight

end Custody
end Iocp

/-! ### What enter waits for -/

/-- No ticket is up, and outside `process_queue` nothing is left in the queue but what waits behind a linked
op. -/
def Core.Idle (c : Core) : Prop :=
  c.ring.blockedDone = none ∧ match c.pc with
    | .out _ | .take _ _ _ _ _ | .settle _ | .check _ | .wait _ _ _ =>
      c.ring.queueHead = none ∨ c.ring.blocking ≠ none
    | .queue _ | .exec _ _ _ _ | .post _ _ _ | .complete _ _ => True

section Idle
variable {c c' : Core} {l : CoreLabel} {n : ℕ} {e : UInt32} {tr : List Event}

/-- `process_queue` is through with the queue. -/
theorem idle_afterQueue {f : Frame} (hd : c.ring.blockedDone = none)
    (hq : c.ring.queueHead = none ∨ c.ring.blocking ≠ none) (hpc : c.pc = Core.afterQueue f) : c.Idle := by
  unfold Core.afterQueue at hpc
  refine ⟨hd, ?_⟩
  split at hpc
  · rw [hpc]
    exact hq
  · rw [hpc]
    exact hq

/-- What the submitter looks at is left alone. -/
theorem Core.Idle.keep (h : c.Idle) (hpc : c'.pc = c.pc) (hd : c'.ring.blockedDone = c.ring.blockedDone)
    (hq : c'.ring.queueHead = c.ring.queueHead) (hb : c'.ring.blocking = c.ring.blocking) : c'.Idle := by
  unfold Core.Idle
  rw [hpc, hd, hq, hb]
  exact h

theorem Core.Idle.engine (h : c.Idle) (hg : c.Sound) (hl : l.isEngine = true) (hs : c.step l = some c') :
    c'.Idle := by
  obtain ⟨hd, h⟩ := h
  cases l with
  | enter call =>
    simp only [Core.step] at hs
    split at hs <;> cases hs
    next ret hpc =>
    rw [hpc] at h
    exact ⟨hd, h⟩
  | takeSqe =>
    simp only [Core.step, Core.takeSqe] at hs
    split at hs
    swap
    · cases hs
    next call entry rest submitted batchHead batchTail hpc =>
    rw [hpc] at h
    repeat' split at hs
    all_goals cases hs
    all_goals exact ⟨hd, h⟩
  | append =>
    simp only [Core.step, Core.append] at hs
    split at hs
    swap
    · cases hs
    next call submitted batchHead batchTail hpc =>
    rw [hpc] at h
    split at hs <;> cases hs
    · exact idle_afterQueue hd h rfl
    · refine ⟨?_, trivial⟩
      unfold Ring.appendBatch
      split <;> exact hd
  | queueStep target reads =>
    simp only [Core.step, Core.queueStep] at hs
    split at hs
    swap
    · cases hs
    next f hpc =>
    split at hs
    · next hhead =>
      cases hs
      exact idle_afterQueue hd (.inl hhead) rfl
    split at hs
    · next hblocking =>
      cases hs
      exact idle_afterQueue hd (.inr hblocking) rfl
    -- an op is in hand
    split at hs
    · split at hs <;> cases hs
      · refine ⟨hd, ?_⟩
        rw [hpc]
        trivial
      · exact ⟨hd, trivial⟩
    split at hs
    · cases hs
      exact ⟨hd, trivial⟩
    generalize (_ && _ && _ : Bool) = resolves at hs
    generalize (if resolves = true then _ else _ : EngOp) = o at hs
    split at hs <;> cases hs
    · refine ⟨?_, trivial⟩
      rw [msgRing_ring]
      exact hd
    · exact ⟨hd, trivial⟩
  | post reads =>
    simp only [Core.step, Core.post] at hs
    split at hs <;> cases hs
    exact ⟨hd, trivial⟩
  | settle reads =>
    simp only [Core.step, Core.settle] at hs
    split at hs <;> cases hs
    next f hpc =>
    rw [hpc] at h
    obtain ⟨hqueue, hsame, -⟩ := Posix.settle_spec hg hpc reads
    obtain ⟨hblocking, hdone⟩ := hsame hd
    refine ⟨hdone, ?_⟩
    dsimp only
    rw [hqueue, hblocking]
    exact h
  | check left =>
    simp only [Core.step, Core.check] at hs
    split at hs
    swap
    · cases hs
    next f hpc =>
    rw [hpc] at h
    repeat' split at hs
    all_goals cases hs
    all_goals exact ⟨hd, h⟩
  | complete reads =>
    simp only [Core.step, Core.complete] at hs
    split at hs <;> cases hs
    · refine ⟨?_, trivial⟩
      unfold Ring.complete
      repeat' split
      all_goals exact hd
    · exact ⟨hd, trivial⟩
  | read k =>
    cases hs
    exact ⟨hd, h⟩
  | _ => cases hl

/-- So does what a backend of one thread does. -/
theorem Core.Idle.step (h : c.Idle) (hg : c.Sound) (hk : OnThread c l) (hs : c.step l = some c') :
    c'.Idle := by
  cases l with
  | write r =>
    cases hs
    exact h.keep rfl hk.1.blockedDone hk.1.queueHead hk.1.blocking
  | emit u res fl reads =>
    cases hs
    exact h
  | execDone res | execTake | execPending | waitReturn =>
    simp only [Core.step, Core.execDone, Core.execTake, Core.execPending, Core.waitReturn] at hs
    split at hs <;> cases hs
    exact ⟨h.1, trivial⟩
  | handBack op res =>
    simp only [Core.step, Core.handBack] at hs
    split at hs <;> cases hs
    next f forever done hpc =>
    obtain ⟨hd, hq⟩ := h
    rw [hpc] at hq
    exact ⟨hd, hq⟩
  | waitFail =>
    simp only [Core.step, Core.waitFail] at hs
    split at hs <;> cases hs
    next f forever hpc =>
    obtain ⟨hd, hq⟩ := h
    rw [hpc] at hq
    exact ⟨hd, hq⟩
  | cancelHeld t reads | cancelQueued p reads | offFinish op res ticket | offPost op reads => exact hk.2.elim
  | enter call | takeSqe | append | queueStep target reads | post reads | settle reads | check left
  | complete reads | read k => exact h.engine hg rfl hs

theorem idle_run (hr : Run coreMachine OnThread (setupCore n e) tr c) : c.Idle := by
  refine hr.invariant (fun _ c => c.Idle) ⟨rfl, .inl rfl⟩ ?_
  intro tr c l c' hr h hk hs
  exact h.step ((setupCore_sound n e).run (hr.mono fun _ _ h => h.1)) hk hs

/-- Over a backend of one thread, what the queue waits for is with the backend, or comes back with the wait. -/
theorem waits_for {f : Frame} {forever : Bool} {done : List (Slot × Int32)}
    (hr : Run coreMachine OnThread (setupCore n e) tr c) (hpc : c.pc = .wait f forever done) :
    c.ring.queueHead = none ∨
      ∃ x, c.ring.blocking = some x ∧ (c.hands x = .held ∨ ∃ res, (x, res) ∈ done) := by
  obtain ⟨hdone, hrests⟩ := idle_run hr
  rw [hpc] at hrests
  obtain hempty | hblocking := hrests
  · exact .inl hempty
  right
  obtain ⟨x, hx⟩ := Option.ne_none_iff_exists'.mp hblocking
  refine ⟨x, hx, ?_⟩
  obtain ⟨a, free, backlog, queue, batch, given, hist, hrep, -⟩ :=
    core_run_refines (C := fun _ _ => True) (fun _ _ h => h) (fun _ _ _ _ _ _ _ _ _ _ _ _ => trivial)
      (hr.mono fun _ _ h => h.1)
  obtain ⟨hw, -⟩ := History.accounts hist
  have hwaiting : c.waitingFor = some x := by
    rw [Core.waitingFor, hpc]
    exact hx
  have hi := hrep.governs.waiting
  rw [hwaiting] at hi
  obtain ⟨i, hi⟩ := Option.isSome_iff_exists.mp hi.symm
  have hpends := hrep.governs.pends x i hwaiting hi
  cases ht : a.ticket with
  | some t => cases (hpends.ticketed t.1 t.2 ht).2.1.symm.trans hdone
  | none =>
    obtain ⟨-, -, hat⟩ := hpends.live ht
    obtain hheld | ⟨res, hreturned⟩ := (hw.blocking i hi).2.2.2 ht
    · rw [hheld] at hat
      exact .inl hat
    · rw [hreturned] at hat
      have hback : (x, res) ∈ c.pc.done := hat
      rw [hpc] at hback
      exact .inr ⟨res, hback⟩

end Idle

section Runs
variable {n : ℕ} {e : UInt32} {tr : List PosixEvent} {s : Iocp}

/-- Every run of the completion port backend is a run of the engine over a backend that keeps the contract,
and of one that finishes nothing off the engine's thread. -/
theorem iocp_keeps_the_contract (hr : Run iocpMachine (fun _ _ => True) (setupIocp n e) tr s) :
    Run coreMachine OnThread (setupCore n e) (coreEvents tr) s.core := (iocp_runs hr).1

/-- A NOP behind a linked RECV: the packet of the RECV comes, and the NOP is run. -/
theorem iocp_keeps_the_contract_linked : ∃ tr s,
    Run iocpMachine (fun _ _ => True) (setupIocp 2 4) tr s ∧ .give 0 (some ⟨9, 16, 0⟩) ∈ coreEvents tr ∧
      .start 1 ∈ coreEvents tr ∧ Run coreMachine OnThread (setupCore 2 4) (coreEvents tr) s.core := by
  obtain ⟨tr, s, hr, hgive, hstart⟩ := Run.of_exec iocpMachine (fun _ _ => True) (setupIocp 2 4)
    (fun tr _ => .give 0 (some ⟨9, 16, 0⟩) ∈ coreEvents tr ∧ .start 1 ∈ coreEvents tr)
    [.engine (.enter { minComplete := 2, getevents := true, entries := [
        some { opcode := .recv, flags := { ioLink := true }, userData := 9 }, some {}] }),
      .engine .takeSqe, .engine .takeSqe, .engine .append, .engine (.queueStep .own []),
      .execute (winGrants 0), .engine (.queueStep .own []), .engine (.settle []), .engine (.check 0),
      .ends 0 (.ok 16), .take (winGrants 0) [], .back, .engine (.complete []), .engine (.complete []),
      .engine (.queueStep .own [])] (by decide +kernel)
  exact ⟨tr, s, hr, hgive, hstart, iocp_keeps_the_contract hr⟩

/-- In every run Windows has only memory to write into that is not freed, and nothing is freed twice. -/
theorem iocp_memory_safe (hr : Run iocpMachine (fun _ _ => True) (setupIocp n e) tr s) : s.MemorySafe :=
  (iocp_runs hr).2.memorySafe

/-- A multishot accept has its second wrapper with Windows, and the first is freed. -/
theorem iocp_memory_safe_rearmed : ∃ tr s, Run iocpMachine (fun _ _ => True) (setupIocp 2 4) tr s ∧
    s.be.freed = [0] ∧ s.be.issued = [1] ∧ s.core.hands 0 = .held ∧ s.MemorySafe := by
  obtain ⟨tr, s, hr, hfreed, hissued, hheld⟩ := Run.of_exec iocpMachine (fun _ _ => True) (setupIocp 2 4)
    (fun _ s => s.be.freed = [0] ∧ s.be.issued = [1] ∧ s.core.hands 0 = .held)
    (acceptWaits ++ [.ends 0 (.ok 0), .take (winGrants 6) []]) (by decide +kernel)
  exact ⟨tr, s, hr, hfreed, hissued, hheld, iocp_memory_safe hr⟩

/-- In every run, enter waits at the port with an empty queue, or for a linked op whose one call Windows has,
or whose packet is at the port, or that comes back with the wait. -/
theorem iocp_waits_for_a_packet (hr : Run iocpMachine (fun _ _ => True) (setupIocp n e) tr s)
    {f : Frame} {forever : Bool} {done : List (Slot × Int32)} (hrunning : s.phase = .running)
    (hpc : s.core.pc = .wait f forever done) :
    s.core.ring.queueHead = none ∨ ∃ x, s.core.ring.blocking = some x ∧
      ((∃ w o, s.be.wrappers w = some o ∧ o.op = x ∧ (w ∈ s.be.issued ∨ w ∈ s.be.packets)) ∨
        ∃ res, (x, res) ∈ done) := by
  obtain ⟨hcore, hinv⟩ := iocp_runs hr
  obtain hempty | ⟨x, hx, hheld | hback⟩ := waits_for hcore hpc
  · exact .inl hempty
  · have hsafe := hinv.memorySafe
    obtain ⟨w, o, ho, hop⟩ := (hsafe.carried hrunning x).mp hheld
    have hw := hsafe.kept (by rw [hrunning]; rintro ⟨⟩) w (by rw [ho]; rfl)
    exact .inr ⟨x, hx, .inl ⟨w, o, ho, hop, hw⟩⟩
  · exact .inr ⟨x, hx, .inr hback⟩

/-- A NOP behind a linked RECV that Windows has. -/
theorem iocp_waits_for_a_packet_linked : ∃ tr s f,
    Run iocpMachine (fun _ _ => True) (setupIocp 2 4) tr s ∧ s.core.pc = .wait f true [] ∧
      s.core.ring.queueHead = some 1 ∧ s.be.issued = [0] ∧
      (s.core.ring.queueHead = none ∨ ∃ x, s.core.ring.blocking = some x ∧
        ((∃ w o, s.be.wrappers w = some o ∧ o.op = x ∧ (w ∈ s.be.issued ∨ w ∈ s.be.packets)) ∨
          ∃ res, (x, res) ∈ ([] : List (Slot × Int32)))) := by
  let call : Call := { minComplete := 2, getevents := true, entries := [
    some { opcode := .recv, flags := { ioLink := true } }, some {}] }
  obtain ⟨tr, s, hr, hrunning, hpc, hqueue, hissued⟩ := Run.of_exec iocpMachine (fun _ _ => True)
    (setupIocp 2 4)
    (fun _ s => s.phase = .running ∧ s.core.pc = .wait { call := call, submitted := 2 } true [] ∧
      s.core.ring.queueHead = some 1 ∧ s.be.issued = [0])
    [.engine (.enter call), .engine .takeSqe, .engine .takeSqe, .engine .append,
      .engine (.queueStep .own []), .execute (winGrants 0), .engine (.queueStep .own []),
      .engine (.settle []), .engine (.check 0)] (by decide +kernel)
  exact ⟨tr, s, _, hr, hpc, hqueue, hissued, iocp_waits_for_a_packet hr hrunning hpc⟩

end Runs

end SlipstreamIO.Engine
