import SlipstreamIO.WaitingBag
import Mathlib.Tactic.Ring

/-! The backend's table mirrors the parked set: one lemma for each thing that moves an op between
`waiting[]` and the side lists, and the close that empties the lists alone. -/
namespace SlipstreamIO.Engine

open ThreadedList Runs IndexedBag

variable {κ ω A E : Type}

/-- The head of a side list; past the end of the table there is none. -/
def FdTable.head (st : FdTable κ) (f : ℕ) (sd : Side) : Option Slot :=
  if f < st.n then (st.fds f).side sd else none

/-- The side lists hold exactly the ops with `P`, each on the list of its descriptor and side. -/
def SideLists (v : Vault) (st : FdTable κ) (P : Slot → Prop) : Prop :=
  ∀ f sd, ∃ l, Threads v.next (st.head f sd) l ∧
    ∀ x, x ∈ l ↔ P x ∧ (v.opPool x).sqe.fd.toInt = f ∧ (v.opPool x).side = sd

/-- What the lists depend on of an op. -/
structure SameParked (o o' : EngOp) : Prop where
  next : o'.next = o.next
  fd : o'.sqe.fd = o.sqe.fd
  waitEvents : o'.waitEvents = o.waitEvents

theorem SameParked.side {o o' : EngOp} (h : SameParked o o') : o'.side = o.side := by
  unfold EngOp.side
  rw [h.waitEvents]

theorem SameParked.refl (o : EngOp) : SameParked o o := ⟨rfl, rfl, rfl⟩

section Lists
variable {v v' : Vault} {st st' : FdTable κ} {P : Slot → Prop} {op : Slot}

theorem SideLists.congr (h : SideLists v st P)
    (hop : ∀ x, P x → SameParked (v.opPool x) (v'.opPool x))
    (hst : ∀ f sd, st'.head f sd = st.head f sd) : SideLists v' st' P := by
  intro f sd
  obtain ⟨l, hl, hmem⟩ := h f sd
  refine ⟨l, ?_, fun x => ?_⟩
  · rw [hst]
    apply hl.congr
    intro x hx
    exact (hop x ((hmem x).mp hx).1).next
  · rw [hmem]
    constructor
    · rintro ⟨hx, hf, hs⟩
      have hsame := hop x hx
      exact ⟨hx, by rw [hsame.fd, hf], by rw [hsame.side, hs]⟩
    · rintro ⟨hx, hf, hs⟩
      have hsame := hop x hx
      exact ⟨hx, by rw [← hsame.fd, hf], by rw [← hsame.side, hs]⟩

theorem SideLists.imp {Q : Slot → Prop} (h : SideLists v st P) (hpq : ∀ x, P x ↔ Q x) :
    SideLists v st Q := by
  intro f sd
  obtain ⟨l, hl, hmem⟩ := h f sd
  exact ⟨l, hl, fun x => by rw [hmem, hpq]⟩

/-- The op goes in front of its list. -/
theorem SideLists.link (h : SideLists v st P) (hnew : ¬ P op) {f : ℕ}
    (hf : (v.opPool op).sqe.fd.toInt = f)
    (hnext : v'.next op = st.head f (v.opPool op).side)
    (hop : ∀ x, P x → SameParked (v.opPool x) (v'.opPool x))
    (hfd : (v'.opPool op).sqe.fd = (v.opPool op).sqe.fd)
    (hw : (v'.opPool op).waitEvents = (v.opPool op).waitEvents)
    (hhead : st'.head f (v.opPool op).side = some op)
    (hst : ∀ g sd, ¬ (g = f ∧ sd = (v.opPool op).side) → st'.head g sd = st.head g sd) :
    SideLists v' st' (fun x => x = op ∨ P x) := by
  have hside : (v'.opPool op).side = (v.opPool op).side := by
    unfold EngOp.side
    rw [hw]
  intro g sd
  obtain ⟨l, hl, hmem⟩ := h g sd
  have hl' : Threads v'.next (st.head g sd) l :=
    hl.congr (fun x hx => (hop x ((hmem x).mp hx).1).next)
  -- the ops parked before keep their list, so only `op` itself is new
  have hold (x : Slot) (hx : P x) : ((v'.opPool x).sqe.fd.toInt = g ∧ (v'.opPool x).side = sd) ↔
      ((v.opPool x).sqe.fd.toInt = g ∧ (v.opPool x).side = sd) := by
    rw [(hop x hx).fd, (hop x hx).side]
  by_cases hg : g = f ∧ sd = (v.opPool op).side
  · obtain ⟨rfl, rfl⟩ := hg
    refine ⟨op :: l, ⟨hhead, ?_⟩, fun x => ?_⟩
    · rw [hnext]
      exact hl'
    · rw [List.mem_cons, hmem]
      by_cases hxo : x = op
      · subst hxo
        simp [hfd, hf, hside]
      · constructor
        · rintro (rfl | ⟨hx, hin⟩)
          · exact absurd rfl hxo
          · exact ⟨Or.inr hx, (hold x hx).mpr hin⟩
        · rintro ⟨rfl | hx, hin⟩
          · exact absurd rfl hxo
          · exact Or.inr ⟨hx, (hold x hx).mp hin⟩
  · refine ⟨l, by rw [hst g sd hg]; exact hl', fun x => ?_⟩
    rw [hmem]
    constructor
    · rintro ⟨hx, hin⟩
      exact ⟨Or.inr hx, (hold x hx).mpr hin⟩
    · rintro ⟨rfl | hx, hin⟩
      · exfalso
        apply hg
        rw [hfd, hf, hside] at hin
        exact ⟨(Int.ofNat.inj hin.1).symm, hin.2.symm⟩
      · exact ⟨hx, (hold x hx).mp hin⟩

/-- What taking an op out of a list does, when the list holds it. -/
theorem Vault.leaveSide_spec {h : Option Slot} {pre suf : List Slot}
    (hl : Threads v.next h (pre ++ op :: suf)) (hn : (pre ++ op :: suf).length ≤ v.opPoolN) :
    Threads (v.leaveSide h op).1.next (v.leaveSide h op).2 (pre ++ suf) ∧
      (v.leaveSide h op).1.next op = none ∧
      ∀ x, x ∉ pre ++ op :: suf → (v.leaveSide h op).1.opPool x = v.opPool x := by
  have hnd := threads_nodup hl
  have hpre : op ∉ pre := fun hm =>
    (List.nodup_append.mp hnd).2.2 op hm op List.mem_cons_self rfl
  have hsuf : op ∉ suf := (List.nodup_cons.mp (List.nodup_append.mp hnd).2.1).1
  have hcell := hl.findCell hpre (v.opPoolN + 1) (by
    rw [List.length_append] at hn
    omega)
  -- the unlinked node is on the list no longer, so clearing its `next` field changes nothing
  have hclear {w : Vault} {h' : Option Slot} (hw : Threads w.next h' (pre ++ suf)) :
      Threads (w.setNext op none).next h' (pre ++ suf) := by
    apply hw.congr
    intro x hx
    rw [Vault.setNext_next, if_neg]
    rintro rfl
    exact (List.mem_append.mp hx).elim hpre hsuf
  rcases List.eq_nil_or_concat pre with rfl | ⟨pre', b, rfl⟩
  · have hval : v.leaveSide h op = (v.setNext op none, v.next op) := by
      unfold Vault.leaveSide
      rw [hcell]
      rfl
    rw [hval]
    refine ⟨hclear hl.2, by simp, fun x hx => ?_⟩
    rw [Vault.setNext, Vault.setOp_opPool, if_neg]
    rintro rfl
    exact hx (by simp)
  · rw [List.concat_eq_append] at *
    have hval : v.leaveSide h op = ((v.setNext b (v.next op)).setNext op none, h) := by
      unfold Vault.leaveSide
      rw [hcell, link_after_concat]
    have hbop : b ≠ op := by
      rintro rfl
      exact hpre (by simp)
    rw [hval]
    refine ⟨hclear ?_, by simp, fun x hx => ?_⟩
    · apply hl.unlink hnd
      · intro hlink
        rw [link_after_concat] at hlink
        cases hlink
      · intro _
        rfl
      · intro c hc
        rw [link_after_concat] at hc
        cases hc
        simp
      · intro c hc
        rw [link_after_concat] at hc
        rw [Vault.setNext_next, if_neg]
        rintro rfl
        exact hc rfl
    · have hxb : x ≠ b := by
        rintro rfl
        exact hx (by simp)
      have hxo : x ≠ op := by
        rintro rfl
        exact hx (by simp)
      simp [Vault.setNext, hxb, hxo]

/-- The op leaves its list. -/
theorem SideLists.unlink (st' : FdTable κ) (h : SideLists v st P) (hop : P op) {f : ℕ}
    (hf : (v.opPool op).sqe.fd.toInt = f)
    (hbound : ∀ l : List Slot, l.Nodup → (∀ x ∈ l, P x) → l.length ≤ v.opPoolN)
    (hhead : st'.head f (v.opPool op).side =
      (v.leaveSide (st.head f (v.opPool op).side) op).2)
    (hst : ∀ g sd, ¬ (g = f ∧ sd = (v.opPool op).side) → st'.head g sd = st.head g sd) :
    SideLists (v.leaveSide (st.head f (v.opPool op).side) op).1 st' (fun x => P x ∧ x ≠ op) := by
  obtain ⟨l, hl, hmem⟩ := h f (v.opPool op).side
  have hin : op ∈ l := (hmem op).mpr ⟨hop, hf, rfl⟩
  obtain ⟨pre, suf, rfl⟩ := List.append_of_mem hin
  have hnd := threads_nodup hl
  have hlen := hbound _ hnd (fun x hx => ((hmem x).mp hx).1)
  obtain ⟨hl', -, hout⟩ := Vault.leaveSide_spec hl hlen
  have hfields := Vault.leaveSide_opPool v (st.head f (v.opPool op).side) op
  generalize (v.leaveSide (st.head f (v.opPool op).side) op).1 = w at *
  have hfd (x : Slot) : (w.opPool x).sqe.fd = (v.opPool x).sqe.fd := by rw [hfields x]
  have hside (x : Slot) : (w.opPool x).side = (v.opPool x).side := by
    unfold EngOp.side
    rw [hfields x]
  intro g sd
  by_cases hg : g = f ∧ sd = (v.opPool op).side
  · obtain ⟨rfl, rfl⟩ := hg
    refine ⟨pre ++ suf, by rw [hhead]; exact hl', fun x => ?_⟩
    rw [hfd, hside]
    have hx := hmem x
    rw [List.nodup_middle, List.nodup_cons] at hnd
    constructor
    · intro hxl
      have hxop : x ≠ op := by
        rintro rfl
        exact hnd.1 hxl
      obtain ⟨hP, hxf, hxs⟩ := hx.mp (by
        simp only [List.mem_append, List.mem_cons] at hxl ⊢
        tauto)
      exact ⟨⟨hP, hxop⟩, hxf, hxs⟩
    · rintro ⟨⟨hP, hxop⟩, hxf, hxs⟩
      have hxl := hx.mpr ⟨hP, hxf, hxs⟩
      simp only [List.mem_append, List.mem_cons] at hxl ⊢
      tauto
  · -- another list: none of its nodes is on the list that was changed
    obtain ⟨m, hm, hmem'⟩ := h g sd
    refine ⟨m, ?_, fun x => ?_⟩
    · rw [hst g sd hg]
      apply hm.congr
      intro x hx
      obtain ⟨-, hxf, hxs⟩ := (hmem' x).mp hx
      unfold Vault.next
      rw [hout x]
      intro hxl
      obtain ⟨-, hxf', hxs'⟩ := (hmem x).mp hxl
      exact hg ⟨by omega, hxs.symm.trans hxs'⟩
    · rw [hfd, hside, hmem']
      constructor
      · rintro ⟨hP, hxf, hxs⟩
        refine ⟨⟨hP, ?_⟩, hxf, hxs⟩
        rintro rfl
        exact hg ⟨by omega, hxs.symm⟩
      · rintro ⟨⟨hP, -⟩, hxf, hxs⟩
        exact ⟨hP, hxf, hxs⟩

end Lists

theorem growTo_gt {fd k want : ℕ} (h : fd < want * 2 ^ k) : fd < growTo fd k want := by
  induction k generalizing want with
  | zero => simpa [growTo] using h
  | succ k ih =>
    unfold growTo
    split
    · apply ih
      rw [pow_succ] at h
      calc fd < want * (2 ^ k * 2) := h
        _ = want * 2 * 2 ^ k := by ring
    · next hlt => omega

theorem growTo_ge (fd k want : ℕ) : want ≤ growTo fd k want := by
  induction k generalizing want with
  | zero => exact le_rfl
  | succ k ih =>
    unfold growTo
    split
    · have := ih (want * 2)
      omega
    · exact le_rfl

/-- The slot function changes no list, and the descriptor is in the table it gives. -/
structure Reaches (zero : κ) (st st' : FdTable κ) (fd : Int32) : Prop where
  nonneg : 0 ≤ fd.toInt
  lt : fd.toInt.toNat < st'.n
  head : ∀ f sd, st'.head f sd = st.head f sd
  old : ∀ f, f < st.n → st'.fds f = st.fds f
  fresh : ∀ f, st.n ≤ f → f < st'.n → st'.fds f = { reg := zero }

theorem FdTable.slot_spec {zero : κ} {st st' : FdTable κ} {fd : Int32} {grown : Bool}
    (h : st.slot zero fd grown = some st') : Reaches zero st st' fd := by
  unfold FdTable.slot at h
  split at h
  · cases h
  next hneg =>
  have hnonneg : 0 ≤ fd.toInt := by
    rw [Int32.not_lt, Int32.le_iff_toInt_le] at hneg
    simpa using hneg
  split at h
  · next hlt =>
    cases h
    exact ⟨hnonneg, hlt, fun _ _ => rfl, fun _ _ => rfl, fun f hf hf' => by omega⟩
  next hge =>
  split at h
  swap
  · cases h
  cases h
  have hfd : fd.toInt.toNat < 2 ^ 31 := by
    have := Int32.toInt_lt fd
    omega
  set start := if st.n ≠ 0 then st.n else 64 with hstart
  have hpos : 0 < start := by
    rw [hstart]
    split <;> omega
  have hgrow : fd.toInt.toNat < growTo fd.toInt.toNat 32 start := by
    apply growTo_gt
    calc fd.toInt.toNat < 2 ^ 31 := hfd
      _ ≤ start * 2 ^ 32 := by omega
  have hmore : st.n ≤ growTo fd.toInt.toNat 32 start := by omega
  refine ⟨hnonneg, hgrow, fun f sd => ?_, fun f hf => ?_, fun f hf hf' => ?_⟩
  · unfold FdTable.head
    by_cases hf : f < st.n
    · rw [if_pos hf, if_pos (by simpa using lt_of_lt_of_le hf hmore)]
      simp [show ¬ st.n ≤ f by omega]
    · rw [if_neg hf]
      split
      · next hf' =>
        have hnew : st.n ≤ f ∧ f < growTo fd.toInt.toNat 32 start := ⟨by omega, hf'⟩
        have hfresh : (if st.n ≤ f ∧ f < growTo fd.toInt.toNat 32 start then { reg := zero }
            else st.fds f) = ({ reg := zero } : FdEntry κ) := if_pos hnew
        rw [show ({ fds := _, n := _ } : FdTable κ).fds f = _ from hfresh]
        cases sd <;> rfl
      · rfl
  · simp [show ¬ st.n ≤ f by omega]
  · exact if_pos ⟨hf, hf'⟩

theorem SideLists.reaches {zero : κ} {v : Vault} {st st' : FdTable κ} {fd : Int32} {P : Slot → Prop}
    (h : SideLists v st P) (hr : Reaches zero st st' fd) : SideLists v st' P :=
  h.congr (fun _ _ => SameParked.refl _) hr.head

namespace FdTable
variable {st : FdTable κ} {f g : ℕ} {e : FdEntry κ} {sd sd' : Side}

theorem head_set (hf : f < st.n) :
    (st.set f e).head g sd = if g = f then e.side sd else st.head g sd := by
  unfold head set
  by_cases hg : g = f
  · subst hg
    simp [hf]
  · simp [hg]

end FdTable

theorem FdEntry.side_setSide (e : FdEntry κ) (sd sd' : Side) (h : Option Slot) :
    (e.setSide sd h).side sd' = if sd' = sd then h else e.side sd' := by
  cases sd <;> cases sd' <;> rfl

theorem FdEntry.side_with_reg (e : FdEntry κ) (reg : κ) (sd : Side) :
    FdEntry.side { e with reg := reg } sd = e.side sd := by
  cases sd <;> rfl

namespace ReadyBackend
variable {b : ReadyBackend κ ω A E} {s s' : Parking κ ω} {P : Slot → Prop} {op : Slot}

/-- An arm that succeeds puts the op on its list, one that fails leaves the lists alone. -/
theorem arm_lists {grown ok : Bool} {a : A} (h : SideLists s.ring.toVault s.st P) (hnew : ¬ P op)
    (harm : b.arm s op grown a = (s', ok)) :
    SideLists s'.ring.toVault s'.st (fun x => (ok = true ∧ x = op) ∨ P x) ∧
      (ok = true → 0 ≤ (s.ring.opPool op).sqe.fd.toInt) := by
  unfold arm at harm
  simp only at harm
  cases hslot : s.st.slot b.zero (s.ring.opPool op).sqe.fd grown with
  | none =>
    rw [hslot] at harm
    cases harm
    exact ⟨h.imp (by simp), by simp⟩
  | some st =>
    rw [hslot] at harm
    simp only at harm
    obtain ⟨hnonneg, hlt, hhead, -, -⟩ := FdTable.slot_spec hslot
    have hfd : (s.ring.opPool op).sqe.fd.toInt = ((s.ring.opPool op).fdIndex : ℤ) := by
      unfold EngOp.fdIndex
      omega
    have hlt : (s.ring.opPool op).fdIndex < st.n := hlt
    have hother (w : Option Slot) (x : Slot) (hx : P x) :
        SameParked (s.ring.opPool x) ((s.ring.toVault.setNext op w).opPool x) := by
      have hne : x ≠ op := by
        rintro rfl
        exact hnew hx
      rw [Vault.setNext_opPool, Vault.setNext_next, if_neg hne]
      exact ⟨rfl, rfl, rfl⟩
    generalize hreg : b.register (st.fds (s.ring.opPool op).fdIndex) (s.ring.opPool op) a s.env = g at harm
    obtain ⟨res, reg, env⟩ := g
    cases res with
    | true =>
      cases harm
      refine ⟨?_, fun _ => hnonneg⟩
      refine (SideLists.link h hnew hfd ?_ (hother _) ?_ ?_ ?_ ?_).imp (by simp)
      · rw [Vault.setNext_next, if_pos rfl, ← hhead, FdTable.head, if_pos hlt]
      · rw [Vault.setNext_opPool]
      · rw [Vault.setNext_opPool]
      · rw [FdTable.head_set hlt, if_pos rfl, FdEntry.side_setSide, if_pos rfl]
      · intro g sd hg
        rw [FdTable.head_set hlt, ← hhead g sd]
        split
        · next hgf =>
          rw [FdEntry.side_setSide, if_neg (fun hs => hg ⟨hgf, hs⟩), hgf, FdEntry.side_with_reg,
            FdTable.head, if_pos hlt]
        · rfl
    | false =>
      cases harm
      refine ⟨?_, by simp⟩
      refine (h.congr (hother none) (fun g sd => ?_)).imp (by simp)
      rw [FdTable.head_set hlt, ← hhead g sd]
      split
      · next hgf => rw [hgf, FdEntry.side_with_reg, FdTable.head, if_pos hlt]
      · rfl

/-- A disarm takes the op off its list. -/
theorem disarm_lists (h : SideLists s.ring.toVault s.st P) (hop : P op)
    (hbound : ∀ l : List Slot, l.Nodup → (∀ x ∈ l, P x) → l.length ≤ s.ring.opPoolN)
    (hfd : 0 ≤ (s.ring.opPool op).sqe.fd.toInt) :
    SideLists (b.disarm s op).ring.toVault (b.disarm s op).st (fun x => P x ∧ x ≠ op) := by
  obtain ⟨st, hslot⟩ : ∃ st, s.st.slot b.zero (s.ring.opPool op).sqe.fd true = some st := by
    have hneg : ¬ (s.ring.opPool op).sqe.fd < 0 := by
      rw [Int32.not_lt, Int32.le_iff_toInt_le]
      simpa using hfd
    unfold FdTable.slot
    rw [if_neg hneg]
    split
    · exact ⟨_, rfl⟩
    · exact ⟨_, if_pos rfl⟩
  have hreach := FdTable.slot_spec hslot
  have hlt : (s.ring.opPool op).fdIndex < st.n := hreach.lt
  have hindex : (s.ring.opPool op).sqe.fd.toInt = ((s.ring.opPool op).fdIndex : ℤ) := by
    unfold EngOp.fdIndex
    omega
  have hval : b.disarm s op =
      { s with
        ring := s.ring.inVault (fun v => (v.leaveSide (st.head (s.ring.opPool op).fdIndex
          (s.ring.opPool op).side) op).1)
        st := (b.disarm s op).st } := by
    unfold disarm
    simp only [hslot, FdTable.head, if_pos hlt]
  have hst (g : ℕ) (sd : Side) : (b.disarm s op).st.head g sd =
      if g = (s.ring.opPool op).fdIndex ∧ sd = (s.ring.opPool op).side then
        (s.ring.leaveSide (st.head (s.ring.opPool op).fdIndex (s.ring.opPool op).side) op).2
      else st.head g sd := by
    unfold disarm
    simp only [hslot]
    rw [FdTable.head_set hlt]
    by_cases hg : g = (s.ring.opPool op).fdIndex
    · rw [if_pos hg, FdEntry.side_with_reg, FdEntry.side_setSide]
      by_cases hs : sd = (s.ring.opPool op).side
      · rw [if_pos hs, if_pos ⟨hg, hs⟩, FdTable.head, if_pos hlt]
      · rw [if_neg hs, if_neg (fun hn => hs hn.2), hg, FdTable.head, if_pos hlt]
    · rw [if_neg hg, if_neg (fun hn => hg hn.1)]
  have hlists := SideLists.unlink (b.disarm s op).st (h.reaches hreach) hop hindex hbound
    (by rw [hst, if_pos ⟨rfl, rfl⟩])
    (fun g sd hg => by rw [hst, if_neg hg])
  rw [hval]
  exact hlists

end ReadyBackend

/-- `waiting[]` and the table agree: the parked ops know their places, and each is on the one list
its descriptor and its events select. -/
structure InStep (s : Parking κ ω) : Prop extends Bagged s where
  lists : SideLists s.ring.toVault s.st (· ∈ s.ring.waiting)
  fd : ∀ x ∈ s.ring.waiting, 0 ≤ (s.ring.opPool x).sqe.fd.toInt

namespace InStep
variable {b : ReadyBackend κ ω A E} {s s' : Parking κ ω} {op : Slot}

theorem lists_short (h : InStep s) (l : List Slot) (hnd : l.Nodup)
    (hl : ∀ x ∈ l, x ∈ s.ring.waiting) : l.length ≤ s.ring.opPoolN := by
  have hsub := List.subperm_of_subset hnd hl
  exact hsub.length_le.trans h.bound

/-- What happens to the ops that are not parked is nothing to the table. -/
theorem congr (h : InStep s) (hw : s'.ring.waiting = s.ring.waiting)
    (hn : s'.ring.opPoolN = s.ring.opPoolN)
    (hop : ∀ x ∈ s.ring.waiting, SameParked (s.ring.opPool x) (s'.ring.opPool x) ∧
      (s'.ring.opPool x).waitSlot = (s.ring.opPool x).waitSlot)
    (hst : ∀ f sd, s'.st.head f sd = s.st.head f sd) : InStep s' where
  toBagged := h.toBagged.congr hw hn (fun x hx => (hop x hx).2)
  lists := by
    rw [hw]
    exact h.lists.congr (fun x hx => (hop x hx).1) hst
  fd := by
    intro x hx
    rw [hw] at hx
    rw [(hop x hx).1.fd]
    exact h.fd x hx

theorem setOp (h : InStep s) (hop : op ∉ s.ring.waiting) (o : EngOp) :
    InStep { s with ring := s.ring.inVault (·.setOp op o) } := by
  refine h.congr rfl rfl (fun x hx => ?_) (fun _ _ => rfl)
  have hne : x ≠ op := by
    rintro rfl
    exact hop hx
  rw [Ring.inVault_toVault, Vault.setOp_opPool, if_neg hne]
  exact ⟨SameParked.refl _, rfl⟩

/-- The op leaves `waiting[]` and its list. -/
theorem unpark (h : InStep s) (op : Slot) : InStep (b.unpark s op) := by
  obtain ⟨hbag, hmem⟩ := h.toBagged.unpark (b := b) op
  rcases ReadyBackend.unpark_spec b s op with ⟨-, hval⟩ | ⟨last, hi, hlast, hval, -, -, hpool⟩
  · rwa [hval]
  have hop : op ∈ s.ring.waiting := List.mem_of_getElem? hi
  set s₁ : Parking κ ω :=
    { s with ring := ReadyBackend.leaveWaiting s.ring (s.ring.opPool op).waitSlot } with hs₁
  have hsame (x : Slot) : SameParked (s.ring.opPool x) (s₁.ring.opPool x) := by
    rw [hs₁]
    unfold ReadyBackend.leaveWaiting
    rw [hlast]
    simp only [Ring.inVault_toVault, Vault.setOp_opPool]
    split
    · next hx =>
      rw [hx]
      exact ⟨rfl, rfl, rfl⟩
    · exact SameParked.refl _
  have hn : s₁.ring.opPoolN = s.ring.opPoolN := by
    rw [hs₁]
    unfold ReadyBackend.leaveWaiting
    rw [hlast]
    rfl
  have hlists₁ : SideLists s₁.ring.toVault s₁.st (· ∈ s.ring.waiting) :=
    h.lists.congr (fun x _ => hsame x) (fun _ _ => rfl)
  have hfd₁ : 0 ≤ (s₁.ring.opPool op).sqe.fd.toInt := by
    rw [(hsame op).fd]
    exact h.fd op hop
  have hlists := ReadyBackend.disarm_lists (b := b) hlists₁ hop (by rw [hn]; exact h.lists_short) hfd₁
  rw [← hval] at hlists
  refine ⟨hbag, hlists.imp (fun x => (hmem x).symm), fun x hx => ?_⟩
  rw [hpool x]
  exact h.fd x ((hmem x).mp hx).1

/-- The op joins `waiting[]` and its list, or neither. -/
theorem park {grown ok : Bool} {a : A} (h : InStep s) (hop : op ∉ s.ring.waiting)
    (hpark : b.park s op grown a = (s', ok)) : InStep s' := by
  obtain ⟨hbag, hmem⟩ := h.toBagged.park hop hpark
  obtain ⟨-, -, -, hpool⟩ := ReadyBackend.park_spec hpark
  -- the lists of the arm are those of the park: only places were written after it
  obtain ⟨hlists, hfd⟩ : SideLists s'.ring.toVault s'.st
      (fun x => (ok = true ∧ x = op) ∨ x ∈ s.ring.waiting) ∧
      (ok = true → 0 ≤ (s.ring.opPool op).sqe.fd.toInt) := by
    unfold ReadyBackend.park at hpark
    split at hpark
    · cases hpark
      exact ⟨h.lists.imp (by simp), by simp⟩
    cases harm : b.arm s op grown a with
    | mk s₁ armed =>
      rw [harm] at hpark
      have harmed := ReadyBackend.arm_lists h.lists hop harm
      cases armed with
      | false =>
        cases hpark
        exact harmed
      | true =>
        cases hpark
        refine ⟨harmed.1.congr (fun x _ => ?_) (fun _ _ => rfl), harmed.2⟩
        simp only [Ring.inVault_toVault, Vault.setOp_opPool]
        split
        · next hx =>
          rw [hx]
          exact ⟨rfl, rfl, rfl⟩
        · exact SameParked.refl _
  refine ⟨hbag, hlists.imp (fun x => by rw [hmem, or_comm]), fun x hx => ?_⟩
  rw [hpool x]
  rcases (hmem x).mp hx with hx | ⟨rfl, rfl⟩
  · exact h.fd x hx
  · exact hfd rfl

/-- A side list of a descriptor nothing is parked on is empty. -/
theorem head_none (h : InStep s) {f : ℕ} (hf : ∀ x ∈ s.ring.waiting,
    (s.ring.opPool x).sqe.fd.toInt ≠ f) (sd : Side) : s.st.head f sd = none := by
  obtain ⟨l, hl, hmem⟩ := h.lists f sd
  cases l with
  | nil => exact hl
  | cons x l =>
    obtain ⟨hx, hxf, -⟩ := (hmem x).mp List.mem_cons_self
    exact absurd hxf (hf x hx)

/-- One turn of the loop over the ready ops. -/
theorem retry (h : InStep s) (op : Slot) (t : Retry A) : InStep (b.retry s op t).1 := by
  have h₁ := h.unpark (b := b) op
  have hout : op ∉ (b.unpark s op).ring.waiting :=
    fun hm => (((h.toBagged.unpark (b := b) op).2 op).mp hm).2 rfl
  unfold ReadyBackend.retry
  generalize b.unpark s op = s₁ at *
  cases t.verdict with
  | ran res => exact h₁
  | file => exact h₁
  | park events =>
    have h₂ := h₁.setOp hout { s₁.ring.opPool op with waitEvents := events }
    simp only
    split
    · next hp => exact h₂.park hout hp
    · next hp => exact h₂.park hout hp

theorem finishReady (h : InStep s) (ready : List Slot) (retries : List (Retry A)) (max : ℕ)
    (out : List (Slot × Int32)) : InStep (b.slipPosixFinishReady s ready retries max out).1 :=
  Bagged.finishReady_of_retry (fun h op _ => h.retry op) h retries max out

/-- A forgotten descriptor with nothing parked on it had empty lists already. -/
theorem forget (h : InStep s) {fd : Int32} (grown : Bool)
    (hidle : ∀ x ∈ s.ring.waiting, (s.ring.opPool x).sqe.fd ≠ fd) : InStep (b.forget s fd grown) := by
  unfold ReadyBackend.forget
  split
  · exact h
  next st hslot =>
  obtain ⟨hnonneg, hlt, hhead, -, -⟩ := FdTable.slot_spec hslot
  refine h.congr rfl rfl (fun x _ => ⟨SameParked.refl _, rfl⟩) (fun f sd => ?_)
  rw [FdTable.head_set hlt]
  split
  · next hf =>
    have hnone : s.st.head f sd = none := by
      apply h.head_none
      intro x hx he
      apply hidle x hx
      apply Int32.toInt_inj.mp
      omega
    rw [hnone]
    cases sd <;> rfl
  · exact hhead f sd

theorem closeFd (h : InStep s) {fd : Int32} (grown : Bool)
    (hidle : ∀ x ∈ s.ring.waiting, (s.ring.opPool x).sqe.fd ≠ fd) : InStep (b.closeFd s fd grown) := by
  have h₁ := h.forget (b := b) grown hidle
  unfold ReadyBackend.closeFd
  dsimp only
  split
  · exact h₁
  · exact h₁.congr rfl rfl (fun x _ => ⟨SameParked.refl _, rfl⟩) (fun _ _ => rfl)

theorem close (h : InStep s) {sqe : Sqe} (grown : Bool)
    (hidle : ∀ fd ∈ s.closes sqe, ∀ x ∈ s.ring.waiting, (s.ring.opPool x).sqe.fd ≠ fd) :
    InStep (b.close s sqe grown) := by
  unfold ReadyBackend.close
  unfold Parking.closes at hidle
  split
  · next hdirect =>
    rw [if_pos hdirect] at hidle
    dsimp only at hidle ⊢
    split
    · exact h
    next hreal =>
    rw [if_neg hreal] at hidle
    obtain ⟨hpool, hn, hw⟩ := slipFixedClear_frame s.ring (sqe.fileIndex - 1).toNat
    have h₁ : InStep { s with ring := (s.ring.slipFixedClear (sqe.fileIndex - 1).toNat).1 } := by
      refine h.congr hw hn (fun x _ => ?_) (fun _ _ => rfl)
      dsimp only
      rw [hpool]
      exact ⟨SameParked.refl _, rfl⟩
    refine h₁.closeFd grown (fun x hx => ?_)
    dsimp only at hx ⊢
    rw [hpool]
    exact hidle _ rfl x (hw ▸ hx)
  · next hplain =>
    rw [if_neg hplain] at hidle
    exact h.closeFd grown (hidle sqe.fd rfl)

end InStep

/-- What a pass collects, it changes neither the lists nor what they depend on. -/
structure CollectsOnly (s s' : Parking κ ω) : Prop where
  waiting : s'.ring.waiting = s.ring.waiting
  opPoolN : s'.ring.opPoolN = s.ring.opPoolN
  opPool : ∀ x, SameParked (s.ring.opPool x) (s'.ring.opPool x) ∧
    (s'.ring.opPool x).waitSlot = (s.ring.opPool x).waitSlot
  head : ∀ f sd, s'.st.head f sd = s.st.head f sd

theorem CollectsOnly.refl (s : Parking κ ω) : CollectsOnly s s :=
  ⟨rfl, rfl, fun _ => ⟨SameParked.refl _, rfl⟩, fun _ _ => rfl⟩

theorem CollectsOnly.trans {s s' s'' : Parking κ ω} (h : CollectsOnly s s') (h' : CollectsOnly s' s'') :
    CollectsOnly s s'' := by
  refine ⟨h'.waiting.trans h.waiting, h'.opPoolN.trans h.opPoolN, fun x => ?_,
    fun f sd => (h'.head f sd).trans (h.head f sd)⟩
  obtain ⟨⟨hn, hf, hw⟩, hs⟩ := h.opPool x
  obtain ⟨⟨hn', hf', hw'⟩, hs'⟩ := h'.opPool x
  exact ⟨⟨hn'.trans hn, hf'.trans hf, hw'.trans hw⟩, hs'.trans hs⟩

/-- A backend whose passes only collect, as does what it hears between them. -/
structure ReadyBackend.Lawful (b : ReadyBackend κ ω A E) : Prop where
  hear : ∀ s e, CollectsOnly s (b.hear s e)
  collect : ∀ s e, CollectsOnly s (b.collect s e).1

theorem InStep.collects {s s' : Parking κ ω} (h : InStep s) (hcol : CollectsOnly s s') : InStep s' :=
  h.congr hcol.waiting hcol.opPoolN (fun x _ => hcol.opPool x) hcol.head

/-- The table mirrors the parked set: on the two lists of a descriptor are the ops of `waiting[]` that
wait for it, each on the one its events select. -/
def Mirrored (s : Parking κ ω) : Prop :=
  SideLists s.ring.toVault s.st (· ∈ s.ring.waiting) ∧
    ∀ x ∈ s.ring.waiting, 0 ≤ (s.ring.opPool x).sqe.fd.toInt

section Runs
variable {b : ReadyBackend κ ω A E}

theorem setupParking_inStep (n : ℕ) (e : UInt32) (env : ω) : InStep (b.setupParking n e env) where
  indexed := indexed_nil _
  bound := Nat.zero_le _
  lists := by
    intro f sd
    refine ⟨[], ?_, by simp [ReadyBackend.setupParking]⟩
    simp [FdTable.head, ReadyBackend.setupParking]
  fd := by simp [ReadyBackend.setupParking]

theorem parking_step_inStep (hb : b.Lawful) {s : Parking κ ω} {l : ParkLabel A E} (h : InStep s)
    (hl : ParksOnce s l) (hc : ClosesIdle s l) : InStep (b.step s l) := by
  cases l with
  | other op o => exact h.setOp hl o
  | fixed table => exact h.congr rfl rfl (fun x _ => ⟨SameParked.refl _, rfl⟩) (fun _ _ => rfl)
  | park op events grown a =>
    have h₁ := h.setOp hl { s.ring.opPool op with waitEvents := events }
    exact h₁.park hl (Prod.mk.eta).symm
  | unpark op => exact h.unpark op
  | pass events retries max =>
    exact (h.collects (hb.collect s events)).finishReady _ _ _ _
  | hear events => exact h.collects (hb.hear s events)
  | close sqe grown => exact h.close grown hc
  | gone fd =>
    show InStep (if fd < 0 then s else { s with env := b.closed s.env fd.toInt.toNat })
    split
    · exact h
    · exact h.congr rfl rfl (fun x _ => ⟨SameParked.refl _, rfl⟩) (fun _ _ => rfl)

/-- Whatever is closed, the parked ops keep their places. -/
theorem parking_run_bagged (hb : b.Lawful) {n : ℕ} {e : UInt32} {env : ω} {tr : List Empty}
    {s : Parking κ ω} (hr : Run b.parking ParksOnce (b.setupParking n e env) tr s) : Bagged s := by
  refine hr.invariant (fun _ s => Bagged s) (setupParking_inStep n e env).toBagged ?_
  intro tr s l s' _ h hl hs
  cases hs
  have hcol {s' : Parking κ ω} (hc : CollectsOnly s s') : Bagged s' :=
    h.congr hc.waiting hc.opPoolN (fun x _ => (hc.opPool x).2)
  cases l with
  | other op o => exact h.setOp hl o
  | fixed table => exact h.congr rfl rfl (fun _ _ => rfl)
  | park op events grown a =>
    have h₁ := h.setOp hl { s.ring.opPool op with waitEvents := events }
    exact (h₁.park hl (Prod.mk.eta).symm).1
  | unpark op => exact (h.unpark op).1
  | pass events retries max => exact (hcol (hb.collect s events)).finishReady _ _ _ _
  | close sqe grown => exact h.close sqe grown
  | gone fd =>
    show Bagged (if fd < 0 then s else { s with env := b.closed s.env fd.toInt.toNat })
    split
    · exact h
    · exact h.congr rfl rfl (fun _ _ => rfl)
  | hear events => exact hcol (hb.hear s events)

theorem parking_run_inStep (hb : b.Lawful) {n : ℕ} {e : UInt32} {env : ω} {tr : List Empty}
    {s : Parking κ ω}
    (hr : Run b.parking (fun s l => ParksOnce s l ∧ ClosesIdle s l) (b.setupParking n e env) tr s) :
    InStep s := by
  refine hr.invariant (fun _ s => InStep s) (setupParking_inStep n e env) ?_
  intro tr s l s' _ h hl hs
  cases hs
  exact parking_step_inStep hb h hl.1 hl.2

end Runs

end SlipstreamIO.Engine
