import Mathlib.Data.List.Basic
import Mathlib.Tactic.Common

/-! Machines whose labels carry the choices of the environment and whose steps report events,
their runs, and the simulation of one machine by a transition relation. -/
namespace SlipstreamIO.Runs

variable {σ Λ ε α : Type*}

/-- A partial step function together with the events each step reports. -/
structure Machine (σ Λ ε : Type*) where
  step : σ → Λ → Option σ
  events : σ → Λ → List ε

/-- Runs from `s₀` all of whose steps meet the condition `C`, with the events they reported. -/
inductive Run (M : Machine σ Λ ε) (C : σ → Λ → Prop) (s₀ : σ) : List ε → σ → Prop
  | start : Run M C s₀ [] s₀
  | next {tr : List ε} {s s' : σ} {l : Λ} : Run M C s₀ tr s → C s l → M.step s l = some s' →
      Run M C s₀ (tr ++ M.events s l) s'

/-- A property of the events and the state that holds at the start and is kept by every step
holds after every run. -/
theorem Run.invariant {M : Machine σ Λ ε} {C : σ → Λ → Prop} {s₀ : σ} (P : List ε → σ → Prop)
    (h0 : P [] s₀)
    (hstep : ∀ tr s l s', Run M C s₀ tr s → P tr s → C s l → M.step s l = some s' →
      P (tr ++ M.events s l) s') {tr : List ε} {s : σ} (hr : Run M C s₀ tr s) : P tr s := by
  induction hr with
  | start => exact h0
  | next hr hc hs ih => exact hstep _ _ _ _ hr ih hc hs

theorem Run.mono {M : Machine σ Λ ε} {C D : σ → Λ → Prop} {s₀ : σ} (hcd : ∀ s l, C s l → D s l)
    {tr : List ε} {s : σ} (hr : Run M C s₀ tr s) : Run M D s₀ tr s := by
  induction hr with
  | start => exact .start
  | next _ hc hs ih => exact .next ih (hcd _ _ hc) hs

/-- A step in front of a run. -/
theorem Run.cons {M : Machine σ Λ ε} {C : σ → Λ → Prop} {s s' s'' : σ} {l : Λ} {tr : List ε}
    (hc : C s l) (hs : M.step s l = some s') (hr : Run M C s' tr s'') :
    Run M C s (M.events s l ++ tr) s'' := by
  induction hr with
  | start => simpa using Run.start.next hc hs
  | next _ hc' hs' ih =>
    rw [← List.append_assoc]
    exact ih.next hc' hs'

theorem Run.append {M : Machine σ Λ ε} {C : σ → Λ → Prop} {s₀ s s' : σ} {tr ev : List ε}
    (hr : Run M C s₀ tr s) (hr' : Run M C s ev s') : Run M C s₀ (tr ++ ev) s' := by
  induction hr' with
  | start => simpa using hr
  | next _ hc hs ih =>
    rw [← List.append_assoc]
    exact ih.next hc hs

/-- Running a list of labels, `none` when one of them is not enabled or does not meet `C`. -/
def Machine.exec (M : Machine σ Λ ε) (C : σ → Λ → Prop) [∀ s l, Decidable (C s l)] :
    List ε → σ → List Λ → Option (List ε × σ)
  | tr, s, [] => some (tr, s)
  | tr, s, l :: ls =>
    if C s l then
      match M.step s l with
      | none => none
      | some s' => M.exec C (tr ++ M.events s l) s' ls
    else none

theorem Run.exec {M : Machine σ Λ ε} {s₀ : σ} {C : σ → Λ → Prop} [∀ s l, Decidable (C s l)]
    {tr tr' : List ε} {s s' : σ} {ls : List Λ} (hr : Run M C s₀ tr s)
    (he : M.exec C tr s ls = some (tr', s')) : Run M C s₀ tr' s' := by
  induction ls generalizing tr s with
  | nil =>
    cases he
    exact hr
  | cons l ls ih =>
    unfold Machine.exec at he
    split at he
    · next hc =>
      split at he
      · cases he
      · next hs => exact ih (hr.next hc hs) he
    · cases he

/-- A list of labels that can be executed to a state with property `P` is a run to one. -/
theorem Run.of_exec (M : Machine σ Λ ε) (C : σ → Λ → Prop) [∀ s l, Decidable (C s l)] (s₀ : σ)
    (P : List ε → σ → Prop) [∀ tr s, Decidable (P tr s)] (ls : List Λ)
    (he : (M.exec C [] s₀ ls).any (fun p => decide (P p.1 p.2)) = true) :
    ∃ tr s, Run M C s₀ tr s ∧ P tr s := by
  cases h : M.exec C [] s₀ ls with
  | none => simp [h] at he
  | some p => exact ⟨p.1, p.2, Run.start.exec h, by simpa [h] using he⟩

/-- Finite paths of a transition relation whose steps report lists of events. -/
inductive Path (step : α → List ε → α → Prop) (a₀ : α) : List ε → α → Prop
  | start : Path step a₀ [] a₀
  | next {tr ev : List ε} {a a' : α} : Path step a₀ tr a → step a ev a' →
      Path step a₀ (tr ++ ev) a'

theorem Path.invariant {step : α → List ε → α → Prop} {a₀ : α} (P : List ε → α → Prop)
    (h0 : P [] a₀)
    (hstep : ∀ tr a ev a', Path step a₀ tr a → P tr a → step a ev a' → P (tr ++ ev) a')
    {tr : List ε} {a : α} (hp : Path step a₀ tr a) : P tr a := by
  induction hp with
  | start => exact h0
  | next hp hs ih => exact hstep _ _ _ _ hp ih hs

theorem Path.append {step : α → List ε → α → Prop} {a₀ a b : α} {tr ev : List ε}
    (hp : Path step a₀ tr a) (hq : Path step a ev b) : Path step a₀ (tr ++ ev) b := by
  induction hq with
  | start => simpa using hp
  | next _ hs ih =>
    rw [← List.append_assoc]
    exact ih.next hs

theorem Path.one {step : α → List ε → α → Prop} {a a' : α} {ev : List ε}
    (hs : step a ev a') : Path step a ev a' := by
  simpa using Path.start.next hs

theorem Path.mono {step step' : α → List ε → α → Prop} {a₀ a : α} {tr : List ε}
    (hss : ∀ a ev a', step a ev a' → step' a ev a') (hp : Path step a₀ tr a) :
    Path step' a₀ tr a := by
  induction hp with
  | start => exact .start
  | next _ hs ih => exact ih.next (hss _ _ _ hs)

theorem Path.strengthen {step step' : α → List ε → α → Prop} {a₀ a : α} {tr : List ε}
    (hss : ∀ tr a ev a', Path step a₀ tr a → step a ev a' → step' a ev a')
    (hp : Path step a₀ tr a) : Path step' a₀ tr a := by
  induction hp with
  | start => exact .start
  | next hp hs ih => exact ih.next (hss _ _ _ _ hp hs)

/-- `Q` holds of every event of the list and the events before it. -/
def AtEach (Q : List ε → ε → Prop) (tr : List ε) : Prop :=
  ∀ pre e post, tr = pre ++ e :: post → Q pre e

theorem AtEach.append {Q : List ε → ε → Prop} (hmono : ∀ pre pre' e, Q pre e → Q (pre ++ pre') e)
    {tr ev : List ε} (h : AtEach Q tr) (hev : ∀ e ∈ ev, Q tr e) : AtEach Q (tr ++ ev) := by
  intro pre e post he
  rcases List.append_eq_append_iff.mp he with ⟨l, rfl, hl⟩ | ⟨l, rfl, hl⟩
  · exact hmono _ _ _ (hev e (by simp [hl]))
  · cases l with
    | nil =>
      rw [List.append_nil] at hev
      exact hev e (by rw [← List.nil_append ev, ← hl]; exact List.mem_cons_self)
    | cons e' l =>
      cases hl
      exact h pre e l (by simp)

theorem AtEach.concat {Q : List ε → ε → Prop} {tr : List ε} {e : ε} (h : AtEach Q tr) (he : Q tr e) :
    AtEach Q (tr ++ [e]) := by
  intro pre e' post heq
  rcases List.eq_nil_or_concat post with rfl | ⟨post, x, rfl⟩
  · obtain ⟨rfl, hx⟩ := List.append_inj' heq rfl
    cases hx
    exact he
  · apply h pre e' post
    rw [List.concat_eq_append, ← List.cons_append, ← List.append_assoc] at heq
    exact (List.append_inj' heq rfl).1

theorem AtEach.imp {Q Q' : List ε → ε → Prop} {tr : List ε} (h : AtEach Q tr)
    (hq : ∀ pre e post, tr = pre ++ e :: post → Q pre e → Q' pre e) : AtEach Q' tr :=
  fun pre e post he => hq pre e post he (h pre e post he)

end SlipstreamIO.Runs
