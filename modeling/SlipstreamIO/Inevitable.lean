import SlipstreamIO.Runs

/-! States of a machine from which some of its steps lead to a goal in whatever order they are taken. -/
namespace SlipstreamIO.Runs

variable {σ Λ ε : Type*}

/-- The goal is reached, or one of the machine's own steps can be taken and the goal is inevitable behind
each of them. -/
inductive Inevitable (M : Machine σ Λ ε) (own : Λ → Prop) (goal : σ → Prop) : σ → Prop
  | here {s : σ} : goal s → Inevitable M own goal s
  | steps {s : σ} : (∃ l s', own l ∧ M.step s l = some s') →
      (∀ l s', own l → M.step s l = some s' → Inevitable M own goal s') → Inevitable M own goal s

variable {M : Machine σ Λ ε} {own : Λ → Prop} {goal : σ → Prop}

/-- What every own step keeps and lessens until the goal makes the goal inevitable, as long as there is
always such a step. -/
theorem Inevitable.of_measure (P : σ → Prop) (μ : σ → ℕ)
    (hprogress : ∀ s, P s → ¬ goal s → ∃ l s', own l ∧ M.step s l = some s')
    (hstep : ∀ s l s', P s → ¬ goal s → own l → M.step s l = some s' → P s' ∧ μ s' < μ s)
    {s : σ} (h : P s) : Inevitable M own goal s := by
  induction hn : μ s using Nat.strongRecOn generalizing s with
  | ind n ih =>
    by_cases hgoal : goal s
    · exact .here hgoal
    · apply Inevitable.steps (hprogress s h hgoal)
      intro l s' hown hs
      obtain ⟨hP, hlt⟩ := hstep s l s' h hgoal hown hs
      exact ih _ (hn ▸ hlt) hP rfl

end SlipstreamIO.Runs
