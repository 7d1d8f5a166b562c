import SlipstreamIO.Runs
import Mathlib.Logic.Function.Basic

/-! Programs of several threads over one shared state. A turn of a thread is one call, the environment
chooses what the call does, and others act on the shared state in between. The rule of this module is the
one for proof outlines with ownership: a program is annotated with the stage it is in, a stage owns
resources, no two threads own the same, and what a call does to the shared state leaves the other
threads' stages as they are. -/
namespace SlipstreamIO.Interleaved
open Runs

/-- A program is done, or it makes a call and goes on with the answer. -/
inductive Prog (C : Type) (A : C → Type) (R : Type) where
  | done (r : R)
  | call (c : C) (next : A c → Prog C A R)

/-- What the shared state makes of a call, as the environment chooses, of a result that is handed back, and
of the acts of others. -/
structure World (K C O R X : Type) (A : C → Type) where
  call : K → (c : C) → O → Option (K × A c)
  handBack : K → R → K
  other : K → X → Option K

structure Threads (K T C : Type) (A : C → Type) (R : Type) where
  shared : K
  prog : T → Option (Prog C A R) := fun _ => none

inductive Turn (T C : Type) (A : C → Type) (R O X : Type) where
  | starts (t : T) (p : Prog C A R)
  | calls (t : T) (o : O)
  | leaves (t : T)
  | other (x : X)

/-- A call, with the shared state before and after it, and a result, with the shared state it left. -/
inductive Report (K T C : Type) (A : C → Type) (R : Type) where
  | called (t : T) (before after : K) (c : C) (answer : A c)
  | left (t : T) (shared : K) (r : R)

variable {K T C O R X S Res : Type} {A : C → Type}

def Report.thread : Report K T C A R → T
  | .called t _ _ _ _ => t
  | .left t _ _ => t

/-- The reports of one thread. -/
def reportsOf [DecidableEq T] (t : T) (tr : List (Report K T C A R)) : List (Report K T C A R) :=
  tr.filter fun e => e.thread = t

section
variable [DecidableEq T] {t : T} {e : Report K T C A R}

theorem reportsOf_append (tr ev : List (Report K T C A R)) :
    reportsOf t (tr ++ ev) = reportsOf t tr ++ reportsOf t ev := List.filter_append _ _

theorem reportsOf_own (h : e.thread = t) : reportsOf t [e] = [e] := by
  rw [reportsOf, List.filter_cons_of_pos (by simpa using h), List.filter_nil]

theorem reportsOf_other (h : e.thread ≠ t) : reportsOf t [e] = [] := by
  rw [reportsOf, List.filter_cons_of_neg (by simpa using h), List.filter_nil]

end

/-- The call that the program is about to make. -/
def Prog.pending : Prog C A R → Option C
  | .done _ => none
  | .call c _ => some c

namespace World
variable [DecidableEq T] (w : World K C O R X A)

def step (s : Threads K T C A R) : Turn T C A R O X → Option (Threads K T C A R)
  | .starts t p =>
    match s.prog t with
    | none => some { s with prog := Function.update s.prog t (some p) }
    | some _ => none
  | .calls t o =>
    match s.prog t with
    | some (.call c next) =>
      (w.call s.shared c o).map fun out => ⟨out.1, Function.update s.prog t (some (next out.2))⟩
    | some (.done _) => none
    | none => none
  | .leaves t =>
    match s.prog t with
    | some (.done r) => some ⟨w.handBack s.shared r, Function.update s.prog t none⟩
    | some (.call _ _) => none
    | none => none
  | .other x => (w.other s.shared x).map fun k => { s with shared := k }

def events (s : Threads K T C A R) : Turn T C A R O X → List (Report K T C A R)
  | .starts _ _ => []
  | .calls t o =>
    match s.prog t with
    | some (.call c _) => ((w.call s.shared c o).map fun out =>
        Report.called t s.shared out.1 c out.2).toList
    | some (.done _) => []
    | none => []
  | .leaves t =>
    match s.prog t with
    | some (.done r) => [.left t s.shared r]
    | some (.call _ _) => []
    | none => []
  | .other _ => []

def machine : Machine (Threads K T C A R) (Turn T C A R O X) (Report K T C A R) := ⟨w.step, w.events⟩

end World

/-- What a turn of each kind is: the only way to take a step of the machine apart. -/
theorem World.step_cases [DecidableEq T] {w : World K C O R X A} {s s' : Threads K T C A R}
    {l : Turn T C A R O X} (h : w.step s l = some s') :
    (∃ t p, l = .starts t p ∧ s.prog t = none ∧ w.events s l = [] ∧
      s' = ⟨s.shared, Function.update s.prog t (some p)⟩) ∨
    (∃ t o c next k a, l = .calls t o ∧ s.prog t = some (.call c next) ∧ w.call s.shared c o = some (k, a) ∧
      w.events s l = [.called t s.shared k c a] ∧ s' = ⟨k, Function.update s.prog t (some (next a))⟩) ∨
    (∃ t r, l = .leaves t ∧ s.prog t = some (.done r) ∧ w.events s l = [.left t s.shared r] ∧
      s' = ⟨w.handBack s.shared r, Function.update s.prog t none⟩) ∨
    (∃ x k, l = .other x ∧ w.other s.shared x = some k ∧ w.events s l = [] ∧ s' = ⟨k, s.prog⟩) := by
  cases l with
  | starts t p =>
    cases hp : s.prog t with
    | none =>
      simp only [World.step, hp, Option.some.injEq] at h
      exact Or.inl ⟨t, p, rfl, hp, rfl, h.symm⟩
    | some q =>
      simp only [World.step, hp] at h
      cases h
  | calls t o =>
    cases hp : s.prog t with
    | none =>
      simp only [World.step, hp] at h
      cases h
    | some q =>
      cases q with
      | done r =>
        simp only [World.step, hp] at h
        cases h
      | call c next =>
        cases hcall : w.call s.shared c o with
        | none =>
          simp only [World.step, hp, hcall] at h
          cases h
        | some out =>
          simp only [World.step, hp, hcall, Option.map_some, Option.some.injEq] at h
          apply Or.inr
          apply Or.inl
          exact ⟨t, o, c, next, out.1, out.2, rfl, hp, hcall,
            by simp only [World.events, hp, hcall, Option.map_some, Option.toList_some], h.symm⟩
  | leaves t =>
    cases hp : s.prog t with
    | none =>
      simp only [World.step, hp] at h
      cases h
    | some q =>
      cases q with
      | done r =>
        simp only [World.step, hp, Option.some.injEq] at h
        apply Or.inr
        apply Or.inr
        apply Or.inl
        exact ⟨t, r, rfl, hp, by simp only [World.events, hp], h.symm⟩
      | call c next =>
        simp only [World.step, hp] at h
        cases h
  | other x =>
    cases hother : w.other s.shared x with
    | none =>
      simp only [World.step, hother] at h
      cases h
    | some k =>
      simp only [World.step, hother, Option.map_some, Option.some.injEq] at h
      apply Or.inr
      apply Or.inr
      apply Or.inr
      exact ⟨x, k, rfl, hother, rfl, h.symm⟩

/-- An outline: the stages with their programs, what the shared state is at a stage, what a stage owns, and
what there is that somebody has to own. -/
structure Outline (K T C : Type) (A : C → Type) (R S Res : Type) where
  prog : S → Prog C A R
  holds : K → S → Prop
  owns : S → Res → Prop
  inv : List (Report K T C A R) → K → Prop
  needs : List (Report K T C A R) → K → Res → Prop

namespace Outline
variable (ol : Outline K T C A R S Res)

/-- The two stages own different things. -/
def Apart (st su : S) : Prop := ∀ r, ol.owns st r → ¬ ol.owns su r

theorem Apart.symm {ol : Outline K T C A R S Res} {st su : S} (h : ol.Apart st su) : ol.Apart su st :=
  fun r hsu hst => h r hst hsu

/-- The stages of the threads fit the programs and the shared state, nothing has two owners, and what
needs an owner has one. -/
structure Fits (tr : List (Report K T C A R)) (s : Threads K T C A R) (stage : T → Option S) : Prop where
  prog : ∀ t, s.prog t = (stage t).map ol.prog
  holds : ∀ t st, stage t = some st → ol.holds s.shared st
  apart : ∀ t u st su, t ≠ u → stage t = some st → stage u = some su → ol.Apart st su
  inv : ol.inv tr s.shared
  owned : ∀ r, ol.needs tr s.shared r → ∃ t st, stage t = some st ∧ ol.owns st r

/-- What is to be shown of each kind of turn. A call leads from a stage to a stage; it may change what the
thread owns, and for the stages of the others nothing changes. -/
structure Valid [DecidableEq T] (w : World K C O R X A)
    (cond : Threads K T C A R → Turn T C A R O X → Prop) : Prop where
  starts : ∀ tr s t p, cond s (.starts t p) → ol.inv tr s.shared →
    ∃ st, ol.prog st = p ∧ ol.holds s.shared st ∧ ∀ r, ¬ ol.owns st r
  calls : ∀ tr k t st c next o k' a, ol.inv tr k → ol.holds k st → ol.prog st = .call c next →
    w.call k c o = some (k', a) → ∃ st', ol.prog st' = next a ∧ ol.holds k' st' ∧
      ol.inv (tr ++ [.called t k k' c a]) k' ∧
      (∀ su, ol.holds k su → ol.Apart st su → ol.holds k' su ∧ ol.Apart st' su) ∧
      ∀ r, ol.needs (tr ++ [.called t k k' c a]) k' r → ol.owns st' r ∨ ol.needs tr k r ∧ ¬ ol.owns st r
  leaves : ∀ tr k t st r, ol.inv tr k → ol.holds k st → ol.prog st = .done r →
    ol.inv (tr ++ [.left t k r]) (w.handBack k r) ∧
      (∀ su, ol.holds k su → ol.Apart st su → ol.holds (w.handBack k r) su) ∧
      ∀ q, ol.needs (tr ++ [.left t k r]) (w.handBack k r) q → ol.needs tr k q ∧ ¬ ol.owns st q
  other : ∀ tr s x k, cond s (.other x) → ol.inv tr s.shared → w.other s.shared x = some k →
    ol.inv tr k ∧ (∀ t st, s.prog t = some (ol.prog st) → ol.holds s.shared st → ol.holds k st) ∧
      ∀ r, ol.needs tr k r → ol.needs tr s.shared r

end Outline

namespace Outline.Fits
variable {ol : Outline K T C A R S Res} {tr tr' : List (Report K T C A R)} {s : Threads K T C A R}
  {stage : T → Option S}

/-- A thread that runs a program is at a stage with this program. -/
theorem at_stage (h : ol.Fits tr s stage) {t : T} {p : Prog C A R} (hp : s.prog t = some p) :
    ∃ st, stage t = some st ∧ ol.prog st = p := by
  have hmap := h.prog t
  rw [hp] at hmap
  cases hst : stage t with
  | none =>
    rw [hst] at hmap
    cases hmap
  | some st =>
    rw [hst, Option.map_some, Option.some.injEq] at hmap
    exact ⟨st, rfl, hmap.symm⟩

/-- One thread goes to another stage, or leaves, and the rest of the stages carry over. -/
theorem moved [DecidableEq T] (h : ol.Fits tr s stage) (t : T) (st? : Option S) {k : K}
    (hinv : ol.inv tr' k) (hst : ∀ st, st? = some st → ol.holds k st)
    (hrest : ∀ u su, u ≠ t → stage u = some su → ol.holds k su ∧ ∀ st, st? = some st → ol.Apart st su)
    (hneeds : ∀ r, ol.needs tr' k r → (∃ st, st? = some st ∧ ol.owns st r) ∨
      ∃ u su, u ≠ t ∧ stage u = some su ∧ ol.owns su r) :
    ol.Fits tr' ⟨k, Function.update s.prog t (st?.map ol.prog)⟩ (Function.update stage t st?) := by
  constructor
  · intro u
    by_cases hu : u = t
    · subst hu
      simp only [Function.update_self]
    · simp only [Function.update_of_ne hu]
      exact h.prog u
  · intro u su hsu
    by_cases hu : u = t
    · subst hu
      rw [Function.update_self] at hsu
      exact hst su hsu
    · rw [Function.update_of_ne hu] at hsu
      exact (hrest u su hu hsu).1
  · intro u v su sv huv hsu hsv
    by_cases hu : u = t
    · subst hu
      rw [Function.update_self] at hsu
      rw [Function.update_of_ne huv.symm] at hsv
      exact (hrest v sv huv.symm hsv).2 su hsu
    · rw [Function.update_of_ne hu] at hsu
      by_cases hv : v = t
      · subst hv
        rw [Function.update_self] at hsv
        exact ((hrest u su hu hsu).2 sv hsv).symm
      · rw [Function.update_of_ne hv] at hsv
        exact h.apart u v su sv huv hsu hsv
  · exact hinv
  · intro r hr
    rcases hneeds r hr with ⟨st, hst?, howns⟩ | ⟨u, su, hu, hsu, howns⟩
    · exact ⟨t, st, by rw [Function.update_self, hst?], howns⟩
    · exact ⟨u, su, by rw [Function.update_of_ne hu, hsu], howns⟩

/-- What another thread owns is not lost in a turn of this one. -/
theorem owner (h : ol.Fits tr s stage) {t : T} {st : S} (hst : stage t = some st) {r : Res}
    (hneeds : ol.needs tr s.shared r) (hnot : ¬ ol.owns st r) :
    ∃ u su, u ≠ t ∧ stage u = some su ∧ ol.owns su r := by
  obtain ⟨u, su, hsu, howns⟩ := h.owned r hneeds
  refine ⟨u, su, ?_, hsu, howns⟩
  intro hut
  subst hut
  rw [hst, Option.some.injEq] at hsu
  subst hsu
  exact hnot howns

end Outline.Fits

namespace Outline.Valid
variable [DecidableEq T] {ol : Outline K T C A R S Res} {w : World K C O R X A}
  {cond : Threads K T C A R → Turn T C A R O X → Prop}

/-- One turn, of whichever kind. -/
theorem step (hv : ol.Valid w cond) {tr : List (Report K T C A R)} {s s' : Threads K T C A R}
    {stage : T → Option S} {l : Turn T C A R O X} (h : ol.Fits tr s stage) (hc : cond s l)
    (hs : w.step s l = some s') : ∃ stage', ol.Fits (tr ++ w.events s l) s' stage' := by
  rcases World.step_cases hs with ⟨t, p, rfl, hp, hev, rfl⟩ | ⟨t, o, c, next, k, a, rfl, hp, hcall, hev, rfl⟩ |
    ⟨t, r, rfl, hp, hev, rfl⟩ | ⟨x, k, rfl, hother, hev, rfl⟩
  · -- a thread starts: it owns nothing yet
    obtain ⟨st, rfl, hholds, hnothing⟩ := hv.starts tr s t p hc h.inv
    have hidle : stage t = none := by
      have hmap := h.prog t
      rw [hp] at hmap
      exact Option.map_eq_none_iff.mp hmap.symm
    rw [hev, List.append_nil]
    refine ⟨_, h.moved t (some st) h.inv ?_ ?_ ?_⟩
    · intro st' hst'
      obtain rfl := Option.some.inj hst'
      exact hholds
    · intro u su hu hsu
      refine ⟨h.holds u su hsu, ?_⟩
      intro st' hst' r howns
      obtain rfl := Option.some.inj hst'
      exact absurd howns (hnothing r)
    · intro r hr
      obtain ⟨u, su, hsu, howns⟩ := h.owned r hr
      refine Or.inr ⟨u, su, ?_, hsu, howns⟩
      intro hut
      rw [hut, hidle] at hsu
      cases hsu
  · -- a thread makes its call
    obtain ⟨st, hst, hprog⟩ := h.at_stage hp
    obtain ⟨st', hprog', hholds, hinv, hrest, hneeds⟩ :=
      hv.calls tr s.shared t st c next o k a h.inv (h.holds t st hst) hprog hcall
    rw [hev, ← hprog']
    refine ⟨_, h.moved t (some st') hinv ?_ ?_ ?_⟩
    · intro st'' hst''
      obtain rfl := Option.some.inj hst''
      exact hholds
    · intro u su hu hsu
      have hcarried := hrest su (h.holds u su hsu) (h.apart t u st su hu.symm hst hsu)
      refine ⟨hcarried.1, ?_⟩
      intro st'' hst''
      obtain rfl := Option.some.inj hst''
      exact hcarried.2
    · intro r hr
      rcases hneeds r hr with howns | ⟨hneeded, hnot⟩
      · exact Or.inl ⟨st', rfl, howns⟩
      · exact Or.inr (h.owner hst hneeded hnot)
  · -- a thread hands its result back
    obtain ⟨st, hst, hprog⟩ := h.at_stage hp
    obtain ⟨hinv, hrest, hneeds⟩ := hv.leaves tr s.shared t st r h.inv (h.holds t st hst) hprog
    rw [hev]
    refine ⟨_, h.moved t none hinv ?_ ?_ ?_⟩
    · intro st' hst'
      cases hst'
    · intro u su hu hsu
      refine ⟨hrest su (h.holds u su hsu) (h.apart t u st su hu.symm hst hsu), ?_⟩
      intro st' hst'
      cases hst'
    · intro q hq
      obtain ⟨hneeded, hnot⟩ := hneeds q hq
      exact Or.inr (h.owner hst hneeded hnot)
  · -- somebody else acts
    obtain ⟨hinv, hrest, hneeds⟩ := hv.other tr s x k hc h.inv hother
    rw [hev, List.append_nil]
    refine ⟨stage, h.prog, ?_, h.apart, hinv, fun r hr => h.owned r (hneeds r hr)⟩
    intro t st hst
    exact hrest t st (by rw [h.prog t, hst, Option.map_some]) (h.holds t st hst)

/-- The rule: in every interleaving every thread is at one of its stages. -/
theorem fits (hv : ol.Valid w cond) {k₀ : K} (hinv : ol.inv [] k₀) (hneeds : ∀ r, ¬ ol.needs [] k₀ r)
    {tr : List (Report K T C A R)} {s : Threads K T C A R} (hr : Run w.machine cond ⟨k₀, fun _ => none⟩ tr s) :
    ∃ stage, ol.Fits tr s stage := by
  apply hr.invariant fun tr s => ∃ stage, ol.Fits tr s stage
  · refine ⟨fun _ => none, fun _ => rfl, ?_, ?_, hinv, fun r hr => absurd hr (hneeds r)⟩
    · intro t st hst
      cases hst
    · intro t u st su _ hst
      cases hst
  · intro tr s l s' _ hfits hc hs
    obtain ⟨stage, h⟩ := hfits
    exact hv.step h hc hs

end Outline.Valid

end SlipstreamIO.Interleaved
