import Mathlib.Data.List.Nodup
import Mathlib.Data.List.Pairwise
import Mathlib.Tactic.Common

/-! Speakers that come and go, and what they say. A speaker may say goodbye, after which it is no
longer among the living; only the living speak, so a goodbye is a last word. -/
namespace SlipstreamIO.LastWords

variable {ι μ : Type*} (who : μ → ι) (bye : μ → Prop)

/-- Nobody says anything after a goodbye. -/
def LastWord (said : List μ) : Prop := said.Pairwise fun m m' => bye m → who m' ≠ who m

/-- What is said on the way from `live` to `live'`. -/
structure Speaks (live live' : List ι) (said : List μ) : Prop where
  sub : live'.Sublist live
  spoke : ∀ m ∈ said, who m ∈ live
  last : LastWord who bye said
  left : ∀ m ∈ said, bye m → who m ∉ live'

/-- All that was said, and who lives. -/
structure Ledger (live : List ι) (said : List μ) : Prop where
  last : LastWord who bye said
  gone : ∀ m ∈ said, bye m → who m ∉ live

variable {who bye} {live live' live'' : List ι} {said said' : List μ} {m : μ} {i : ι}

theorem LastWord.append (h : LastWord who bye said) (h' : LastWord who bye said')
    (hx : ∀ m ∈ said, bye m → ∀ m' ∈ said', who m' ≠ who m) : LastWord who bye (said ++ said') :=
  List.pairwise_append.mpr ⟨h, h', fun m hm m' hm' hb => hx m hm hb m' hm'⟩

/-- Words that are no goodbyes. -/
theorem LastWord.of_not_bye (h : ∀ m ∈ said, ¬ bye m) : LastWord who bye said := by
  apply List.pairwise_iff_forall_sublist.mpr
  intro m m' hs hb
  exact absurd hb (h m (hs.subset List.mem_cons_self))

theorem speaks_nil (hs : live'.Sublist live) : Speaks who bye live live' ([] : List μ) :=
  ⟨hs, by simp, List.Pairwise.nil, by simp⟩

/-- Words of the living that are no goodbyes. -/
theorem speaks_on (hs : live'.Sublist live) (hm : ∀ m ∈ said, who m ∈ live ∧ ¬ bye m) :
    Speaks who bye live live' said :=
  ⟨hs, fun m h => (hm m h).1, LastWord.of_not_bye fun m h => (hm m h).2,
    fun m h hb => absurd hb (hm m h).2⟩

/-- One of the living says some words, and goodbye, and is gone. -/
theorem speaks_bye (hs : live'.Sublist live) (hi : i ∈ live) (hi' : i ∉ live')
    (hsaid : ∀ m ∈ said, who m = i ∧ ¬ bye m) (hm : who m = i) :
    Speaks who bye live live' (said ++ [m]) := by
  have hall : ∀ x ∈ said ++ [m], who x = i := by
    intro x hx
    rcases List.mem_append.mp hx with hx | hx
    · exact (hsaid x hx).1
    · exact List.eq_of_mem_singleton hx ▸ hm
  refine ⟨hs, fun x hx => hall x hx ▸ hi, ?_, fun x hx _ => hall x hx ▸ hi'⟩
  apply LastWord.append (LastWord.of_not_bye fun x hx => (hsaid x hx).2) (List.pairwise_singleton _ _)
  exact fun x hx hb => absurd hb (hsaid x hx).2

theorem Speaks.trans (h : Speaks who bye live live' said) (h' : Speaks who bye live' live'' said') :
    Speaks who bye live live'' (said ++ said') := by
  refine ⟨h'.sub.trans h.sub, ?_, ?_, ?_⟩
  · intro m hm
    rcases List.mem_append.mp hm with hm | hm
    · exact h.spoke m hm
    · exact h.sub.subset (h'.spoke m hm)
  · apply h.last.append h'.last
    intro m hm hb m' hm' he
    exact h.left m hm hb (he ▸ h'.spoke m' hm')
  · intro m hm hb
    rcases List.mem_append.mp hm with hm | hm
    · exact fun hin => h.left m hm hb (h'.sub.subset hin)
    · exact h'.left m hm hb

/-- Some of the words may go unheard. -/
theorem Speaks.heard (h : Speaks who bye live live' said) (hs : said'.Sublist said) :
    Speaks who bye live live' said' :=
  ⟨h.sub, fun m hm => h.spoke m (hs.subset hm), h.last.sublist hs, fun m hm => h.left m (hs.subset hm)⟩

/-- Somebody new, who is not one that said goodbye. -/
theorem Ledger.join (h : Ledger who bye live said) (hi : ∀ m ∈ said, bye m → who m ≠ i) :
    Ledger who bye (live ++ [i]) said := by
  refine ⟨h.last, fun m hm hb hin => ?_⟩
  rcases List.mem_append.mp hin with hin | hin
  · exact h.gone m hm hb hin
  · exact hi m hm hb (List.eq_of_mem_singleton hin)

/-- What the living say is heard in part, and among words that are nobody's and no goodbyes. -/
theorem Ledger.overhear (h : Ledger who bye live said) (hs : Speaks who bye live live' said')
    {heard : List μ} {p : μ → Bool} (hp : (heard.filter p).Sublist said')
    (hn : ∀ m ∈ heard, p m = false → ¬ bye m ∧ who m ∉ live ∧ ∀ x ∈ said, bye x → who x ≠ who m) :
    Ledger who bye live' (said ++ heard) := by
  have hwords := hs.heard hp
  have hword {m : μ} (hm : m ∈ heard) (hpm : p m = true) : m ∈ heard.filter p :=
    List.mem_filter.mpr ⟨hm, hpm⟩
  constructor
  · apply h.last.append
    · apply (List.pairwise_filter.mp hwords.last).imp_of_mem
      intro m m' hm hm' hrel hb
      cases hpm : p m with
      | false => exact absurd hb (hn m hm hpm).1
      | true =>
        cases hpm' : p m' with
        | false =>
          intro he
          exact (hn m' hm' hpm').2.1 (he ▸ hwords.spoke m (hword hm hpm))
        | true => exact hrel hpm hpm' hb
    · intro m hm hb m' hm' he
      cases hpm' : p m' with
      | false => exact (hn m' hm' hpm').2.2 m hm hb he.symm
      | true => exact h.gone m hm hb (he ▸ hwords.spoke m' (hword hm' hpm'))
  · intro m hm hb
    rcases List.mem_append.mp hm with hm | hm
    · exact fun hin => h.gone m hm hb (hs.sub.subset hin)
    · cases hpm : p m with
      | false => exact absurd hb (hn m hm hpm).1
      | true => exact hwords.left m (hword hm hpm) hb

end SlipstreamIO.LastWords
