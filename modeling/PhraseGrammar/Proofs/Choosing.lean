import PhraseGrammar.Proofs.Orders

/-! The choice of fillers. Their order is linear, and of several fillers that are offered one after
the other the foremost one stays, in whatever order they come. -/

namespace PhraseGrammar

open Std

namespace Filler

variable {κ : Type} [Cost κ]

structure IsForemost (fillers : List (Filler κ)) (foremost : Filler κ) : Prop where
  mem : foremost ∈ fillers
  le : ∀ other ∈ fillers, (foremost.compare other).isLE = true

variable [TransOrd κ]

variable {a b : Filler κ} {fillers : List (Filler κ)}

theorem compare_isLE_total (a b : Filler κ) :
    (a.compare b).isLE = true ∨ (b.compare a).isLE = true := by
  by_cases less : a.compare b = .lt
  · exact .inl (less ▸ rfl)
  · exact .inr (compare_isLE_iff.mpr less)

variable [LawfulEqOrd κ]

theorem IsForemost.unique (ha : IsForemost fillers a) (hb : IsForemost fillers b) : a = b :=
  compare_eq_eq.mp (OrientedCmp.isLE_antisymm (ha.le b hb.mem) (hb.le a ha.mem))

/-- Of several offers the foremost one stays. -/
theorem foldl_offer_eq_some_iff : fillers.foldl offer none = some a ↔ IsForemost fillers a := by
  have stays : ∀ {best}, fillers.foldl offer none = some best → IsForemost fillers best := by
    intro best left
    refine ⟨(mem_foldl_offer left).resolve_left nofun, fun other mem => ?_⟩
    have offered : other ∈ (none : Option (Filler κ)) ∨ other ∈ fillers := .inr mem
    obtain ⟨least, here, behind⟩ := exists_mem_foldl_offer offered
    obtain rfl := Option.mem_unique here left
    exact compare_isLE_iff.mpr behind
  refine ⟨stays, fun foremost => ?_⟩
  have some := (isSome_foldl_offer fillers none).mpr (.inr (List.ne_nil_of_mem foremost.mem))
  obtain ⟨best, left⟩ := Option.isSome_iff_exists.mp some
  rw [left, (stays left).unique foremost]

omit [TransOrd κ] [LawfulEqOrd κ] in
theorem foldl_offer_eq_none_iff : fillers.foldl offer none = none ↔ fillers = [] := by
  rw [← Option.not_isSome_iff_eq_none, isSome_foldl_offer, not_or, Classical.not_not]
  exact and_iff_right nofun

/-- Which filler stays does not depend on the order of the offers. -/
theorem foldl_offer_perm {others : List (Filler κ)} (same : others.Perm fillers) :
    others.foldl offer none = fillers.foldl offer none := by
  cases left : fillers.foldl offer none with
  | none =>
    rw [foldl_offer_eq_none_iff] at left ⊢
    exact (left ▸ same).eq_nil
  | some best =>
    obtain ⟨mem, le⟩ := foldl_offer_eq_some_iff.mp left
    exact foldl_offer_eq_some_iff.mpr
      ⟨same.mem_iff.mpr mem, fun other there => le other (same.mem_iff.mp there)⟩

/-- Where costs are in a linear order, fillers are: none ties but with itself, all are comparable,
and the order is transitive. Of several offers the foremost one stays, whatever their order. -/
theorem compare_linear :
    ((∀ a : Filler κ, a.compare a = .eq) ∧
      (∀ a b : Filler κ, a.compare b = .eq → a = b) ∧
      (∀ a b : Filler κ, a.compare b = (b.compare a).swap) ∧
      (∀ a b : Filler κ, (a.compare b).isLE = true ∨ (b.compare a).isLE = true) ∧
      ∀ a b c : Filler κ, (a.compare b).isLE = true → (b.compare c).isLE = true →
        (a.compare c).isLE = true) ∧
    ∀ offers : List (Filler κ),
      (∀ best, offers.foldl offer none = some best ↔ IsForemost offers best) ∧
      (offers.foldl offer none = none ↔ offers = []) ∧
      ∀ others : List (Filler κ), others.Perm offers →
        others.foldl offer none = offers.foldl offer none := by
  refine ⟨⟨fun _ => ReflCmp.compare_self, fun _ _ => compare_eq_eq.mp,
    fun _ _ => OrientedCmp.eq_swap, compare_isLE_total, fun _ _ _ => TransCmp.isLE_trans⟩, ?_⟩
  exact fun offers => ⟨fun _ => foldl_offer_eq_some_iff, foldl_offer_eq_none_iff,
    fun _ => foldl_offer_perm⟩

def greeting (meanings : List Meaning) : Filler Float :=
  ⟨0.5, [.verb ⟨"greet", "greets", "greet", "greeted"⟩], meanings⟩

/-- Two words, a pronoun and two verbs, all at one cost. -/
def greetings : List (Filler Float) :=
  [⟨0.5, [.fixed "good", .fixed "day"], []⟩,
    ⟨0.5, [.pronoun ⟨"I", "me"⟩], [.argument "me"]⟩,
    greeting [.apply "greet" [.argument "me", .entity "user"]],
    greeting [.apply "greet" [.argument "me"]]]

/-- A single text comes before two, a verb before a pronoun, and of the verbs the one with fewer
arguments comes first. -/
theorem greetings_foldl_offer :
    greetings.foldl offer none = some (greeting [.apply "greet" [.argument "me"]]) ∧
      greetings.reverse.foldl offer none =
        some (greeting [.apply "greet" [.argument "me"]]) := by
  obtain ⟨foremost, -, order⟩ := (compare_linear (κ := Float)).2 greetings
  have left := (foremost (greeting [.apply "greet" [.argument "me"]])).mpr
    ⟨by decide +kernel, by decide +kernel⟩
  exact ⟨left, (order _ (List.reverse_perm _)).trans left⟩

end Filler

end PhraseGrammar
