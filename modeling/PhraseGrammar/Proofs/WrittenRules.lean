import Mathlib.Data.List.Forall2
import Mathlib.Data.List.Sort
import Mathlib.Data.Option.Basic
import PhraseGrammar.Artifact.Basic

/-! What an artifact says of a rule, field by field, with symbols read as names. There is one written
rule of which all of it is true, and it is the one that the artifact has. -/

namespace PhraseGrammar

variable {κ : Type} {nameOf : Symbol → String} {test : Slot → Bool} {positions : List Nat}

/-- The positions of the slots for which a test holds, each of them once and in ascending order. -/
structure PhraseRule.MarkedAt (rule : PhraseRule κ) (test : Slot → Bool)
    (positions : List Nat) : Prop where
  ascending : positions.Pairwise (· < ·)
  mem : ∀ position, position ∈ positions ↔
    ∃ slot, rule.slots[position]? = some slot ∧ test slot = true

structure Elided.IsWrittenAs (nameOf : Symbol → String) (elided : Elided κ)
    (written : ArtifactElided κ) : Prop where
  position : written.position = elided.position
  symbol : written.symbol = nameOf elided.symbol
  filler : written.filler = elided.filler

structure WordRule.IsWrittenAs (rule : WordRule κ) (written : ArtifactRule κ) : Prop where
  isWord : written.isWord = true
  side : written.side = [rule.literal]
  cost : written.cost = rule.penalty
  text : written.text = rule.text.toList
  tense : written.tense = rule.tense
  insertionCost : written.insertionCost = rule.insertionCost
  meaning : written.meaning = rule.meaning
  category : written.category = rule.category
  range : written.range = rule.range
  -- What follows is about phrases, and nothing is said of it.
  agreement : written.agreement = .none
  transpositionCost : written.transpositionCost = none
  origin : written.origin = .authored
  elided : written.elided = none
  optionalPositions : written.optionalPositions = []
  silentPositions : written.silentPositions = []

structure PhraseRule.IsWrittenAs (nameOf : Symbol → String) (rule : PhraseRule κ)
    (written : ArtifactRule κ) : Prop where
  isWord : written.isWord = false
  side : List.Forall₂ (fun slot name => nameOf slot.symbol = name) rule.slots written.side
  cost : written.cost = rule.cost
  -- No text and an empty one are written alike.
  text : written.text = rule.text.getD []
  insertionCost : written.insertionCost = rule.insertionCost
  meaning : written.meaning = rule.meaning
  agreement : written.agreement = rule.agreement
  transpositionCost : written.transpositionCost = rule.transpositionCost
  origin : written.origin = rule.origin
  elided : Option.Rel (Elided.IsWrittenAs nameOf) rule.elided written.elided
  optionalPositions : rule.MarkedAt (·.optional) written.optionalPositions
  silentPositions : rule.MarkedAt (·.silent) written.silentPositions
  -- What follows is about words, and nothing is said of it.
  tense : written.tense = none
  category : written.category = none
  range : written.range = none

/-- All that a written rule says is said of the rule, and nothing else is said. -/
def Rule.IsWrittenAs (nameOf : Symbol → String) : Rule κ → ArtifactRule κ → Prop
  | .word rule => rule.IsWrittenAs
  | .phrase rule => rule.IsWrittenAs nameOf

theorem PhraseRule.mem_positionsWhere {rule : PhraseRule κ} {position : Nat} :
    position ∈ rule.positionsWhere test ↔
      ∃ slot, rule.slots[position]? = some slot ∧ test slot = true := by
  simp only [positionsWhere, List.mem_map, List.mem_filter, List.mem_zipIdx_iff_getElem?]
  constructor
  · rintro ⟨⟨slot, _⟩, ⟨there, marked⟩, rfl⟩
    exact ⟨slot, there, marked⟩
  · rintro ⟨slot, there, marked⟩
    exact ⟨(slot, position), ⟨there, marked⟩, rfl⟩

theorem PhraseRule.markedAt_positionsWhere (rule : PhraseRule κ) (test : Slot → Bool) :
    rule.MarkedAt test (rule.positionsWhere test) where
  ascending := by
    have numbers : (rule.slots.zipIdx.map (·.2)).Pairwise (· < ·) := by
      rw [List.zipIdx_map_snd]
      exact List.pairwise_lt_range'
    exact numbers.sublist (List.filter_sublist.map _)
  mem _ := mem_positionsWhere

theorem PhraseRule.markedAt_iff {rule : PhraseRule κ} :
    rule.MarkedAt test positions ↔ rule.positionsWhere test = positions := by
  have marked := rule.markedAt_positionsWhere test
  constructor
  · intro h
    exact marked.ascending.eq_of_mem_iff h.ascending fun position =>
      (marked.mem position).trans (h.mem position).symm
  · rintro rfl
    exact marked

namespace Grammar

variable {grammar : Grammar κ} {written : ArtifactRule κ}

theorem elided_isWrittenAs_iff {elided : Elided κ} {written : ArtifactElided κ} :
    elided.IsWrittenAs grammar.nameOf written ↔ grammar.artifactElided elided = written := by
  constructor
  · intro h
    cases written
    simp only [artifactElided, ArtifactElided.mk.injEq]
    exact ⟨h.position.symm, h.symbol.symm, h.filler.symm⟩
  · rintro rfl
    exact ⟨rfl, rfl, rfl⟩

theorem elided?_isWrittenAs_iff {elided : Option (Elided κ)} {written : Option (ArtifactElided κ)} :
    Option.Rel (Elided.IsWrittenAs grammar.nameOf) elided written ↔
      elided.map grammar.artifactElided = written := by
  constructor
  · rintro (same | _)
    · exact congrArg some (elided_isWrittenAs_iff.mp same)
    · rfl
  · rintro rfl
    cases elided with
    | none => exact .none
    | some elided => exact .some (elided_isWrittenAs_iff.mpr rfl)

theorem names_forall₂_iff {rule : PhraseRule κ} {names : List String} :
    List.Forall₂ (fun slot name => grammar.nameOf slot.symbol = name) rule.slots names ↔
      rule.symbols.map grammar.nameOf = names := by
  rw [← List.forall₂_eq_eq_eq, PhraseRule.symbols, List.map_map, List.forall₂_map_left_iff]
  rfl

theorem word_isWrittenAs_iff {rule : WordRule κ} :
    rule.IsWrittenAs written ↔ grammar.artifactRule (.word rule) = written := by
  constructor
  · intro h
    cases written
    simp only [artifactRule, ArtifactRule.mk.injEq]
    exact ⟨h.isWord.symm, h.side.symm, h.cost.symm, h.text.symm, h.tense.symm,
      h.insertionCost.symm, h.meaning.symm, h.agreement.symm, h.transpositionCost.symm,
      h.origin.symm, h.elided.symm, h.optionalPositions.symm, h.silentPositions.symm,
      h.category.symm, h.range.symm⟩
  · rintro rfl
    constructor <;> rfl

theorem phrase_isWrittenAs_iff {rule : PhraseRule κ} :
    rule.IsWrittenAs grammar.nameOf written ↔ grammar.artifactRule (.phrase rule) = written := by
  constructor
  · intro h
    cases written
    simp only [artifactRule, ArtifactRule.mk.injEq]
    exact ⟨h.isWord.symm, names_forall₂_iff.mp h.side, h.cost.symm, h.text.symm, h.tense.symm,
      h.insertionCost.symm, h.meaning.symm, h.agreement.symm, h.transpositionCost.symm,
      h.origin.symm, elided?_isWrittenAs_iff.mp h.elided,
      PhraseRule.markedAt_iff.mp h.optionalPositions, PhraseRule.markedAt_iff.mp h.silentPositions,
      h.category.symm, h.range.symm⟩
  · rintro rfl
    exact {
      isWord := rfl
      side := names_forall₂_iff.mpr rfl
      cost := rfl
      text := rfl
      insertionCost := rfl
      meaning := rfl
      agreement := rfl
      transpositionCost := rfl
      origin := rfl
      elided := elided?_isWrittenAs_iff.mpr rfl
      optionalPositions := rule.markedAt_positionsWhere _
      silentPositions := rule.markedAt_positionsWhere _
      tense := rfl
      category := rfl
      range := rfl }

/-- Of a rule one thing is written, and it says all of it. -/
theorem isWrittenAs_iff {rule : Rule κ} :
    rule.IsWrittenAs grammar.nameOf written ↔ grammar.artifactRule rule = written := by
  cases rule with
  | word rule => exact word_isWrittenAs_iff
  | phrase rule => exact phrase_isWrittenAs_iff

theorem forall₂_isWrittenAs_iff {rules : List (Rule κ)} {written : List (ArtifactRule κ)} :
    List.Forall₂ (Rule.IsWrittenAs grammar.nameOf) rules written ↔
      rules.map grammar.artifactRule = written := by
  have same : Rule.IsWrittenAs grammar.nameOf =
      fun rule written => grammar.artifactRule rule = written := by
    funext rule written
    exact propext isWrittenAs_iff
  rw [same, ← List.forall₂_eq_eq_eq, List.forall₂_map_left_iff]

end Grammar

end PhraseGrammar
