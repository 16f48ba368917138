import PhraseGrammar.Proofs.Electing
import PhraseGrammar.Proofs.Settling

/-! Insertion is complete. Where the rounds have settled, every pair that can leave out a child has
left one out: the rule with the other child alone is there, and no worse than the one that the pair
would still offer. Transposition rules, which come later, change nothing about it. -/

namespace PhraseGrammar

open Std

variable {κ : Type} [Cost κ]

namespace PhraseRule

instance [TransOrd κ] : OrientedCmp (compareElided (κ := κ)) where
  eq_swap {a b} := by
    cases a <;> cases b <;> first | rfl | exact OrientedOrd.eq_swap (α := Filler κ)

instance [TransOrd κ] :
    OrientedCmp fun a b : PhraseRule κ => compareElided a.elided b.elided where
  eq_swap := OrientedCmp.eq_swap

instance [TransOrd κ] (nameOf : Symbol → String) :
    OrientedCmp (PhraseRule.compare (κ := κ) nameOf) := by
  unfold PhraseRule.compare
  infer_instance

end PhraseRule

namespace Grammar

variable [TransOrd κ] {grammar derived : Grammar κ}

theorem IsSound.not_gt_of_offered (h : grammar.IsSound)
    (still : grammar.insertionRound.2 = .none) {symbol : Symbol} {rule made : PhraseRule κ}
    (mem : .phrase rule ∈ grammar.rulesOf symbol)
    (offered : rule.insertion? grammar.fillers = some made) :
    (∃ present ∈ grammar.rulesOf symbol, present.side = .phrase made.symbols) ∧
      ∀ other, .phrase other ∈ grammar.rulesOf symbol → other.symbols = made.symbols →
        other.origin = .insertion → other.compare grammar.nameOf made ≠ .gt := by
  have declines : grammar.Declines (symbol, made) :=
    insertionRound_eq_iff.mp still _ (mem_insertionOffers.mpr ⟨rule, mem, offered⟩)
  obtain ⟨present, there, side, kept⟩ := (declines_iff (h.apart symbol)).mp declines
  refine ⟨⟨present, there, side⟩, fun other here same origin => ?_⟩
  obtain rfl : .phrase other = present :=
    (h.apart symbol).eq_of_side here there (side ▸ congrArg Side.phrase same)
  have not_lt := PhraseRule.supersedes_eq_false.mp kept origin
  exact fun gt => not_lt (OrientedCmp.lt_of_gt gt)

omit [TransOrd κ] in
/-- A derivation that settles leaves nothing to insert, transposition rules included. -/
theorem insertionRound_of_settled {tally : Tally} (h : grammar.derive = (derived, .ok tally))
    (settled : tally.settled = true) : derived.insertionRound.2 = .none := by
  rcases derive_eq grammar with ⟨left, fault, -, done⟩ | ⟨left, count, -, done⟩
  · rw [done] at h
    exact nomatch (Prod.mk.inj h).2
  · rw [done] at h
    obtain ⟨rfl, ok⟩ := Prod.mk.inj h
    have last : (insertionRounds (left.size + 1) left (.ofCollapsed count)).1.insertionRound.2 =
        .none := by
      refine insertionRounds_settled rfl rfl ?_
      rw [← Except.ok.inj ok] at settled
      exact settled
    have transposes :=
      transposes_transpose (insertionRounds (left.size + 1) left (.ofCollapsed count)).1
    rw [insertionRound_eq_iff, transposes.fillers_eq, transposes.insertionOffers_eq]
    exact fun source mem => transposes.declines (insertionRound_eq_iff.mp last source mem)

/-- After a derivation that settles, every authored pair of which some child may be left out has
the rule with the other child alone beside it, where the child to leave out is the one that the
final fillers elect. If that is an insertion rule, it is not behind the one that leaves out this
child with its final filler. -/
theorem run_derive_complete {operations : List (Operation κ)} {tally : Tally}
    (ok : (run operations).derive.2 = .ok tally) (settled : tally.settled = true)
    {symbol : Symbol} {rule : PhraseRule κ} {pair : Slot × Slot} {qualified : Place}
    (mem : .phrase rule ∈ (run operations).derive.1.rulesOf symbol)
    (authored : rule.origin = .authored) (abridged : rule.unabridged = false)
    (slots : rule.slots = [pair.1, pair.2])
    (fills : (rule.slotFiller? (run operations).derive.1.fillers (qualified.of pair)
      qualified.position).isSome = true) :
    (∃ place filler, rule.Elects (run operations).derive.1.fillers pair place filler) ∧
      ∀ place filler, rule.Elects (run operations).derive.1.fillers pair place filler →
        (∃ present ∈ (run operations).derive.1.rulesOf symbol,
          present.side = .phrase [(place.other.of pair).symbol]) ∧
        ∀ made, .phrase made ∈ (run operations).derive.1.rulesOf symbol →
          made.symbols = [(place.other.of pair).symbol] → made.origin = .insertion →
          made.compare (run operations).derive.1.nameOf (rule.eliding pair place filler) ≠ .gt := by
  have sound : (run operations).derive.1.IsSound := (IsSound.run operations).derive
  have still := insertionRound_of_settled (Prod.ext rfl ok) settled
  refine ⟨PhraseRule.exists_elects fills, fun place filler elects => ?_⟩
  have offered : rule.insertion? (run operations).derive.1.fillers =
      some (rule.eliding pair place filler) :=
    PhraseRule.insertion?_iff_offers.mpr
      ⟨authored, abridged, pair, place, filler, slots, elects, rfl⟩
  exact sound.not_gt_of_offered still mem offered

/-- A sentence is a word with a mark after it. Both may be left out, the mark at less cost. -/
def cheapMark : List (Operation Float) :=
  [.newSymbol ["word"], .newSymbol ["mark"],
    .addRule ⟨2⟩ (.word { WordRule.ofLiteral "word" with insertionCost := some 2 }),
    .addRule ⟨3⟩ (.word { WordRule.ofLiteral "mark" with insertionCost := some 1 }),
    .addRule .start (.phrase (.ofSymbols [⟨2⟩, ⟨3⟩]))]

/-- The sentence also matches the word alone, and leaves out the mark. -/
theorem cheapMark_derive_complete :
    (run cheapMark).derive.2 = .ok ⟨0, 1, 0, 0, 2, true⟩ ∧
      (PhraseRule.ofSymbols [⟨2⟩, ⟨3⟩]).Elects (run cheapMark).derive.1.fillers
        (.ofSymbol ⟨2⟩, .ofSymbol ⟨3⟩) .second ⟨1, [.fixed "mark"], []⟩ ∧
      ∃ present ∈ (run cheapMark).derive.1.rulesOf .start, present.side = .phrase [⟨2⟩] := by
  have ok : (run cheapMark).derive.2 = .ok ⟨0, 1, 0, 0, 2, true⟩ := by decide +kernel
  have mem : .phrase (.ofSymbols [⟨2⟩, ⟨3⟩]) ∈ (run cheapMark).derive.1.rulesOf .start := by
    decide +kernel
  have word : (run cheapMark).derive.1.fillers.of? ⟨2⟩ = some ⟨2, [.fixed "word"], []⟩ := by
    decide +kernel
  have mark : (run cheapMark).derive.1.fillers.of? ⟨3⟩ = some ⟨1, [.fixed "mark"], []⟩ := by
    decide +kernel
  have elects : (PhraseRule.ofSymbols [⟨2⟩, ⟨3⟩]).Elects (run cheapMark).derive.1.fillers
      (.ofSymbol ⟨2⟩, .ofSymbol ⟨3⟩) .second ⟨1, [.fixed "mark"], []⟩ := by
    refine ⟨mark, fun other same => ?_⟩
    obtain rfl := Option.some.inj (word.symm.trans same)
    decide +kernel
  have complete := run_derive_complete ok rfl mem rfl rfl (by rfl)
    (Option.isSome_iff_exists.mpr ⟨_, elects.fills⟩)
  exact ⟨ok, elects, (complete.2 .second _ elects).1⟩

end Grammar

end PhraseGrammar
