import PhraseGrammar.Proofs.ClosedArtifacts
import PhraseGrammar.Proofs.Findings

/-! Collapsing leads to a normal form, in which no rule has a child that matches only the empty
text. Nothing bounds the rounds but the children that there are to drop; what insertion and
transposition add later leaves the grammar in normal form, and what vanished stays empty. -/

namespace PhraseGrammar

variable {κ : Type} [Cost κ]

namespace Grammar

variable {grammar grown : Grammar κ} {symbol child : Symbol}
  {outcome : Grammar κ × Except (Fault κ) Nat}

/-- How collapsing ends that goes on until a round drops nothing or is refused. -/
inductive CollapsesTo : Grammar κ → Grammar κ × Except (Fault κ) Nat → Prop
  | done {grammar left : Grammar κ} : grammar.collapseRound = (left, .ok 0) →
      CollapsesTo grammar (left, .ok 0)
  | refused {grammar left : Grammar κ} {fault : Fault κ} :
      grammar.collapseRound = (left, .error fault) → CollapsesTo grammar (left, .error fault)
  | again {grammar next left : Grammar κ} {count : Nat} {result : Except (Fault κ) Nat} :
      grammar.collapseRound = (next, .ok (count + 1)) → CollapsesTo next (left, result) →
      CollapsesTo grammar (left, result.map (count + 1 + ·))

/-- Rounds come to an end, since each but the last one leaves fewer children. -/
theorem collapsesTo_collapseRounds {rounds : Nat} (enough : grammar.slotCount < rounds) :
    grammar.CollapsesTo (collapseRounds rounds grammar) := by
  induction rounds generalizing grammar with
  | zero => exact absurd enough (Nat.not_lt_zero _)
  | succ rounds ih =>
    match round : grammar.collapseRound with
    | (left, .error fault) =>
      rw [collapseRounds_of_error rounds round]
      exact .refused round
    | (left, .ok 0) =>
      obtain ⟨rfl, idle⟩ := collapseRound_zero round
      rw [collapseRounds_of_isCollapsed rounds idle]
      exact .done round
    | (left, .ok (count + 1)) =>
      have busy : ¬ grammar.IsCollapsed := by
        intro idle
        rw [collapseRound_of_isCollapsed idle] at round
        exact nomatch Except.ok.inj (Prod.mk.inj round).2
      have fewer := collapseRound_slotCount_lt busy round
      rw [collapseRounds_of_ok rounds busy round]
      exact .again round (ih (by omega))

theorem CollapsesTo.eq_collapseRounds (h : grammar.CollapsesTo outcome) {rounds : Nat}
    (enough : grammar.slotCount < rounds) : outcome = collapseRounds rounds grammar := by
  induction h generalizing rounds with
  | done round =>
    obtain ⟨rounds, rfl⟩ := Nat.exists_eq_succ_of_ne_zero (Nat.ne_zero_of_lt enough)
    obtain ⟨rfl, idle⟩ := collapseRound_zero round
    rw [collapseRounds_of_isCollapsed rounds idle]
  | refused round =>
    obtain ⟨rounds, rfl⟩ := Nat.exists_eq_succ_of_ne_zero (Nat.ne_zero_of_lt enough)
    rw [collapseRounds_of_error rounds round]
  | again round _ ih =>
    obtain ⟨rounds, rfl⟩ := Nat.exists_eq_succ_of_ne_zero (Nat.ne_zero_of_lt enough)
    have fewer := collapseRound_slotCount_le round
    rw [collapseRounds, round]
    simp only [← ih (show _ < rounds by omega)]

/-- The bounded rounds that are computed end as unbounded ones do. -/
theorem collapsesTo_iff : grammar.CollapsesTo outcome ↔ outcome = grammar.collapse := by
  constructor
  · exact fun h => h.eq_collapseRounds (Nat.lt_succ_self _)
  · rintro rfl
    exact collapsesTo_collapseRounds (Nat.lt_succ_self _)

omit [Cost κ] in
/-- No rule of any symbol has as a child the empty symbol or one that matches only the empty
text. -/
def IsNormal (grammar : Grammar κ) : Prop :=
  ∀ symbol rule, .phrase rule ∈ grammar.rulesOf symbol →
    ∀ child ∈ rule.symbols, grammar.matchesOnlyEmpty child = false

theorem isSome_vanishing (known : symbol.index < grammar.size) :
    (grammar.vanishing.of? symbol).isSome = grammar.matchesOnlyEmpty symbol := by
  rw [vanishing_of?, if_pos known]
  by_cases empty : symbol = .empty
  · simp only [empty, matchesOnlyEmpty, if_true, Option.isSome_some, decide_true, Bool.true_or]
  · rw [if_neg empty]
    by_cases only : grammar.matchesOnlyEmpty symbol = true
    · rw [if_pos only, only]
      simp only [matchesOnlyEmpty, empty, decide_false, Bool.false_or, Bool.and_eq_true] at only
      exact only.1
    · rw [if_neg only, Option.isSome_none, Bool.eq_false_of_not_eq_true only]

/-- In a sound grammar, rounds come to rest in normal forms and nowhere else. -/
theorem IsSound.isCollapsed_iff_isNormal (h : grammar.IsSound) :
    grammar.IsCollapsed ↔ grammar.IsNormal := by
  have vanishes : ∀ {symbol rule}, .phrase rule ∈ grammar.rulesOf symbol →
      ∀ child ∈ rule.symbols,
        (grammar.vanishing.of? child).isSome = grammar.matchesOnlyEmpty child := by
    intro symbol rule mem child there
    exact isSome_vanishing (PhraseRule.IsSound.children (h.rule mem) child there)
  rw [isCollapsed_iff]
  constructor
  · intro collapsed symbol rule mem child there
    have stays : rule.hasVanishing grammar.vanishing = false := collapsed symbol _ mem
    rw [← vanishes mem child there]
    exact Bool.not_eq_true _ ▸ List.any_eq_false.mp stays child there
  · intro normal symbol rule mem
    cases rule with
    | word word => rfl
    | phrase rule =>
      refine List.any_eq_false.mpr fun child there => ?_
      rw [vanishes mem child there, normal symbol rule mem child there]
      exact Bool.false_ne_true

structure Vanishes (grammar grown : Grammar κ) : Prop where
  sound : grown.IsSound
  vanished : ∀ symbol, ∀ child ∈ grown.vanishedOf symbol,
    child ∈ grammar.vanishedOf symbol ∨ (grown.vanishing.of? child).isSome = true

namespace Vanishes

theorem collapseRound (h : grammar.Vanishes grown) : grammar.Vanishes grown.collapseRound.1 where
  sound := h.sound.collapseRound
  vanished symbol child mem := by
    have stays : (grown.vanishing.of? child).isSome = true →
        (grown.collapseRound.1.vanishing.of? child).isSome = true := by
      intro some
      obtain ⟨filler, vanishes⟩ := Option.isSome_iff_exists.mp some
      rw [h.sound.vanishing_collapseRound vanishes, Option.isSome_some]
    rcases collapseRound_cases grown symbol with same | ⟨before, found, collapsed⟩
    · rw [vanishedOf, same, ← vanishedOf] at mem
      exact (h.vanished symbol child mem).imp_right stays
    · have now : child ∈ (before.collapsed grown.signatures grown.vanishing).vanished := by
        rwa [vanishedOf, collapsed] at mem
      rw [Entry.collapsed, mem_eraseReps, List.mem_mergeSort, List.mem_append] at now
      rcases now with old | gone
      · refine (h.vanished symbol child ?_).imp_right stays
        rwa [vanishedOf, found]
      · obtain ⟨rule, -, -, vanishes, -⟩ := Entry.mem_gone.mp gone
        exact .inr (stays vanishes)

theorem sameEmpty {last : Grammar κ} (h : grammar.Vanishes grown) (same : grown.SameEmpty last)
    (sound : last.IsSound) : grammar.Vanishes last where
  sound
  vanished symbol child mem := by
    rw [vanishedOf_eq_of_bare same.bare] at mem
    rw [same.vanishing_eq]
    exact h.vanished symbol child mem

theorem derive (sound : grammar.IsSound) : grammar.Vanishes grammar.derive.1 :=
  derive_induction (Q := grammar.Vanishes) collapseRound
    (fun h => h.sameEmpty (sameEmpty_insertionRound _) h.sound.insertionRound)
    (fun h => h.sameEmpty (sameEmpty_transpose _) h.sound.transpose)
    ⟨sound, fun _ _ => .inl⟩

end Vanishes

theorem IsSound.matchesOnlyEmpty_of_vanishing (h : grammar.IsSound)
    (vanishes : (grammar.vanishing.of? symbol).isSome = true) :
    grammar.matchesOnlyEmpty symbol = true ∧
      ∀ tokens, grammar.Matches symbol tokens ↔ tokens = [] := by
  obtain ⟨none, known⟩ := h.of_vanishing vanishes
  refine ⟨?_, fun tokens => matches_iff_of_rulesOf_eq_nil none known⟩
  rw [matchesEmpty] at known
  rw [matchesOnlyEmpty, none, List.isEmpty_nil, Bool.and_true]
  exact known

/-- What can be relied on when a grammar is collapsed, and when it is derived. -/
structure EndsNormal (grammar : Grammar κ) : Prop where
  /-- Collapsing comes to an end without a bound, and to one only. -/
  ends : ∀ outcome, grammar.CollapsesTo outcome ↔ outcome = grammar.collapse
  collapse : ∀ left count, grammar.CollapsesTo (left, .ok count) → left.IsNormal
  derive : ∀ tally, grammar.derive.2 = .ok tally →
    grammar.derive.1.IsNormal ∧ grammar.derive.1.collapse = (grammar.derive.1, .ok 0)
  /-- Also when the derivation is refused. -/
  vanished : ∀ symbol, ∀ child ∈ grammar.derive.1.vanishedOf symbol,
    child ∉ grammar.vanishedOf symbol →
      grammar.derive.1.matchesOnlyEmpty child = true ∧
        ∀ tokens, grammar.derive.1.Matches child tokens ↔ tokens = []

theorem IsSound.endsNormal (h : grammar.IsSound) : grammar.EndsNormal where
  ends _ := collapsesTo_iff
  collapse left count ended := by
    have same := collapsesTo_iff.mp ended
    have sound : grammar.collapse.1.IsSound := collapse_induction IsSound.collapseRound h
    rw [← same] at sound
    exact sound.isCollapsed_iff_isNormal.mp (collapse_isCollapsed same.symm)
  derive tally ok := by
    have collapsed : grammar.derive.1.IsCollapsed := derive_isCollapsed (Prod.ext rfl ok)
    exact ⟨h.derive.isCollapsed_iff_isNormal.mp collapsed, collapse_of_isCollapsed collapsed⟩
  vanished symbol child mem fresh := by
    have vanishes := (Vanishes.derive h).vanished symbol child mem
    exact h.derive.matchesOnlyEmpty_of_vanishing (vanishes.resolve_left fresh)

/-- After every run, whatever rules it offers, collapsing ends in a normal form or with a fault;
derivation keeps the normal form, and what it finds vanished matches only the empty text. -/
theorem run_endsNormal (operations : List (Operation κ)) : (run operations).EndsNormal :=
  (IsSound.run operations).endsNormal

/-- A word with a polite one before it, for which there is nothing to match. -/
def politeSentence : List (Operation Float) :=
  [.newSymbol ["word"], .newSymbol ["please"], .newSymbol ["polite"],
    .addRule ⟨2⟩ (.word (.ofLiteral "hello")),
    .addRule ⟨3⟩ (.phrase { PhraseRule.ofSymbols [.empty] with
      cost := 1, text := some [.fixed "please"] }),
    .addRule ⟨4⟩ (.phrase { PhraseRule.ofSymbols [⟨3⟩] with cost := 0.25 }),
    .addRule .start (.phrase (.ofSymbols [⟨4⟩, ⟨2⟩]))]

/-- The symbols vanish one after the other, each in a round of its own. -/
theorem politeSentence_endsNormal :
    (run politeSentence).vanishedOf .start = [] ∧
      (run politeSentence).derive.2 = .ok ⟨3, 0, 0, 0, 1, true⟩ ∧
      (run politeSentence).derive.1.vanishedOf .start = [⟨4⟩] ∧
      (run politeSentence).derive.1.IsNormal ∧
      (run politeSentence).derive.1.collapse = ((run politeSentence).derive.1, .ok 0) ∧
      ∀ tokens, (run politeSentence).derive.1.Matches ⟨4⟩ tokens ↔ tokens = [] := by
  have before : (run politeSentence).vanishedOf .start = [] := by decide +kernel
  have ok : (run politeSentence).derive.2 = .ok ⟨3, 0, 0, 0, 1, true⟩ := by decide +kernel
  have after : (run politeSentence).derive.1.vanishedOf .start = [⟨4⟩] := by decide +kernel
  obtain ⟨-, -, derive, vanished⟩ := run_endsNormal politeSentence
  obtain ⟨normal, again⟩ := derive _ ok
  refine ⟨before, ok, after, normal, again, (vanished .start ⟨4⟩ ?_ ?_).2⟩
  · rw [after]
    exact List.mem_singleton_self _
  · rw [before]
    exact List.not_mem_nil

end Grammar

end PhraseGrammar
