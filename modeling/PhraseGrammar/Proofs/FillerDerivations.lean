import PhraseGrammar.Cost.Exact
import PhraseGrammar.Proofs.Charges

/-! Where fillers come from. Passes over the rules overwrite fillers from which others have been
made. What a symbol is left with is still the value of a finite derivation: nothing, a word or a
declaration at every leaf, and at every other node a rule all of whose children may be left out. -/

namespace PhraseGrammar

variable {κ : Type} [Cost κ]

namespace PhraseRule

variable {rule : PhraseRule κ} {best : Fillers κ}

/-- What the rule shows of the fillers of its children, the elided child among them. -/
def shown (rule : PhraseRule κ) (fillerOf : Slot × Nat → Filler κ) : List (Filler κ) :=
  rule.withElided (rule.slots.zipIdx.map fun place => place.1.quiet (fillerOf place))

def fillerAt (rule : PhraseRule κ) (best : Fillers κ) (place : Slot × Nat) : Filler κ :=
  (rule.slotFiller? best place.1 place.2).getD .nothing

theorem fillerAt_of_optional {place : Slot × Nat}
    (allowed : rule.allowsInsertion place.1 place.2 = true) (optional : place.1.optional = true) :
    rule.fillerAt best place = .nothing := by
  rw [fillerAt, slotFiller?, allowed, optional]
  rfl

theorem of?_of_needed {place : Slot × Nat}
    (allowed : rule.allowsInsertion place.1 place.2 = true) (needed : place.1.optional = false)
    (known : (best.of? place.1.symbol).isSome = true) :
    best.of? place.1.symbol = some (rule.fillerAt best place) := by
  obtain ⟨filler, found⟩ := Option.isSome_iff_exists.mp known
  rw [fillerAt, slotFiller?, allowed, needed]
  simp only [Bool.not_true, Bool.false_eq_true, if_false, found, Option.getD_some]

theorem parts?_eq_map {parts : List (Filler κ)} (found : rule.parts? best = some parts) :
    parts = rule.slots.zipIdx.map fun place => place.1.quiet (rule.fillerAt best place) := by
  rw [← List.forall₂_eq_eq_eq, List.forall₂_map_right_iff]
  refine (mapM_eq_some.mp found).flip.imp fun part place same => ?_
  obtain ⟨filler, given, rfl⟩ := Option.map_eq_some_iff.mp same
  rw [fillerAt, given, Option.getD_some]

/-- No filler is made of those of the children: no child of the rule is ever left out, or it
declares no cost and one of its children is never left out, by its place or as a symbol. -/
def Bars (barred : Symbol → Prop) (rule : PhraseRule κ) : Prop :=
  rule.unabridged = true ∨ rule.insertionCost = none ∧ ∃ place ∈ rule.slots.zipIdx,
    rule.allowsInsertion place.1 place.2 = false ∨
      place.1.optional = false ∧ barred place.1.symbol

end PhraseRule

namespace Grammar

variable {grammar : Grammar κ} {symbol : Symbol}

/-- A symbol may be left out for a filler: by itself, by a word or a phrase that declares so, or by
a phrase all of whose children may be left out. Optional children are left out for nothing. -/
inductive FilledBy (grammar : Grammar κ) : Symbol → Filler κ → Prop
  | empty : FilledBy grammar .empty ⟨0, [], []⟩
  | zeroFiller {symbol : Symbol} {filler : Filler κ} : grammar.zeroFiller? symbol = some filler →
      FilledBy grammar symbol filler
  | word {symbol : Symbol} {rule : WordRule κ} {cost : κ} : .word rule ∈ grammar.rulesOf symbol →
      rule.insertionCost = some cost →
      FilledBy grammar symbol ⟨cost + rule.penalty, [rule.display], rule.meaning.toList⟩
  | declared {symbol : Symbol} {rule : PhraseRule κ} {cost : κ} :
      .phrase rule ∈ grammar.rulesOf symbol → rule.origin ≠ .transposition →
      rule.unabridged = false → rule.insertionCost = some cost →
      FilledBy grammar symbol {
        cost := cost + rule.cost
        text := rule.text.getD (((grammar.item? symbol).map (·.text)).getD [])
        meanings := rule.meaning.toList }
  | composed {symbol : Symbol} {rule : PhraseRule κ} {fillerOf : Slot × Nat → Filler κ}
      {meanings : List Meaning} :
      .phrase rule ∈ grammar.rulesOf symbol → rule.origin ≠ .transposition →
      rule.unabridged = false →
      (∀ place ∈ rule.slots.zipIdx, rule.allowsInsertion place.1 place.2 = true) →
      (∀ place ∈ rule.slots.zipIdx, place.1.optional = true → fillerOf place = ⟨0, [], []⟩) →
      (∀ place ∈ rule.slots.zipIdx, place.1.optional = false →
        FilledBy grammar place.1.symbol (fillerOf place)) →
      grammar.signatures.reduce? rule.meaning ((rule.shown fillerOf).flatMap (·.meanings)) =
        some meanings →
      FilledBy grammar symbol {
        cost := rule.charge (rule.slots.zipIdx.map fun place => (fillerOf place).cost)
        text := rule.text.getD ((rule.shown fillerOf).flatMap (·.text))
        meanings }

/-- What a rule makes of fillers that are derived is derived. -/
theorem filledBy_filler? {best : Fillers κ} {rule : PhraseRule κ} {filler : Filler κ}
    (mem : .phrase rule ∈ grammar.rulesOf symbol) (origin : rule.origin ≠ .transposition)
    (held : best.All grammar.FilledBy)
    (made : rule.filler? grammar.signatures (grammar.item? symbol) best = some filler) :
    grammar.FilledBy symbol filler := by
  obtain ⟨abridged, declared | composed⟩ := PhraseRule.filler?_cases made
  · obtain ⟨cost, given, rfl⟩ := Option.map_eq_some_iff.mp declared
    exact .declared mem origin abridged given
  · obtain ⟨parts, meanings, found, reduced, rfl⟩ :=
      PhraseRule.composedFiller?_eq_some.mp composed
    have filled : ∀ place ∈ rule.slots.zipIdx,
        rule.allowsInsertion place.1 place.2 = true ∧
          (place.1.optional = false → (best.of? place.1.symbol).isSome = true) := by
      intro place there
      have here := isSome_of_mapM found place there
      rwa [Option.isSome_map, PhraseRule.slotFiller?_isSome] at here
    have parts : rule.withElided parts = rule.shown (rule.fillerAt best) :=
      congrArg rule.withElided (PhraseRule.parts?_eq_map found)
    have cost : ((rule.shown (rule.fillerAt best)).foldl (fun cost part => cost + part.cost)
        rule.cost) = rule.charge (rule.slots.zipIdx.map fun place =>
          (rule.fillerAt best place).cost) := by
      simp only [PhraseRule.shown, PhraseRule.cost_withElided, List.map_map, Function.comp_def,
        Slot.cost_quiet]
    rw [parts] at reduced ⊢
    rw [cost]
    refine .composed mem origin abridged (fun place there => (filled place there).1)
      (fun place there => PhraseRule.fillerAt_of_optional (filled place there).1)
      (fun place there needed => ?_) reduced
    obtain ⟨allowed, known⟩ := filled place there
    exact held _ _ (PhraseRule.of?_of_needed allowed needed (known needed))

theorem all_filledBy (grammar : Grammar κ) : grammar.fillers.All grammar.FilledBy := by
  have seeds : grammar.seeds.All grammar.FilledBy := by
    refine all_seeds .empty .zeroFiller fun mem made => ?_
    obtain ⟨cost, given, rfl⟩ := Option.map_eq_some_iff.mp made
    exact .word mem given
  exact fillers_induction seeds filledBy_filler?

/-- No way of leaving a symbol out is open: it is not left out by itself, nor by a word, nor by any
of its phrases. -/
structure IsBarred (grammar : Grammar κ) (barred : Symbol → Prop) (symbol : Symbol) : Prop where
  notEmpty : symbol ≠ .empty
  zeroFiller : grammar.zeroFiller? symbol = none
  word : ∀ rule, .word rule ∈ grammar.rulesOf symbol → rule.insertionCost = none
  phrase : ∀ rule, .phrase rule ∈ grammar.rulesOf symbol → rule.origin ≠ .transposition →
    rule.Bars barred

theorem FilledBy.not_barred {barred : Symbol → Prop} {filler : Filler κ}
    (closed : ∀ symbol, barred symbol → grammar.IsBarred barred symbol)
    (filled : grammar.FilledBy symbol filler) : ¬ barred symbol := by
  induction filled with
  | empty => exact fun h => (closed _ h).notEmpty rfl
  | zeroFiller known => exact fun h => nomatch known.symm.trans (closed _ h).zeroFiller
  | word mem given => exact fun h => nomatch given.symm.trans ((closed _ h).word _ mem)
  | declared mem origin abridged given =>
    intro h
    rcases (closed _ h).phrase _ mem origin with unabridged | ⟨none, -⟩
    · exact nomatch abridged.symm.trans unabridged
    · exact nomatch given.symm.trans none
  | composed mem origin abridged allowed _ _ _ ih =>
    intro h
    rcases (closed _ h).phrase _ mem origin with unabridged | ⟨-, place, there, kept⟩
    · exact nomatch abridged.symm.trans unabridged
    · rcases kept with never | ⟨needed, child⟩
      · exact nomatch (allowed place there).symm.trans never
      · exact ih place there needed child

/-- Every filler is the value of a derivation. So symbols that may only be left out through children
that are never left out, or through rules that leave no child out, have no fillers. -/
theorem fillers_derived (grammar : Grammar κ) :
    (∀ symbol filler, grammar.fillers.of? symbol = some filler →
        grammar.FilledBy symbol filler) ∧
      ∀ barred : Symbol → Prop, (∀ symbol, barred symbol → grammar.IsBarred barred symbol) →
        ∀ symbol, barred symbol → grammar.fillers.of? symbol = none := by
  refine ⟨grammar.all_filledBy, fun barred closed symbol here => ?_⟩
  rw [← Option.not_isSome_iff_eq_none]
  intro known
  obtain ⟨filler, found⟩ := Option.isSome_iff_exists.mp known
  exact (grammar.all_filledBy symbol filler found).not_barred closed here

/-- A box is a shelf with a lid that is never left out, a crate is a box, and a shelf is a lid and
maybe a crate. -/
def crates : List (Operation ℚ≥0) :=
  [.newSymbol ["lid"], .newSymbol ["box"], .newSymbol ["crate"], .newSymbol ["shelf"],
    .addRule ⟨2⟩ (.word { WordRule.ofLiteral "lid" with insertionCost := some 2 }),
    .addRule ⟨3⟩ (.phrase (.ofSlots [.ofSymbol ⟨5⟩, { Slot.ofSymbol ⟨2⟩ with required := true }])),
    .addRule ⟨4⟩ (.phrase (.ofSymbols [⟨3⟩])),
    .addRule ⟨5⟩ (.phrase { PhraseRule.ofSlots [.ofSymbol ⟨2⟩,
      { Slot.ofSymbol ⟨4⟩ with optional := true }] with cost := 1 })]

/-- The lid on a shelf is left out for its cost, the box and with it the crate is not. -/
theorem crates_fillers_derived :
    (run crates).FilledBy ⟨5⟩ ⟨3, [.fixed "lid"], []⟩ ∧
      (run crates).fillers.of? ⟨3⟩ = none ∧ (run crates).fillers.of? ⟨4⟩ = none := by
  obtain ⟨derived, none⟩ := fillers_derived (run crates)
  have box : (run crates).rulesOf ⟨3⟩ = [.phrase (.ofSlots [.ofSymbol ⟨5⟩,
      { Slot.ofSymbol ⟨2⟩ with required := true }])] := by decide +kernel
  have crate : (run crates).rulesOf ⟨4⟩ = [.phrase (.ofSymbols [⟨3⟩])] := by decide +kernel
  have closed : ∀ symbol : Symbol, symbol = ⟨3⟩ ∨ symbol = ⟨4⟩ →
      (run crates).IsBarred (fun symbol => symbol = ⟨3⟩ ∨ symbol = ⟨4⟩) symbol := by
    rintro _ (rfl | rfl)
    · refine ⟨nofun, by decide +kernel, fun rule mem => ?_, fun rule mem _ => ?_⟩
      · rw [box] at mem
        exact nomatch List.mem_singleton.mp mem
      · rw [box] at mem
        obtain rfl := Rule.phrase.inj (List.mem_singleton.mp mem)
        exact .inr ⟨rfl, ({ Slot.ofSymbol ⟨2⟩ with required := true }, 1), by decide, .inl rfl⟩
    · refine ⟨nofun, by decide +kernel, fun rule mem => ?_, fun rule mem _ => ?_⟩
      · rw [crate] at mem
        exact nomatch List.mem_singleton.mp mem
      · rw [crate] at mem
        obtain rfl := Rule.phrase.inj (List.mem_singleton.mp mem)
        exact .inr ⟨rfl, (.ofSymbol ⟨3⟩, 0), by decide, .inr ⟨rfl, .inl rfl⟩⟩
  exact ⟨derived _ _ (by decide +kernel), none _ closed _ (.inl rfl), none _ closed _ (.inr rfl)⟩

end Grammar

end PhraseGrammar
