import PhraseGrammar.Proofs.Concepts

/-! How a derivation loses what refers to a concept. Rules that keep some child go on in rules that
refer to the same, and of all fillers that are left of the others a symbol keeps the best one. So a
concept falls out of use only where better fillers or better insertion rules take the places of
those that refer to it. -/

namespace PhraseGrammar

open Std

variable {κ : Type} [Cost κ]

omit [Cost κ] in
def Fillers.Extends (later vanishing : Fillers κ) : Prop :=
  ∀ symbol filler, vanishing.of? symbol = some filler → later.of? symbol = some filler

namespace PhraseRule

variable {rule left : PhraseRule κ} {vanishing later : Fillers κ} {concept : Concept}

/-- A rule is left of another when some of its children are dropped, at once or in turns. -/
inductive Shrinks (vanishing : Fillers κ) (rule : PhraseRule κ) : PhraseRule κ → Prop
  | refl : Shrinks vanishing rule rule
  | drop {left : PhraseRule κ} {earlier : Fillers κ} : Shrinks vanishing rule left →
      vanishing.Extends earlier → left.hasVanishing earlier = true → left.staying earlier ≠ [] →
      Shrinks vanishing rule (left.remainder earlier)

theorem Shrinks.eq_or_origin (h : rule.Shrinks vanishing left) :
    left = rule ∨ left.origin = .collapsed := by
  cases h with
  | refl => exact .inl rfl
  | drop => exact .inr rfl

theorem Shrinks.isIn (h : rule.Shrinks vanishing left) (few : rule.slots.length ≤ 2)
    (leaves : (Rule.phrase rule).LeavesOne) (mentions : concept.IsIn (Rule.phrase rule).meanings) :
    concept.IsIn (Rule.phrase left).meanings := by
  have kept : left.slots.length ≤ 2 ∧ (Rule.phrase left).LeavesOne ∧
      concept.IsIn (Rule.phrase left).meanings := by
    induction h with
    | refl => exact ⟨few, leaves, mentions⟩
    | drop _ _ loses some ih =>
      obtain ⟨few, leaves, mentions⟩ := ih
      have single := length_remainder few loses some
      exact ⟨by omega, fun _ => single, isIn_remainder leaves loses some mentions⟩
  exact kept.2.2

omit [Cost κ] in
theorem exists_filler (none : rule.staying vanishing = []) {slot : Slot} (mem : slot ∈ rule.slots) :
    ∃ filler, vanishing.of? slot.symbol = some filler := by
  rw [staying_eq_nil, Fillers.lasting, List.filter_eq_nil_iff] at none
  have goes := none slot mem
  rw [Bool.not_eq_true, Option.isNone_eq_false_iff] at goes
  exact Option.isSome_iff_exists.mp goes

omit [Cost κ] in
theorem staying_of_extends (more : later.Extends vanishing) (none : rule.staying vanishing = []) :
    rule.staying later = [] := by
  rw [staying_eq_nil, Fillers.lasting, List.filter_eq_nil_iff]
  intro slot mem
  obtain ⟨filler, goes⟩ := exists_filler none mem
  rw [more _ _ goes]
  exact Bool.false_ne_true

/-- The filler that is left is made of those of the children, which stay the same. -/
theorem zeroFiller_of_extends (signatures : Signatures κ) (more : later.Extends vanishing)
    (none : rule.staying vanishing = []) :
    rule.zeroFiller signatures vanishing = rule.zeroFiller signatures later := by
  have children : rule.vanishingChildren vanishing = rule.vanishingChildren later := by
    refine List.filterMap_congr fun ⟨slot, position⟩ mem => ?_
    have there : slot ∈ rule.slots := List.mem_of_getElem? (List.mem_zipIdx_iff_getElem?.mp mem)
    obtain ⟨filler, goes⟩ := exists_filler none there
    dsimp only
    rw [goes, more _ _ goes]
  rw [zeroFiller, children, ← zeroFiller]

end PhraseRule

/-- The fillers that are left of a use: a filler that is kept already, or the one that is left when a
rule loses its last children. -/
inductive Use.Leaves (signatures : Signatures κ) (vanishing : Fillers κ) :
    Use κ → Filler κ → Prop
  | kept (filler : Filler κ) : Leaves signatures vanishing (.filler filler) filler
  | dropped {rule left : PhraseRule κ} : rule.Shrinks vanishing left →
      left.staying vanishing = [] →
      Leaves signatures vanishing (.rule (.phrase rule)) (left.zeroFiller signatures vanishing)

namespace Grammar

variable {grammar left : Grammar κ} {vanishing : Fillers κ} {symbol : Symbol} {filler : Filler κ}

def KeepsAsGood (grammar : Grammar κ) (symbol : Symbol) (filler : Filler κ) : Prop :=
  ∃ best, grammar.zeroFiller? symbol = some best ∧ filler.compare best ≠ .lt

theorem keepsAsGood_of_offered [TransOrd κ] {fillers : List (Filler κ)}
    {start : Option (Filler κ)} (mem : filler ∈ start ∨ filler ∈ fillers)
    (offered : grammar.zeroFiller? symbol = fillers.foldl Filler.offer start) :
    grammar.KeepsAsGood symbol filler := by
  obtain ⟨best, there, least⟩ := Filler.exists_mem_foldl_offer mem
  exact ⟨best, offered.trans there, least⟩

theorem KeepsAsGood.collapseRound [TransOrd κ] (h : grammar.KeepsAsGood symbol filler) :
    grammar.collapseRound.1.KeepsAsGood symbol filler := by
  obtain ⟨held, known, least⟩ := h
  obtain ⟨fillers, offered, -⟩ := zeroFiller?_collapseRound grammar symbol
  obtain ⟨best, there, less⟩ := keepsAsGood_of_offered (.inl known) offered
  exact ⟨best, there, Filler.compare_ne_lt_trans least less⟩

theorem exists_shrinks_collapseRound (more : vanishing.Extends left.vanishing)
    (source : ∀ rest, .phrase rest ∈ left.rulesOf symbol →
      ∃ rule, .phrase rule ∈ grammar.rulesOf symbol ∧ rule.Shrinks vanishing rest)
    {rest : PhraseRule κ} (mem : .phrase rest ∈ left.collapseRound.1.rulesOf symbol) :
    ∃ rule, .phrase rule ∈ grammar.rulesOf symbol ∧ rule.Shrinks vanishing rest := by
  rcases of_phrase_mem_collapseRound mem with kept | ⟨before, there, rfl, loses, some⟩
  · exact source rest kept
  · obtain ⟨rule, mem, shrinks⟩ := source before there
    exact ⟨rule, mem, shrinks.drop more loses some⟩

/-- What a round keeps that drops what vanishes to the end, all rounds keep. -/
theorem IsSound.afterCollapses_induction {Q : Grammar κ → Prop} (sound : grammar.IsSound)
    (start : Q grammar)
    (round : ∀ {left : Grammar κ}, vanishing.Extends left.vanishing → Q left →
      Q left.collapseRound.1)
    {rounds : Nat} (more : vanishing.Extends (grammar.afterCollapses rounds).vanishing) :
    Q (grammar.afterCollapses rounds) := by
  induction rounds with
  | zero => exact start
  | succ rounds ih =>
    have next : grammar.afterCollapses (rounds + 1) =
        (grammar.afterCollapses rounds).collapseRound.1 :=
      Function.iterate_succ_apply' _ rounds grammar
    rw [next] at more ⊢
    have earlier : vanishing.Extends (grammar.afterCollapses rounds).vanishing :=
      fun child filler goes =>
        more child filler ((sound.afterCollapses rounds).vanishing_collapseRound goes)
    exact round earlier (ih earlier)

theorem IsSound.exists_shrinks_afterCollapses (sound : grammar.IsSound) {rounds : Nat}
    (more : vanishing.Extends (grammar.afterCollapses rounds).vanishing) {rest : PhraseRule κ}
    (mem : .phrase rest ∈ (grammar.afterCollapses rounds).rulesOf symbol) :
    ∃ rule, .phrase rule ∈ grammar.rulesOf symbol ∧ rule.Shrinks vanishing rest :=
  sound.afterCollapses_induction
    (Q := fun now => ∀ rest, .phrase rest ∈ now.rulesOf symbol →
      ∃ rule, .phrase rule ∈ grammar.rulesOf symbol ∧ rule.Shrinks vanishing rest)
    (fun rest mem => ⟨rest, mem, .refl⟩)
    (fun more source _ mem => exists_shrinks_collapseRound more source mem) more rest mem

theorem IsSound.exists_shrinks_collapse {count : Nat} (sound : grammar.IsSound)
    (h : grammar.collapse = (left, .ok count)) {rest : PhraseRule κ}
    (mem : .phrase rest ∈ left.rulesOf symbol) :
    ∃ rule, .phrase rule ∈ grammar.rulesOf symbol ∧ rule.Shrinks left.vanishing rest := by
  obtain ⟨rfl, -, -⟩ := collapseRounds_ok h
  exact sound.exists_shrinks_afterCollapses (fun _ _ goes => goes) mem

/-- How the uses of a symbol go on while children are dropped that vanish in the end. -/
structure Condenses (vanishing : Fillers κ) (symbol : Symbol) (grammar left : Grammar κ) :
    Prop where
  signatures : left.signatures = grammar.signatures
  filler : ∀ filler, grammar.zeroFiller? symbol = some filler → left.KeepsAsGood symbol filler
  word : ∀ rule, .word rule ∈ grammar.rulesOf symbol → .word rule ∈ left.rulesOf symbol
  phrase : ∀ rule, .phrase rule ∈ grammar.rulesOf symbol →
    (∃ rest, rule.Shrinks vanishing rest ∧ .phrase rest ∈ left.rulesOf symbol) ∨
      ∃ filler, (Use.rule (.phrase rule)).Leaves grammar.signatures vanishing filler ∧
        left.KeepsAsGood symbol filler
  /-- Whatever is there is left of something. -/
  source : ∀ rest, .phrase rest ∈ left.rulesOf symbol →
    ∃ rule, .phrase rule ∈ grammar.rulesOf symbol ∧ rule.Shrinks vanishing rest
  origin : ∀ filler, left.zeroFiller? symbol = some filler →
    ∃ use, grammar.HasUse symbol use ∧ use.Leaves grammar.signatures vanishing filler

namespace Condenses

theorem refl [TransOrd κ] (vanishing : Fillers κ) (symbol : Symbol) (grammar : Grammar κ) :
    grammar.Condenses vanishing symbol grammar where
  signatures := rfl
  filler filler known := ⟨filler, known, Filler.compare_ne_lt_self filler⟩
  word _ mem := mem
  phrase rule mem := .inl ⟨rule, .refl, mem⟩
  source rule mem := ⟨rule, mem, .refl⟩
  origin filler known := ⟨.filler filler, known, .kept filler⟩

theorem collapseRound [TransOrd κ] (h : Condenses vanishing symbol grammar left)
    (more : vanishing.Extends left.vanishing) :
    Condenses vanishing symbol grammar left.collapseRound.1 where
  signatures := h.signatures
  filler filler known := (h.filler filler known).collapseRound
  word rule mem := word_mem_collapseRound.mpr (h.word rule mem)
  phrase rule mem := by
    rcases h.phrase rule mem with ⟨rest, shrinks, there⟩ | ⟨filler, leaves, held⟩
    · rcases phrase_collapseRound_cases there with kept | ⟨none, fillers, offer, offered⟩ |
        ⟨loses, some, changed⟩
      · exact .inl ⟨rest, shrinks, kept⟩
      · rw [PhraseRule.zeroFiller_of_extends _ more none, h.signatures] at offer
        exact .inr ⟨_, .dropped shrinks (PhraseRule.staying_of_extends more none),
          keepsAsGood_of_offered (.inr offer) offered⟩
      · exact .inl ⟨_, shrinks.drop more loses some, changed⟩
    · exact .inr ⟨filler, leaves, held.collapseRound⟩
  source _ mem := exists_shrinks_collapseRound more h.source mem
  origin filler known := by
    rcases of_zeroFiller?_collapseRound known with old | ⟨rest, there, none, rfl⟩
    · exact h.origin filler old
    · obtain ⟨rule, mem, shrinks⟩ := h.source rest there
      refine ⟨.rule (.phrase rule), mem, ?_⟩
      rw [PhraseRule.zeroFiller_of_extends _ more none, h.signatures]
      exact .dropped shrinks (PhraseRule.staying_of_extends more none)

theorem collapse [TransOrd κ] {count : Nat} (sound : grammar.IsSound)
    (h : grammar.collapse = (left, .ok count)) (symbol : Symbol) :
    Condenses left.vanishing symbol grammar left := by
  obtain ⟨rfl, -, -⟩ := collapseRounds_ok h
  exact sound.afterCollapses_induction (.refl _ symbol grammar)
    (fun more condenses => condenses.collapseRound more) fun _ _ goes => goes

end Condenses

theorem of_derive_ok {derived : Grammar κ} {tally : Tally}
    (h : grammar.derive = (derived, .ok tally)) :
    ∃ left count, grammar.collapse = (left, .ok count) ∧ derived.bare = left.bare ∧
      derived.vanishing = left.vanishing ∧
      ∀ symbol, ∀ rule ∈ left.rulesOf symbol, ∃ now ∈ derived.rulesOf symbol,
        rule.Becomes grammar.nameOf now := by
  rcases derive_eq grammar with ⟨left, fault, -, done⟩ | ⟨left, count, collapse, done⟩
  · rw [done] at h
    exact nomatch (Prod.mk.inj h).2
  · rw [done] at h
    obtain ⟨rfl, -⟩ := Prod.mk.inj h
    have lengthened := lengthened_insertionRounds (left.size + 1) left count
    obtain ⟨frame, -⟩ := insertionRounds_frame (left.size + 1) left (.ofCollapsed count)
    have name : left.nameOf = grammar.nameOf := by
      have names := (collapse_names grammar).2
      rw [collapse] at names
      exact funext names
    generalize (insertionRounds (left.size + 1) left (.ofCollapsed count)).1 = grown
      at lengthened frame ⊢
    refine ⟨left, count, collapse, bare_transpose.trans lengthened.bare,
      (sameEmpty_transpose grown).vanishing_eq.trans frame, fun symbol rule mem => ?_⟩
    obtain ⟨now, there, becomes⟩ := (lengthened.rules symbol).exists_becomes mem
    obtain ⟨added, rules, -⟩ := (appended_transpose grown).rules symbol
    exact ⟨now, rules ▸ List.mem_append_left _ there, name ▸ becomes⟩

/-- What became of a use of a concept that a derivation lost. -/
inductive Loses (grammar derived : Grammar κ) (symbol : Symbol) (concept : Concept) :
    Use κ → Prop
  /-- A better insertion rule has taken the place of an insertion rule. -/
  | replaced {old new : PhraseRule κ} : old.Yields grammar.nameOf new →
      .phrase new ∈ derived.rulesOf symbol → ¬ (Use.rule (.phrase new)).Mentions concept →
      Loses grammar derived symbol concept (.rule (.phrase old))
  /-- The symbol keeps a better filler, that is left of another use of its own. -/
  | outbid {use other : Use κ} {filler best : Filler κ} :
      use.Leaves grammar.signatures derived.vanishing filler →
      derived.zeroFiller? symbol = some best → best.compare filler = .lt →
      grammar.HasUse symbol other → other.Leaves grammar.signatures derived.vanishing best →
      ¬ other.Mentions concept → Loses grammar derived symbol concept use

section Lost

variable {derived : Grammar κ} {concept : Concept} {use : Use κ}

theorem IsSound.isIn_of_leaves (sound : grammar.IsSound) (single : grammar.AllRules Rule.LeavesOne)
    (has : grammar.HasUse symbol use) (leaves : use.Leaves grammar.signatures vanishing filler)
    (mentions : use.Mentions concept) : concept.IsIn filler.meanings := by
  cases leaves with
  | kept =>
    rcases mentions with inside | ⟨_, none, _⟩
    · exact inside
    · exact nomatch none
  | @dropped rule left shrinks none =>
    rcases mentions with inside | ⟨_, none, _⟩
    · have few := PhraseRule.IsSound.length_le (sound.rule has)
      exact PhraseRule.isIn_zeroFiller _ (shrinks.isIn few (single symbol _ has) inside)
    · exact nomatch none

/-- Where the symbol keeps no filler that refers to the concept, it keeps a better one. -/
theorem Condenses.outbid [TransOrd κ] [LawfulEqOrd κ] (sound : grammar.IsSound)
    (single : grammar.AllRules Rule.LeavesOne)
    (condenses : Condenses derived.vanishing symbol grammar left) (bare : derived.bare = left.bare)
    (forgotten : ∀ best, derived.zeroFiller? symbol = some best → ¬ concept.IsIn best.meanings)
    (leaves : use.Leaves grammar.signatures derived.vanishing filler)
    (inside : concept.IsIn filler.meanings) (held : left.KeepsAsGood symbol filler) :
    grammar.Loses derived symbol concept use := by
  obtain ⟨best, known, least⟩ := held
  obtain ⟨other, has, comes⟩ := condenses.origin best known
  have kept : derived.zeroFiller? symbol = some best := (zeroFiller?_eq_of_bare bare symbol).trans known
  have absent := forgotten best kept
  have apart : filler ≠ best := fun same => absent (same ▸ inside)
  exact .outbid leaves kept (Filler.compare_lt_of_ne least apart) has comes
    fun mentions => absent (sound.isIn_of_leaves single has comes mentions)

/-- A symbol that refers to a concept no more has lost each of its uses. -/
theorem IsSound.loses_of_derive [TransOrd κ] [LawfulEqOrd κ] (sound : grammar.IsSound)
    (single : grammar.AllRules Rule.LeavesOne) (names : grammar.AllRules Rule.NamesElided)
    {tally : Tally} (h : grammar.derive = (derived, .ok tally))
    (forgotten : ∀ use, derived.HasUse symbol use → ¬ use.Mentions concept)
    (has : grammar.HasUse symbol use) (mentions : use.Mentions concept) :
    grammar.Loses derived symbol concept use := by
  obtain ⟨left, count, collapse, bare, vanishing, becomes⟩ := of_derive_ok h
  have condenses := Condenses.collapse sound collapse symbol
  rw [← vanishing] at condenses
  have fillers : ∀ best, derived.zeroFiller? symbol = some best → ¬ concept.IsIn best.meanings :=
    fun best known inside => forgotten (.filler best) known (.inl inside)
  have outbid : ∀ {filler}, use.Leaves grammar.signatures derived.vanishing filler →
      left.KeepsAsGood symbol filler → grammar.Loses derived symbol concept use :=
    fun leaves held => condenses.outbid sound single bare fillers leaves
      (sound.isIn_of_leaves single has leaves mentions) held
  cases use with
  | filler filler => exact outbid (.kept filler) (condenses.filler filler has)
  | rule rule =>
    cases rule with
    | word rule =>
      obtain ⟨now, there, stays⟩ := becomes symbol _ (condenses.word rule has)
      obtain rfl := stays.eq_of_origin nofun
      exact absurd mentions (forgotten (.rule (.word rule)) there)
    | phrase rule =>
      rcases condenses.phrase rule has with ⟨rest, shrinks, mem⟩ | ⟨filler, leaves, held⟩
      · have few := PhraseRule.IsSound.length_le (sound.rule has)
        have inside := mentions.resolve_right nofun
        have rests := shrinks.isIn few (single symbol _ has) inside
        obtain ⟨now, there, stays⟩ := becomes symbol _ mem
        by_cases inserted : rest.origin = .insertion
        · rcases shrinks.eq_or_origin with rfl | collapsed
          · rcases stays.eq_or_yields (names symbol _ has inserted) with rfl | ⟨last, rfl, yields⟩
            · exact absurd mentions (forgotten _ there)
            · exact .replaced yields there (forgotten _ there)
          · exact nomatch inserted.symm.trans collapsed
        · obtain rfl := stays.eq_of_origin inserted
          exact absurd (.inl rests) (forgotten (.rule (.phrase rest)) there)
      · exact outbid leaves held

end Lost

/-- After every run with plain rules and a derivation that is not refused: what is reported to be
unused, and was not before, has lost all of its uses. An insertion rule that referred to it gave its
place to a better one, and where its symbol could match the empty text with it, the symbol keeps a
better filler, left of something that does not refer to it. -/
theorem run_derive_reports [TransOrd κ] [LawfulEqOrd κ] {operations : List (Operation κ)}
    (plain : ∀ operation ∈ operations, operation.IsPlain) {derived : Grammar κ} {tally : Tally}
    (h : (run operations).derive = (derived, .ok tally)) {concept : Concept}
    (before : ¬ (run operations).Reports concept) (after : derived.Reports concept) :
    (run operations).InUse concept ∧
      ∀ symbol use, (run operations).reachable.contains symbol = true →
        (run operations).HasUse symbol use → use.Mentions concept →
        (run operations).Loses derived symbol concept use := by
  have sound := IsSound.run (κ := κ) operations
  have single := run_leavesOne plain
  have names := run_namesElided plain
  have reachable := (run_derive_findings operations plain).1
  generalize run operations = grammar at *
  obtain ⟨declares, unused⟩ := reports_iff.mp after
  have same : grammar.SameDeclarations derived := by
    have derives := SameDeclarations.derive grammar
    rwa [h] at derives
  have declared := same.declares_iff.mp declares
  refine ⟨Classical.byContradiction fun idle => before (reports_iff.mpr ⟨declared, idle⟩), ?_⟩
  intro symbol use within has mentions
  have still : derived.reachable.contains symbol = true := by
    have found := (reachable symbol (sound.ne_empty_of_hasUse has)).mpr within
    rwa [h] at found
  exact sound.loses_of_derive single names h
    (fun use has mentions => unused ⟨symbol, use, still, has, mentions⟩) has mentions

def gesture : PhraseRule Float :=
  { PhraseRule.ofSymbols [.empty] with cost := 1, meaning := some (.argument "polite") }

/-- A word and a gap, where nothing is said or a gesture is made. -/
def gestureOrNothing : List (Operation Float) :=
  [.declareArgument "polite" 0, .newSymbol ["word"], .newSymbol ["gap"],
    .addRule ⟨2⟩ (.word (.ofLiteral "hello")), .addRule .start (.phrase (.ofSymbols [⟨2⟩, ⟨3⟩])),
    .addRule ⟨3⟩ (.phrase gesture), .addRule ⟨3⟩ (.phrase (.ofSymbols [.empty, .empty]))]

theorem isPlain_gesture : (Rule.phrase gesture).IsPlain := ⟨rfl, rfl, rfl⟩

theorem gestureOrNothing_isPlain : ∀ operation ∈ gestureOrNothing, operation.IsPlain := by
  simp only [gestureOrNothing, List.forall_mem_cons]
  exact ⟨trivial, trivial, trivial, Rule.isPlain_ofLiteral, Rule.isPlain_ofSlots,
    isPlain_gesture, Rule.isPlain_ofSlots, List.forall_mem_nil _⟩

/-- To say nothing is cheaper than the gesture, which is lost. -/
theorem gestureOrNothing_derive_reports :
    (∀ operation ∈ gestureOrNothing, operation.IsPlain) ∧
      (run gestureOrNothing).derive.2 = .ok ⟨3, 0, 0, 0, 1, true⟩ ∧
      ¬ (run gestureOrNothing).Reports (.meaning "polite") ∧
      (run gestureOrNothing).derive.1.Reports (.meaning "polite") ∧
      (run gestureOrNothing).Loses (run gestureOrNothing).derive.1 ⟨3⟩ (.meaning "polite")
        (.rule (.phrase gesture)) := by
  have done : (run gestureOrNothing).derive.2 = .ok ⟨3, 0, 0, 0, 1, true⟩ := by decide +kernel
  have before : ¬ (run gestureOrNothing).Reports (.meaning "polite") := by decide +kernel
  have after : (run gestureOrNothing).derive.1.Reports (.meaning "polite") := by decide +kernel
  have within : (run gestureOrNothing).reachable.contains ⟨3⟩ = true := by decide +kernel
  have has : (run gestureOrNothing).HasUse ⟨3⟩ (.rule (.phrase gesture)) := by
    change .phrase gesture ∈ (run gestureOrNothing).rulesOf ⟨3⟩
    decide +kernel
  have mentions : (Use.rule (.phrase gesture)).Mentions (.meaning "polite") :=
    .inl ⟨.argument "polite", List.mem_singleton_self _, List.mem_singleton_self _⟩
  have derived : (run gestureOrNothing).derive =
      ((run gestureOrNothing).derive.1, .ok ⟨3, 0, 0, 0, 1, true⟩) := Prod.ext rfl done
  obtain ⟨-, lost⟩ := run_derive_reports gestureOrNothing_isPlain derived before after
  exact ⟨gestureOrNothing_isPlain, done, before, after, lost ⟨3⟩ _ within has mentions⟩

/-- The gap matches a word too, and nothing is said only after a first derivation. -/
def gestureThenNothing : List (Operation Float) :=
  [.declareArgument "polite" 0, .newSymbol ["word"], .newSymbol ["gap"],
    .addRule ⟨2⟩ (.word (.ofLiteral "hello")), .addRule .start (.phrase (.ofSymbols [⟨2⟩, ⟨3⟩])),
    .addRule ⟨3⟩ (.word (.ofLiteral "please")), .addRule ⟨3⟩ (.phrase gesture), .derive,
    .addRule ⟨3⟩ (.phrase (.ofSymbols [.empty]))]

theorem gestureThenNothing_isPlain : ∀ operation ∈ gestureThenNothing, operation.IsPlain := by
  simp only [gestureThenNothing, List.forall_mem_cons]
  exact ⟨trivial, trivial, trivial, Rule.isPlain_ofLiteral, Rule.isPlain_ofSlots,
    Rule.isPlain_ofLiteral, isPlain_gesture, trivial, Rule.isPlain_ofSlots,
    List.forall_mem_nil _⟩

/-- The rule by which the first derivation leaves out the gap keeps a reference as well. -/
def gestureLeftOut : PhraseRule Float :=
  { PhraseRule.ofSymbols [⟨2⟩] with
    cost := 1, origin := .insertion
    elided := some ⟨1, ⟨3⟩, ⟨1, [], [.argument "polite"]⟩⟩ }

/-- A first derivation can forget what is referred to. A second one can forget it together with an
insertion rule of the first. -/
theorem gestures_forgotten :
    ((∀ operation ∈ gestureOrNothing, operation.IsPlain) ∧
      (∃ tally, (run gestureOrNothing).derive.2 = .ok tally) ∧
      ¬ (run gestureOrNothing).Reports (.meaning "polite") ∧
      (run gestureOrNothing).derive.1.Reports (.meaning "polite")) ∧
    (∀ operation ∈ gestureThenNothing, operation.IsPlain) ∧
      (∃ tally, (run gestureThenNothing).derive.2 = .ok tally) ∧
      .phrase gestureLeftOut ∈ (run gestureThenNothing).rulesOf .start ∧
      (Use.rule (.phrase gestureLeftOut)).Mentions (.meaning "polite") ∧
      ¬ (run gestureThenNothing).Reports (.meaning "polite") ∧
      (run gestureThenNothing).derive.1.Reports (.meaning "polite") := by
  have first : (run gestureOrNothing).derive.2 = .ok ⟨3, 0, 0, 0, 1, true⟩ := by decide +kernel
  have second : (run gestureThenNothing).derive.2 = .ok ⟨1, 0, 1, 0, 2, true⟩ := by decide +kernel
  have held : .phrase gestureLeftOut ∈ (run gestureThenNothing).rulesOf .start := by
    decide +kernel
  have mentions : (Use.rule (.phrase gestureLeftOut)).Mentions (.meaning "polite") :=
    .inl ⟨.argument "polite", List.mem_singleton_self _, List.mem_singleton_self _⟩
  exact ⟨⟨gestureOrNothing_isPlain, ⟨_, first⟩, by decide +kernel, by decide +kernel⟩,
    gestureThenNothing_isPlain, ⟨_, second⟩, held, mentions, by decide +kernel, by decide +kernel⟩

end Grammar

end PhraseGrammar
