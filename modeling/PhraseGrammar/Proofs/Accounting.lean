import Mathlib.Algebra.BigOperators.Group.List.Basic
import PhraseGrammar.Proofs.BestOffers
import PhraseGrammar.Proofs.Rewriting

/-! What a derivation does to a grammar, and that its tally is right. Nothing but rules is touched;
of the rules of a symbol those that keep all their children come first, then those that are
rewritten, then new insertion rules, then new transposition rules. -/

namespace PhraseGrammar

open Std

variable {κ : Type}

namespace Grammar

/-- Two grammars have the same symbols, under the same names and as the same items, and the same
functions, arguments and categories. -/
structure SameDeclarations (grammar other : Grammar κ) : Prop where
  size : other.size = grammar.size
  name : ∀ symbol, other.nameOf symbol = grammar.nameOf symbol
  item : ∀ symbol, other.item? symbol = grammar.item? symbol
  signatures : other.signatures = grammar.signatures
  categories : other.categories = grammar.categories

namespace SameDeclarations

variable {grammar other last : Grammar κ}

theorem refl (grammar : Grammar κ) : grammar.SameDeclarations grammar :=
  ⟨rfl, fun _ => rfl, fun _ => rfl, rfl, rfl⟩

theorem trans (h : grammar.SameDeclarations other) (h' : other.SameDeclarations last) :
    grammar.SameDeclarations last where
  size := h'.size.trans h.size
  name symbol := (h'.name symbol).trans (h.name symbol)
  item symbol := (h'.item symbol).trans (h.item symbol)
  signatures := h'.signatures.trans h.signatures
  categories := h'.categories.trans h.categories

theorem of_bare (h : other.bare = grammar.bare) : grammar.SameDeclarations other where
  size := size_eq_of_bare h
  name := nameOf_eq_of_bare h
  item := item?_eq_of_bare h
  signatures := signatures_eq_of_bare h
  categories := congrArg (fun bare => bare.categories) h

variable [Cost κ]

theorem collapseRound (grammar : Grammar κ) :
    grammar.SameDeclarations grammar.collapseRound.1 where
  size := size_collapseRound grammar
  name := nameOf_collapseRound grammar
  item symbol := by
    rcases collapseRound_cases grammar symbol with same | ⟨before, found, collapsed⟩
    · rw [item?, same, ← item?]
    · rw [item?, item?, collapsed, found]
      rfl
  signatures := rfl
  categories := rfl

theorem derive (grammar : Grammar κ) : grammar.SameDeclarations grammar.derive.1 :=
  derive_induction (Q := fun derived => grammar.SameDeclarations derived)
    (fun h => h.trans (.collapseRound _)) (fun h => h.trans (.of_bare (bare_insertWith _)))
    (fun h => h.trans (.of_bare bare_transpose)) (.refl grammar)

end SameDeclarations

end Grammar

structure PhraseRule.Yields [Cost κ] (nameOf : Symbol → String) (old new : PhraseRule κ) :
    Prop where
  was : old.origin = .insertion
  made : new.origin = .insertion
  elided : new.elided.isSome = true
  symbols : new.symbols = old.symbols
  better : new.compare nameOf old = .lt

namespace Rule

variable [Cost κ] {nameOf : Symbol → String} {old new : Rule κ}

/-- A rule that is there still, or that gave its place to better ones. -/
inductive Becomes (nameOf : Symbol → String) (old : Rule κ) : Rule κ → Prop
  | same : Becomes nameOf old old
  | yields {held new : PhraseRule κ} : Becomes nameOf old (.phrase held) →
      held.Yields nameOf new → Becomes nameOf old (.phrase new)

theorem Becomes.eq_of_origin (h : Becomes nameOf old new) (origin : old.origin ≠ .insertion) :
    new = old := by
  induction h with
  | same => rfl
  | yields _ yields same => exact absurd (same ▸ yields.was) origin

theorem Becomes.side_eq (h : Becomes nameOf old new) : new.side = old.side := by
  induction h with
  | same => rfl
  | yields _ yields same => exact (congrArg Side.phrase yields.symbols).trans same

theorem Becomes.origin_eq (h : Becomes nameOf old new) : new.origin = old.origin := by
  induction h with
  | same => rfl
  | yields _ yields same => exact (yields.made.trans yields.was.symm).trans same

/-- Where it is known what a rule leaves out, what becomes of the rule is better than the rule
itself, and not only than the last one in between. -/
theorem Becomes.eq_or_yields [TransOrd κ] {first : PhraseRule κ}
    (h : Becomes nameOf (.phrase first) new) (elided : first.elided.isSome = true) :
    new = .phrase first ∨ ∃ last, new = .phrase last ∧ first.Yields nameOf last := by
  induction h with
  | same => exact .inl rfl
  | @yields held last _ yields ih =>
    refine .inr ⟨last, rfl, ?_⟩
    rcases ih with same | ⟨_, same, before⟩
    · exact Rule.phrase.inj same ▸ yields
    · obtain rfl := Rule.phrase.inj same
      exact {
        was := before.was
        made := yields.made
        elided := yields.elided
        symbols := yields.symbols.trans before.symbols
        better := PhraseRule.compare_lt_trans yields.elided before.elided elided yields.better
          (PhraseRule.compare_asymm before.elided elided before.better) }

/-- Rules that keep their places, with more insertion rules behind them. -/
def Lengthens (nameOf : Symbol → String) (old now : List (Rule κ)) : Prop :=
  ∃ (held : List (Rule κ)) (added : List (PhraseRule κ)), now = held ++ added.map .phrase ∧
    List.Forall₂ (Becomes nameOf) old held ∧ ∀ rule ∈ added, rule.origin = .insertion

theorem Lengthens.refl (rules : List (Rule κ)) : Lengthens nameOf rules rules :=
  ⟨rules, [], (List.append_nil _).symm, List.forall₂_same.mpr fun _ _ => .same,
    fun _ mem => absurd mem List.not_mem_nil⟩

theorem forall₂_set {α β : Type} {R : α → β → Prop} {xs : List α} {ys : List β} {i : Nat} {y z : β}
    (h : List.Forall₂ R xs ys) (found : ys[i]? = some y) (next : ∀ x, R x y → R x z) :
    List.Forall₂ R xs (ys.set i z) := by
  induction h generalizing i with
  | nil => exact .nil
  | cons head tail ih =>
    cases i with
    | zero =>
      obtain rfl := Option.some.inj found
      exact .cons (next _ head) tail
    | succ i => exact .cons head (ih found)

theorem Lengthens.offerRule {now : List (Rule κ)} {old : List (Rule κ)} {rule : PhraseRule κ}
    (h : Lengthens nameOf old now) (origin : rule.origin = .insertion)
    (elided : rule.elided.isSome = true) : Lengthens nameOf old (offerRule nameOf rule now).1 := by
  obtain ⟨held, added, rfl, keeps, made⟩ := h
  rcases offerRule_cases nameOf rule (held ++ added.map .phrase) with
    ⟨-, done⟩ | ⟨before, present, after, same, symbols, was, better, done⟩ | ⟨-, done⟩
  · refine ⟨held, added ++ [rule], ?_, keeps, fun other mem => ?_⟩
    · rw [done, List.map_append, List.append_assoc]
      rfl
    · rcases List.mem_append.mp mem with mem | mem
      · exact made other mem
      · exact List.mem_singleton.mp mem ▸ origin
  · -- The list is the same but for one place, which is among the old rules or among the new ones.
    have placed : before ++ .phrase rule :: after =
        (held ++ added.map Rule.phrase).set before.length (.phrase rule) := by
      rw [same, List.set_append_right _ _ (Nat.le_refl _), Nat.sub_self, List.set_cons_zero]
    have found : (held ++ added.map Rule.phrase)[before.length]? = some (.phrase present) := by
      rw [same, List.getElem?_append_right (Nat.le_refl _), Nat.sub_self]
      rfl
    rw [done, placed]
    by_cases front : before.length < held.length
    · rw [List.getElem?_append_left front] at found
      refine ⟨held.set before.length (.phrase rule), added, List.set_append_left _ _ front, ?_, made⟩
      exact forall₂_set keeps found fun _ becomes =>
        becomes.yields ⟨was, origin, elided, symbols.symm, better⟩
    · refine ⟨held, added.set (before.length - held.length) rule, ?_, keeps, fun other mem => ?_⟩
      · rw [List.set_append_right _ _ (Nat.le_of_not_lt front), List.map_set]
      · rcases List.mem_or_eq_of_mem_set mem with mem | rfl
        · exact made other mem
        · exact origin
  · exact ⟨held, added, by rw [done], keeps, made⟩

theorem Lengthens.exists_becomes {now old : List (Rule κ)} {rule : Rule κ}
    (h : Lengthens nameOf old now) (mem : rule ∈ old) : ∃ new ∈ now, Becomes nameOf rule new := by
  obtain ⟨held, added, rfl, keeps, -⟩ := h
  obtain ⟨new, here, becomes⟩ := exists_of_mem_left keeps mem
  exact ⟨new, List.mem_append_left _ here, becomes⟩

end Rule

theorem sum_modify {α : Type} (size : α → Nat) (change : α → α) {xs : List α} {i : Nat} {x : α}
    (found : xs[i]? = some x) :
    ((xs.modify i change).map size).sum + size x = (xs.map size).sum + size (change x) := by
  induction xs generalizing i with
  | nil => exact nomatch found
  | cons head tail ih =>
    cases i with
    | zero =>
      obtain rfl := Option.some.inj found
      simp only [List.modify_zero_cons, List.map_cons, List.sum_cons]
      omega
    | succ i =>
      have rest := ih (i := i) found
      simp only [List.modify_succ_cons, List.map_cons, List.sum_cons]
      omega

theorem length_offerRule [Cost κ] (nameOf : Symbol → String) (rule : PhraseRule κ)
    (rules : List (Rule κ)) (changes : Grammar.Changes) :
    (offerRule nameOf rule rules).1.length + changes.added =
      rules.length + (changes.record (offerRule nameOf rule rules).2).added := by
  rcases offerRule_cases nameOf rule rules with
    ⟨-, done⟩ | ⟨before, present, after, rfl, -, -, -, done⟩ | ⟨-, done⟩
  all_goals rw [done]
  · simp only [List.length_append, List.length_singleton, Grammar.Changes.record]
    omega
  · simp only [List.length_append, List.length_cons, Grammar.Changes.record]
  · rfl

namespace Grammar

variable {grammar : Grammar κ} {symbol : Symbol}

theorem ruleCount_setRules (known : symbol.index < grammar.size) (rules : List (Rule κ)) :
    (grammar.setRules symbol rules).ruleCount + (grammar.rulesOf symbol).length =
      grammar.ruleCount + rules.length := by
  obtain ⟨entry, found⟩ := Option.isSome_iff_exists.mp (entryOf?_isSome.mpr known)
  rw [ruleCount, ruleCount, List.length_flatMap, List.length_flatMap, rulesOf_eq found]
  exact sum_modify (fun entry => entry.rules.length) (fun entry => { entry with rules }) found

theorem nodup_symbols (grammar : Grammar κ) : grammar.symbols.Nodup :=
  List.Pairwise.map Symbol.mk (fun _ _ other same => other (Symbol.mk.inj same)) List.nodup_range

theorem ruleCount_eq_sum (grammar : Grammar κ) :
    grammar.ruleCount = (grammar.symbols.map fun symbol => (grammar.rulesOf symbol).length).sum := by
  have entries : grammar.entries.map (fun entry => entry.rules.length) =
      grammar.symbols.map fun symbol => (grammar.rulesOf symbol).length := by
    refine List.ext_getElem? fun index => ?_
    rw [symbols, List.map_map, List.getElem?_map, List.getElem?_map]
    by_cases known : index < grammar.size
    · obtain ⟨entry, found⟩ : ∃ entry, grammar.entries[index]? = some entry :=
        ⟨_, List.getElem?_eq_getElem known⟩
      have here : grammar.entryOf? ⟨index⟩ = some entry := found
      rw [found, List.getElem?_range known, Option.map_some, Option.map_some,
        Function.comp_apply, rulesOf_eq here]
    · have outside := Nat.le_of_not_lt known
      rw [List.getElem?_eq_none outside, List.getElem?_eq_none (by simpa using outside)]
      rfl
  rw [ruleCount, List.length_flatMap, entries]

variable [Cost κ]

structure Lengthened (grammar grown : Grammar κ) (count : Nat) : Prop where
  bare : grown.bare = grammar.bare
  rules : ∀ symbol, Rule.Lengthens grammar.nameOf (grammar.rulesOf symbol) (grown.rulesOf symbol)
  count : grown.ruleCount = grammar.ruleCount + count

theorem Lengthened.refl (grammar : Grammar κ) : grammar.Lengthened grammar 0 :=
  ⟨rfl, fun _ => .refl _, rfl⟩

theorem Lengthened.offer {count : Nat} {state : Grammar κ × Changes}
    {source : Symbol × PhraseRule κ} (h : grammar.Lengthened state.1 (count + state.2.added))
    (known : source.1.index < grammar.size) (origin : source.2.origin = .insertion)
    (elided : source.2.elided.isSome = true) :
    grammar.Lengthened (offer state source).1 (count + (offer state source).2.added) := by
  have name : state.1.nameOf = grammar.nameOf := funext (nameOf_eq_of_bare h.bare)
  have known : source.1.index < state.1.size := size_eq_of_bare h.bare ▸ known
  rw [offer_fst]
  refine ⟨(bare_setRules _ _ _).trans h.bare, fun symbol => ?_, ?_⟩
  · by_cases here : symbol = source.1
    · subst here
      rw [rulesOf_setRules_self known, name]
      exact (h.rules _).offerRule origin elided
    · rw [rulesOf_setRules_of_ne here]
      exact h.rules symbol
  · have total := ruleCount_setRules known
      (offerRule state.1.nameOf source.2 (state.1.rulesOf source.1)).1
    have length := length_offerRule state.1.nameOf source.2 (state.1.rulesOf source.1) state.2
    have counted : (Grammar.offer state source).2 =
      state.2.record (offerRule state.1.nameOf source.2 (state.1.rulesOf source.1)).2 := rfl
    have before := h.count
    rw [counted]
    omega

theorem Lengthened.insertionRound {grown : Grammar κ} {count : Nat}
    (h : grammar.Lengthened grown count) :
    grammar.Lengthened grown.insertionRound.1 (count + grown.insertionRound.2.added) := by
  refine List.foldlRecOn (motive := fun state : Grammar κ × Changes =>
    grammar.Lengthened state.1 (count + state.2.added)) _ Grammar.offer h
    fun state held source mem => ?_
  obtain ⟨rule, present, made⟩ := mem_insertionOffers.mp mem
  obtain ⟨-, -, pair, place, filler, -, -, same⟩ := PhraseRule.insertion?_eq_some.mp made
  refine held.offer (size_eq_of_bare h.bare ▸ lt_size_of_mem_rulesOf present) ?_ ?_ <;>
    rw [← same] <;> rfl

theorem lengthened_insertionRounds (rounds : Nat) (grammar : Grammar κ) (count : Nat) :
    grammar.Lengthened (insertionRounds rounds grammar (.ofCollapsed count)).1
      (insertionRounds rounds grammar (.ofCollapsed count)).2.insertions :=
  insertionRounds_induction
    (Q := fun state => grammar.Lengthened state.1 state.2.insertions)
    (fun h => h.insertionRound) rounds (.refl grammar)

omit [Cost κ] in
structure Appended (grammar grown : Grammar κ) (count : Nat) : Prop where
  bare : grown.bare = grammar.bare
  rules : ∀ symbol, ∃ added : List (PhraseRule κ),
    grown.rulesOf symbol = grammar.rulesOf symbol ++ added.map .phrase ∧
      ∀ rule ∈ added, rule.origin = .transposition
  count : grown.ruleCount = grammar.ruleCount + count

omit [Cost κ] in
theorem Appended.refl (grammar : Grammar κ) : grammar.Appended grammar 0 :=
  ⟨rfl, fun _ => ⟨[], (List.append_nil _).symm, fun _ mem => absurd mem List.not_mem_nil⟩, rfl⟩

omit [Cost κ] in
theorem Appended.addAbsent {state : Grammar κ × Nat} {source : Symbol × PhraseRule κ}
    (h : grammar.Appended state.1 state.2) (known : source.1.index < grammar.size)
    (origin : source.2.origin = .transposition) :
    grammar.Appended (addAbsent state source).1 (addAbsent state source).2 := by
  have known : source.1.index < state.1.size := size_eq_of_bare h.bare ▸ known
  rcases addAbsent_cases state source with ⟨-, done⟩ | ⟨-, done⟩
  · rw [done]
    exact h
  · rw [done]
    refine ⟨(bare_setRules _ _ _).trans h.bare, fun symbol => ?_, ?_⟩
    · by_cases here : symbol = source.1
      · subst here
        obtain ⟨added, old, made⟩ := h.rules source.1
        refine ⟨added ++ [source.2], ?_, fun rule mem => ?_⟩
        · rw [rulesOf_setRules_self known, old, List.append_assoc, List.map_append]
          rfl
        · rcases List.mem_append.mp mem with mem | mem
          · exact made rule mem
          · exact List.mem_singleton.mp mem ▸ origin
      · rw [rulesOf_setRules_of_ne here]
        exact h.rules symbol
    · have total := ruleCount_setRules known (state.1.rulesOf source.1 ++ [.phrase source.2])
      have before := h.count
      rw [List.length_append, List.length_singleton] at total
      dsimp only
      omega

theorem appended_transpose (grammar : Grammar κ) :
    grammar.Appended grammar.transpose.1 grammar.transpose.2 := by
  refine List.foldlRecOn (motive := fun state : Grammar κ × Nat =>
    grammar.Appended state.1 state.2) _ Grammar.addAbsent (.refl grammar)
    fun state held source mem => ?_
  obtain ⟨rule, present, made⟩ := mem_transpositionOffers.mp mem
  obtain ⟨-, pair, cost, -, -, same⟩ := PhraseRule.transposition?_eq_some.mp made
  refine held.addAbsent (lt_size_of_mem_rulesOf present) ?_
  rw [← same]
  rfl

end Grammar

/-- The rules of a symbol after a derivation, by where they come from. -/
structure Ledger (κ : Type) where
  kept : List (Rule κ)
  rewritten : List (PhraseRule κ)
  inserted : List (PhraseRule κ)
  transposed : List (PhraseRule κ)

/-- The ledger tells how the new rules of a symbol came from the old ones, when some children are
dropped because they vanish. -/
structure Ledger.Accounts [Cost κ] (ledger : Ledger κ) (nameOf : Symbol → String)
    (vanishing : Fillers κ) (old new : List (Rule κ)) : Prop where
  rules : new = ledger.kept ++
    (ledger.rewritten ++ ledger.inserted ++ ledger.transposed).map .phrase
  /-- Rules without vanishing children keep their places. -/
  kept : List.Forall₂ (Rule.Becomes nameOf)
    (old.filter fun rule => !rule.hasVanishing vanishing) ledger.kept
  /-- Insertion rules apart, nothing else becomes of them. -/
  unchanged : ledger.kept.filter (·.origin ≠ .insertion) =
    (old.filter fun rule => !rule.hasVanishing vanishing).filter (·.origin ≠ .insertion)
  collapsed : ∀ rule ∈ ledger.rewritten, rule.origin = .collapsed
  /-- The others are rewritten, unless no child of theirs is left. -/
  sides : (ledger.rewritten.map (·.slots)).Perm (PhraseRule.sidesLeft vanishing
    ((old.filterMap Rule.phrase?).filter (·.hasVanishing vanishing)))
  insertion : ∀ rule ∈ ledger.inserted, rule.origin = .insertion
  transposition : ∀ rule ∈ ledger.transposed, rule.origin = .transposition

namespace Grammar

variable [Cost κ] {grammar derived : Grammar κ} {tally : Tally}

theorem filter_becomes {nameOf : Symbol → String} {old new : List (Rule κ)}
    (h : List.Forall₂ (Rule.Becomes nameOf) old new) :
    new.filter (·.origin ≠ .insertion) = old.filter (·.origin ≠ .insertion) := by
  induction h with
  | nil => rfl
  | @cons first second _ _ becomes _ ih =>
    rw [List.filter_cons, List.filter_cons, ih, becomes.origin_eq]
    by_cases inserted : first.origin = .insertion
    · rw [if_neg (by simpa using inserted), if_neg (by simpa using inserted)]
    · rw [becomes.eq_of_origin inserted]

theorem eq_of_becomes {nameOf : Symbol → String} {old new : List (Rule κ)}
    (h : List.Forall₂ (Rule.Becomes nameOf) old new)
    (origin : ∀ rule ∈ old, rule.origin ≠ .insertion) : new = old := by
  induction h with
  | nil => rfl
  | cons becomes _ ih =>
    obtain ⟨first, rest⟩ := List.forall_mem_cons.mp origin
    rw [becomes.eq_of_origin first, ih rest]

theorem append_of_becomes {nameOf : Symbol → String} {front back new : List (Rule κ)}
    (h : List.Forall₂ (Rule.Becomes nameOf) (front ++ back) new) :
    ∃ kept rest, new = kept ++ rest ∧ List.Forall₂ (Rule.Becomes nameOf) front kept ∧
      List.Forall₂ (Rule.Becomes nameOf) back rest := by
  induction front generalizing new with
  | nil => exact ⟨[], new, rfl, .nil, h⟩
  | cons first front ih =>
    obtain ⟨last, others, becomes, more, rfl⟩ := List.forall₂_cons_left_iff.mp h
    obtain ⟨kept, rest, rfl, front, back⟩ := ih more
    exact ⟨last :: kept, rest, rfl, .cons becomes front, back⟩

/-- Each of the phases adds its part to the ledger of a symbol. -/
theorem accounts_of_phases {nameOf : Symbol → String} {vanishing : Fillers κ}
    {old collapsed grown new : List (Rule κ)} {made : List (PhraseRule κ)}
    (gathers : Gathers vanishing old made collapsed)
    (lengthens : Rule.Lengthens nameOf collapsed grown)
    (appends : ∃ added : List (PhraseRule κ), new = grown ++ added.map .phrase ∧
      ∀ rule ∈ added, rule.origin = .transposition) :
    ∃ ledger : Ledger κ, ledger.Accounts nameOf vanishing old new ∧
      grown.length = collapsed.length + ledger.inserted.length ∧
      new.length = grown.length + ledger.transposed.length := by
  obtain ⟨held, inserted, rfl, becomes, insertion⟩ := lengthens
  obtain ⟨transposed, rfl, transposition⟩ := appends
  have length := becomes.length_eq
  rw [gathers.rules] at becomes
  obtain ⟨kept, rest, rfl, front, back⟩ := append_of_becomes becomes
  obtain rfl := eq_of_becomes back fun rule mem => by
    obtain ⟨phrase, there, rfl⟩ := List.mem_map.mp mem
    rw [Rule.origin, gathers.origin phrase there]
    exact nofun
  refine ⟨⟨kept, made, inserted, transposed⟩, ⟨?_, front, filter_becomes front, gathers.origin,
    gathers.sides, insertion, transposition⟩, ?_, ?_⟩
  · simp only [List.map_append, List.append_assoc]
  · rw [List.length_append, List.length_map, length]
  · rw [List.length_append, List.length_map]

omit [Cost κ] in
theorem sum_of_ruleCount {first last : Grammar κ} (size : last.size = first.size)
    {added : Symbol → Nat} {count : Nat}
    (each : ∀ symbol, (last.rulesOf symbol).length = (first.rulesOf symbol).length + added symbol)
    (total : last.ruleCount = first.ruleCount + count) :
    (first.symbols.map added).sum = count := by
  have symbols : last.symbols = first.symbols := by rw [symbols, symbols, size]
  rw [ruleCount_eq_sum, ruleCount_eq_sum, symbols, List.map_congr_left fun symbol _ => each symbol,
    List.sum_map_add] at total
  exact Nat.add_left_cancel total

theorem insertionRounds_frame (rounds : Nat) (grammar : Grammar κ) (tally : Tally) :
    (insertionRounds rounds grammar tally).1.vanishing = grammar.vanishing ∧
      (insertionRounds rounds grammar tally).2.collapsed = tally.collapsed :=
  insertionRounds_induction
    (Q := fun state => state.1.vanishing = grammar.vanishing ∧
      state.2.collapsed = tally.collapsed)
    (fun h => ⟨(sameEmpty_insertionRound _).vanishing_eq.trans h.1, h.2⟩) rounds ⟨rfl, rfl⟩

/-- A derivation touches nothing but rules, it can tell where each rule comes from, and it counts
what it inserts and transposes and what each round of collapsing rewrites or removes. -/
theorem run_derive_accounts (operations : List (Operation κ))
    (h : (run operations).derive = (derived, .ok tally)) :
    (run operations).SameDeclarations derived ∧
      (∃ ledger : Symbol → Ledger κ,
        (∀ symbol, (ledger symbol).Accounts (run operations).nameOf derived.vanishing
          ((run operations).rulesOf symbol) (derived.rulesOf symbol)) ∧
        ((run operations).symbols.map fun symbol => (ledger symbol).inserted.length).sum =
          tally.insertions ∧
        ((run operations).symbols.map fun symbol => (ledger symbol).transposed.length).sum =
          tally.transpositions) ∧
      tally.collapsed = ((List.range ((run operations).slotCount + 1)).map fun round =>
        ((run operations).afterCollapses round).losses).sum := by
  have sound := IsSound.run (κ := κ) operations
  generalize run operations = grammar at h sound ⊢
  rcases derive_eq grammar with ⟨left, fault, -, done⟩ | ⟨left, count, collapse, done⟩
  · rw [done] at h
    exact nomatch (Prod.mk.inj h).2
  rw [done] at h
  obtain ⟨rfl, ok⟩ := Prod.mk.inj h
  obtain rfl := Except.ok.inj ok
  have declared := SameDeclarations.derive grammar
  rw [done] at declared
  have lengthened := lengthened_insertionRounds (left.size + 1) left count
  obtain ⟨frame, collapsed⟩ := insertionRounds_frame (left.size + 1) left (.ofCollapsed count)
  obtain ⟨size, name⟩ : left.size = grammar.size ∧ left.nameOf = grammar.nameOf := by
    have names := collapse_names grammar
    rw [collapse] at names
    exact ⟨names.1, funext names.2⟩
  generalize insertionRounds (left.size + 1) left (.ofCollapsed count) = state
    at lengthened frame collapsed declared ⊢
  obtain ⟨grown, rounds⟩ := state
  have appended := appended_transpose grown
  have vanishing : grown.transpose.1.vanishing = left.vanishing :=
    (sameEmpty_transpose grown).vanishing_eq.trans frame
  have account : ∀ symbol, ∃ ledger : Ledger κ,
      ledger.Accounts grammar.nameOf grown.transpose.1.vanishing (grammar.rulesOf symbol)
        (grown.transpose.1.rulesOf symbol) ∧
      (grown.rulesOf symbol).length =
        (left.rulesOf symbol).length + ledger.inserted.length ∧
      (grown.transpose.1.rulesOf symbol).length =
        (grown.rulesOf symbol).length + ledger.transposed.length := by
    intro symbol
    obtain ⟨made, gathers⟩ := sound.gathers_collapse collapse symbol
    rw [vanishing]
    exact accounts_of_phases gathers (name ▸ lengthened.rules symbol) (appended.rules symbol)
  choose ledger accounts inserted transposed using account
  have symbols : left.symbols = grammar.symbols := by rw [symbols, symbols, size]
  have grownSymbols : grown.symbols = grammar.symbols := by
    rw [← symbols, Grammar.symbols, Grammar.symbols, size_eq_of_bare lengthened.bare]
  refine ⟨declared, ⟨ledger, accounts, ?_, ?_⟩, ?_⟩
  · rw [← symbols]
    exact sum_of_ruleCount (size_eq_of_bare lengthened.bare) inserted lengthened.count
  · rw [← grownSymbols]
    exact sum_of_ruleCount (size_eq_of_bare appended.bare) transposed appended.count
  · exact collapsed.trans (collapseRounds_ok collapse).2.2

/-- A pair of words that may change places, and a phrase that begins with the empty symbol. -/
def pairAndPadding : List (Operation Float) :=
  [.newSymbol ["first"], .newSymbol ["second"], .newSymbol ["padded"],
    .addRule ⟨2⟩ (.word (.ofLiteral "one")), .addRule ⟨3⟩ (.word (.ofLiteral "two")),
    .addRule ⟨4⟩ (.phrase (.ofSymbols [.empty, ⟨2⟩])),
    .addRule .start (.phrase { PhraseRule.ofSymbols [⟨2⟩, ⟨3⟩] with transpositionCost := some 1 })]

/-- One rule is rewritten and one is added, which the ledger and the tally tell alike. -/
theorem pairAndPadding_derive_accounts :
    (run pairAndPadding).derive.2 = .ok ⟨1, 0, 0, 1, 1, true⟩ ∧
      (run pairAndPadding).SameDeclarations (run pairAndPadding).derive.1 ∧
      ∃ ledger : Symbol → Ledger Float,
        ((run pairAndPadding).symbols.map fun symbol => (ledger symbol).transposed.length).sum = 1 ∧
        (ledger .start).Accounts (run pairAndPadding).nameOf (run pairAndPadding).derive.1.vanishing
          ((run pairAndPadding).rulesOf .start) ((run pairAndPadding).derive.1.rulesOf .start) := by
  have derived : (run pairAndPadding).derive =
      ((run pairAndPadding).derive.1, .ok ⟨1, 0, 0, 1, 1, true⟩) :=
    Prod.ext rfl (by decide +kernel)
  obtain ⟨declared, ⟨ledger, accounts, -, transposed⟩, -⟩ :=
    run_derive_accounts pairAndPadding derived
  exact ⟨congrArg Prod.snd derived, declared, ledger, transposed, accounts .start⟩

end Grammar

end PhraseGrammar
