import PhraseGrammar.Proofs.Placeholders

/-! Composed names. One pair of brackets is taken off each part that is in brackets as a whole, and
one pair is put around all of them. So a name that is composed of composed names is the one that
all their parts give at once, and it does not matter in how many steps, and by which operations,
the name of a symbol comes about. -/

namespace PhraseGrammar

variable {κ : Type}

namespace SymbolName

/-- A name and what it contributes to a name that is composed of it: what is inside its brackets, or
all of it when they are not around the whole. -/
inductive Inside : String → String → Prop
  | bracketed (text : String) : Inside ("[" ++ text ++ "]") text
  | bare {name : String} : (∀ text, name ≠ "[" ++ text ++ "]") → Inside name name

theorem toList_bracketed (text : String) :
    ("[" ++ text ++ "]").toList = '[' :: (text.toList ++ [']']) := by
  rw [String.toList_append, String.toList_append]
  rfl

theorem inner_bracketed (text : List Char) : inner ('[' :: (text ++ [']'])) = text := by
  rw [inner, List.getLast?_concat, if_pos rfl, List.dropLast_concat]

theorem inner_of_ne {name : List Char} (bare : ∀ text, name ≠ '[' :: (text ++ [']'])) :
    inner name = name := by
  unfold inner
  split
  case h_1 rest =>
    split
    case isTrue last =>
      obtain ⟨text, rfl⟩ := List.getLast?_eq_some_iff.mp last
      exact absurd rfl (bare text)
    case isFalse => rfl
  case h_2 => rfl

theorem inside_inner (name : String) : Inside name (String.ofList (inner name.toList)) := by
  by_cases whole : ∃ text, name = "[" ++ text ++ "]"
  · obtain ⟨text, rfl⟩ := whole
    rw [toList_bracketed, inner_bracketed, String.ofList_toList]
    exact .bracketed text
  · have bare : ∀ text, name ≠ "[" ++ text ++ "]" := fun text same => whole ⟨text, same⟩
    have kept : inner name.toList = name.toList := by
      refine inner_of_ne fun text same => bare (String.ofList text) (String.toList_inj.mp ?_)
      rw [toList_bracketed, String.toList_ofList, same]
    rw [kept, String.ofList_toList]
    exact .bare bare

/-- What is between the brackets of a composed name. -/
def joined (parts : List String) : List Char :=
  ['-'].intercalate (parts.map fun part => inner part.toList)

theorem toList_compose (parts : List String) :
    (compose parts).toList = '[' :: (joined parts ++ [']']) :=
  String.toList_ofList

theorem compose_eq_intercalate (parts : List String) :
    ∃ texts, List.Forall₂ Inside parts texts ∧
      compose parts = "[" ++ "-".intercalate texts ++ "]" := by
  refine ⟨parts.map fun part => String.ofList (inner part.toList), ?_, ?_⟩
  · exact List.forall₂_map_right_iff.mpr (List.forall₂_same.mpr fun part _ => inside_inner part)
  · refine String.toList_inj.mp ?_
    rw [toList_compose, toList_bracketed, String.toList_intercalate, List.map_map]
    simp only [Function.comp_def, String.toList_ofList]
    rfl

theorem joined_singleton (part : String) : joined [part] = inner part.toList :=
  List.intercalate_singleton

theorem joined_cons (part : String) {rest : List String} (some : rest ≠ []) :
    joined (part :: rest) = inner part.toList ++ '-' :: joined rest := by
  unfold joined
  rw [List.map_cons, List.intercalate_cons_of_ne_nil (mt List.map_eq_nil_iff.mp some),
    List.append_assoc, List.singleton_append]

theorem joined_append {front back : List String} (some : front ≠ []) (some' : back ≠ []) :
    joined (front ++ back) = joined front ++ '-' :: joined back := by
  induction front with
  | nil => exact absurd rfl some
  | cons part rest ih =>
    by_cases last : rest = []
    · rw [last, List.singleton_append, joined_cons part some', joined_singleton]
    · rw [List.cons_append, joined_cons part (List.append_ne_nil_of_left_ne_nil last back), ih last,
        joined_cons part last, List.append_assoc, List.cons_append]

/-- Composing takes back the brackets of a composed name. -/
theorem joined_singleton_compose (parts : List String) : joined [compose parts] = joined parts := by
  rw [joined_singleton, toList_compose, inner_bracketed]

variable {names parts more others : List String}

/-- Names that can stand for others wherever names are composed, among what others there may be. A
list without a name stands for no other, since a name that contributes no text still brings a
hyphen. -/
structure Alike (names parts : List String) : Prop where
  joined : joined names = joined parts
  none : names = [] ↔ parts = []

namespace Alike

theorem refl (names : List String) : Alike names names := ⟨rfl, Iff.rfl⟩

theorem trans (h : Alike names parts) (h' : Alike parts others) : Alike names others :=
  ⟨h.joined.trans h'.joined, h.none.trans h'.none⟩

theorem compose_eq (h : Alike names parts) : compose names = compose parts :=
  String.toList_inj.mp (by rw [toList_compose, toList_compose, h.joined])

theorem append (h : Alike names parts) (h' : Alike more others) :
    Alike (names ++ more) (parts ++ others) where
  joined := by
    by_cases first : names = []
    · rw [first, h.none.mp first]
      exact h'.joined
    · by_cases last : more = []
      · rw [last, h'.none.mp last, List.append_nil, List.append_nil]
        exact h.joined
      · rw [joined_append first last, joined_append (mt h.none.mpr first) (mt h'.none.mpr last),
          h.joined, h'.joined]
  none := by
    rw [List.append_eq_nil_iff, List.append_eq_nil_iff]
    exact and_congr h.none h'.none

theorem compose (some : parts ≠ []) : Alike [compose parts] parts :=
  ⟨joined_singleton_compose parts, iff_of_false (List.cons_ne_nil _ _) some⟩

theorem map_compose {groups : List (List String)} (some : ∀ group ∈ groups, group ≠ []) :
    Alike (groups.map SymbolName.compose) groups.flatten := by
  induction groups with
  | nil => exact .refl []
  | cons group rest ih =>
    obtain ⟨first, others⟩ := List.forall_mem_cons.mp some
    exact (Alike.compose first).append (ih others)

end Alike

/-- A group of no parts would bring a hyphen. -/
example : compose ([[], ["word"]].map compose) = "[-word]" ∧
    compose [[], ["word"]].flatten = "[word]" := by
  decide

theorem compose_compose (parts : List String) : compose [compose parts] = compose parts :=
  String.toList_inj.mp (by rw [toList_compose, toList_compose, joined_singleton_compose])

theorem compose_ne_empty (parts : List String) : compose parts ≠ "" := by
  intro same
  have none := congrArg String.toList same
  rw [toList_compose] at none
  cases none

end SymbolName

namespace Grammar

open Check

variable [Cost κ] {grammar : Grammar κ} {operation : Operation κ} {symbol : Symbol}
  {before operations : List (Operation κ)} {names parts group : List String}

/-- The names of which an operation composes that of the symbol it makes. -/
def composed? (grammar : Grammar κ) : Operation κ → Option (List String)
  | .newSymbol parts => some parts
  | .newPair rule => some (rule.symbols.map grammar.nameOf)
  | .addVerb name _ _ _ => some [name]
  | .addInvariable name _ _ _ => some [name]
  | .addPronoun name _ _ => some [name]
  | .addSequence name _ _ _ _ => some [name]
  | .addPairSequence _ first second => some [grammar.nameOf first, grammar.nameOf second]
  | _ => none

/-- A sequence of a pair is named twice: composed of the names of both, and composed once more of
that name alone, which changes nothing. -/
theorem entry_of_composed? {contribution : Contribution κ}
    (composed : grammar.composed? operation = some names)
    (asked : grammar.contribution? operation = some contribution) :
    ∃ entry, contribution = .symbol entry ∧ entry.name = SymbolName.compose names := by
  cases operation with
  | addPairSequence wordClass first second =>
    obtain rfl := Option.some.inj composed
    obtain rfl := Option.some.inj asked
    exact ⟨_, rfl, SymbolName.compose_compose _⟩
  | addInvariable name accepted | addSequence name wordClass accepted =>
    obtain rfl := Option.some.inj composed
    cases accepted with
    | nil => cases asked
    | cons first more =>
      obtain rfl := Option.some.inj asked
      exact ⟨_, rfl, rfl⟩
  | newSymbol | newPair | addVerb | addPronoun =>
    obtain rfl := Option.some.inj composed
    obtain rfl := Option.some.inj asked
    exact ⟨_, rfl, rfl⟩
  | _ => cases composed

omit [Cost κ] in
theorem isBuilder_of_composed? (composed : grammar.composed? operation = some names) :
    operation.IsBuilder := by
  cases operation with
  | addRules => cases composed
  | derive => cases composed
  | _ => exact trivial

theorem nameOf_run_concat (composed : (run operations).composed? operation = some names)
    (accepted : (run operations).answer operation = .ok (some symbol)) :
    symbol.index < (run (operations ++ [operation])).size ∧
      (run (operations ++ [operation])).nameOf symbol = SymbolName.compose names := by
  obtain ⟨contribution, contributes⟩ := exists_contributes (HasPlaceholders.run operations)
    (IsSound.run operations) (isBuilder_of_composed? composed) accepted
  obtain ⟨entry, rfl, named⟩ := entry_of_composed? composed contributes.asked
  obtain rfl : symbol = ⟨(run operations).size⟩ := Option.some.inj contributes.made
  have performed : run (operations ++ [operation]) = ((run operations).push entry).1 :=
    (run_append operations [operation]).trans contributes.performed
  rw [performed]
  have found := entryOf?_push_self (run operations) entry
  refine ⟨lt_size_of_entryOf? found, ?_⟩
  rw [← named]
  exact congrArg (fun entry => (entry.map Entry.name).getD SymbolName.unknown) found

theorem Step.nameOf {P : Rule κ → Prop} {grown : Grammar κ} (step : Step P grammar grown)
    (known : symbol.index < grammar.size) :
    symbol.index < grown.size ∧ grown.nameOf symbol = grammar.nameOf symbol := by
  cases step with
  | define => exact nameOf_extendBy (.symbol _) known
  | append => exact nameOf_extendBy (.rule _ _) known
  | declare => exact ⟨known, rfl⟩
  | register => exact ⟨known, rfl⟩

theorem nameOf_run_of_isPrefix (within : before <+: operations)
    (known : symbol.index < (run before).size) :
    symbol.index < (run operations).size ∧
      (run operations).nameOf symbol = (run before).nameOf symbol := by
  obtain ⟨more, rfl⟩ := within
  rw [run_append]
  refine performAll_induction (P := fun _ => True)
    (Q := fun grown => symbol.index < grown.size ∧
      grown.nameOf symbol = (run before).nameOf symbol)
    (fun held step => ?_) (fun _ grown held => ?_) (fun operation _ => operation.supplies_true)
    ⟨known, rfl⟩
  · obtain ⟨inside, same⟩ := step.nameOf held.1
    exact ⟨inside, same.trans held.2⟩
  · obtain ⟨size, name⟩ := derive_names grown
    exact ⟨size ▸ held.1, (name symbol).trans held.2⟩

omit [Cost κ] in
theorem nameOf_push (grammar : Grammar κ) (entry : Entry κ) (symbol : Symbol) :
    (grammar.push entry).1.nameOf symbol = entry.name ∨
      (grammar.push entry).1.nameOf symbol = grammar.nameOf symbol ∨
      (grammar.push entry).1.nameOf symbol = SymbolName.unknown := by
  cases found : (grammar.push entry).1.entryOf? symbol with
  | none =>
    refine .inr (.inr ?_)
    rw [nameOf, found]
    rfl
  | some owner =>
    rw [nameOf, nameOf, found]
    rcases of_entryOf?_push found with old | ⟨-, rfl⟩
    · exact .inr (.inl (old ▸ rfl))
    · exact .inl rfl

theorem nameOf_ne_empty (operations : List (Operation κ)) :
    ∀ symbol, (run operations).nameOf symbol ≠ "" := by
  refine contributions_induction (Q := fun grammar => ∀ symbol, grammar.nameOf symbol ≠ "")
    ?_ ?_ ?_
  · rintro ⟨_ | _ | index⟩
    · exact (by decide : SymbolName.start ≠ "")
    · exact (by decide : SymbolName.empty ≠ "")
    · exact (by decide : SymbolName.unknown ≠ "")
  · intro grammar operation made contribution _ _ _ contributes held symbol
    have pushed : ∀ entry : Entry κ, entry.name ≠ "" →
        (grammar.push entry).1.nameOf symbol ≠ "" := by
      intro entry named
      rcases nameOf_push grammar entry symbol with same | same | same
      · exact same ▸ named
      · exact same ▸ held symbol
      · exact same ▸ by decide
    cases contribution with
    | symbol entry =>
      obtain ⟨parts, rules, item, rfl⟩ := entry_of_asked contributes.asked
      exact pushed _ (SymbolName.compose_ne_empty parts)
    | category name entities => exact pushed _ (SymbolName.placeholder_ne_empty name)
    | rule target rule =>
      rw [extendBy, appendRule_eq_setRules, nameOf_eq_of_bare (bare_setRules ..)]
      exact held symbol
    | signature => exact held symbol
  · intro grammar _ held symbol
    rw [(SameDeclarations.derive grammar).name]
    exact held symbol

omit [Cost κ] in
theorem isEmpty_or_any_isEmpty :
    (names.isEmpty || names.any String.isEmpty) = true ↔ names = [] ∨ "" ∈ names := by
  simp

/-- What an accepted operation composes is at least one name, and none is without text. -/
theorem composed_of_accepted {made : Option Symbol}
    (composed : (run operations).composed? operation = some names)
    (accepted : (run operations).answer operation = .ok made) : names ≠ [] ∧ "" ∉ names := by
  have named := nameOf_ne_empty operations
  cases operation with
  | newSymbol parts =>
    obtain rfl := Option.some.inj composed
    obtain ⟨result, built, -⟩ := exists_of_map_ok accepted
    unfold newSymbol at built
    obtain ⟨some, -⟩ := when_ok.mp built
    rwa [isEmpty_or_any_isEmpty, not_or] at some
  | newPair rule =>
    obtain rfl := Option.some.inj composed
    obtain ⟨result, built, -⟩ := exists_of_map_ok accepted
    unfold newPair at built
    obtain ⟨two, -⟩ := unless_ok.mp built
    refine ⟨fun none => ?_, fun mem => ?_⟩
    · rw [PhraseRule.symbols, List.map_eq_nil_iff, List.map_eq_nil_iff] at none
      rw [none] at two
      cases two
    · obtain ⟨child, -, same⟩ := List.mem_map.mp mem
      exact named child same
  | addPairSequence wordClass first second =>
    obtain rfl := Option.some.inj composed
    refine ⟨List.cons_ne_nil _ _, fun mem => ?_⟩
    rcases List.mem_pair.mp mem with same | same
    · exact named first same.symm
    · exact named second same.symm
  | addVerb | addInvariable | addPronoun | addSequence =>
    obtain rfl := Option.some.inj composed
    obtain ⟨result, built, -⟩ := exists_of_map_ok accepted
    obtain ⟨some, -⟩ := named_eq_ok.mp built
    refine ⟨List.cons_ne_nil _ _, fun mem => some (List.mem_singleton.mp mem).symm⟩
  | _ => cases composed

/-- Names side by side, and parts of which they come after a run: a name is a part as it stands, or
that of a symbol, which an operation of the run composed of names that come of parts in turn. -/
inductive ComesOf : List (Operation κ) → List String → List String → Prop
  | nil {operations : List (Operation κ)} : ComesOf operations [] []
  | part {operations : List (Operation κ)} {names parts : List String} (part : String) :
      ComesOf operations names parts → ComesOf operations (part :: names) (part :: parts)
  | symbol {before operations : List (Operation κ)} {operation : Operation κ} {symbol : Symbol}
      {made group names parts : List String} : before ++ [operation] <+: operations →
      (run before).composed? operation = some made →
      (run before).answer operation = .ok (some symbol) → ComesOf before made group →
      ComesOf operations names parts →
      ComesOf operations ((run operations).nameOf symbol :: names) (group ++ parts)

namespace ComesOf

/-- The induction is on the steps in which the names came about: the name of a symbol stands for
those it was composed of, and these stand for their parts. -/
theorem alike (h : ComesOf operations names parts) : SymbolName.Alike names parts := by
  induction h with
  | nil => exact .refl []
  | part part _ rest => exact (SymbolName.Alike.refl [part]).append rest
  | symbol within composed accepted _ _ group rest =>
    obtain ⟨some, -⟩ := composed_of_accepted composed accepted
    obtain ⟨known, named⟩ := nameOf_run_concat composed accepted
    rw [(nameOf_run_of_isPrefix within known).2, named]
    exact ((SymbolName.Alike.compose some).trans group).append rest

theorem empty_mem_iff (h : ComesOf operations names parts) : "" ∈ names ↔ "" ∈ parts := by
  induction h with
  | nil => exact Iff.rfl
  | part part _ rest => rw [List.mem_cons, List.mem_cons, rest]
  | @symbol _ operations _ symbol _ _ _ _ _ composed accepted _ _ group rest =>
    obtain ⟨-, text⟩ := composed_of_accepted composed accepted
    have named := nameOf_ne_empty operations symbol
    rw [List.mem_cons, List.mem_append, or_iff_right named.symm, or_iff_right (mt group.mpr text),
      rest]

end ComesOf

omit [Cost κ] in
theorem newSymbol_congr (alike : SymbolName.Alike names parts)
    (empty : "" ∈ names ↔ "" ∈ parts) : grammar.newSymbol names = grammar.newSymbol parts := by
  have same : (names.isEmpty || names.any String.isEmpty) =
      (parts.isEmpty || parts.any String.isEmpty) := by
    rw [Bool.eq_iff_iff, isEmpty_or_any_isEmpty, isEmpty_or_any_isEmpty, alike.none, empty]
  rw [newSymbol, newSymbol, same, alike.compose_eq]

/-- Names flatten. A composed name has one pair of brackets around what its parts contribute, and
composing the names of groups gives the name of all their parts. After every run names can be taken
apart into the parts of which they came in any number of steps: a new symbol of the names is the
same as one of the parts, refusals included, and the symbol that an operation makes of the names is
the one with the name of the parts. -/
theorem run_names_flatten :
    (∀ parts, ∃ texts, List.Forall₂ SymbolName.Inside parts texts ∧
      SymbolName.compose parts = "[" ++ "-".intercalate texts ++ "]") ∧
    (∀ groups : List (List String), (∀ group ∈ groups, group ≠ []) →
      SymbolName.compose (groups.map SymbolName.compose) = SymbolName.compose groups.flatten) ∧
    ∀ (operations : List (Operation κ)) (names parts : List String),
      ComesOf operations names parts →
        SymbolName.compose names = SymbolName.compose parts ∧
        (run operations).newSymbol names = (run operations).newSymbol parts ∧
        ∀ operation symbol, (run operations).composed? operation = some names →
          (run operations).answer operation = .ok (some symbol) →
          (run (operations ++ [operation])).nameOf symbol = SymbolName.compose parts ∧
            (run (operations ++ [operation])).symbol? (SymbolName.compose parts) = some symbol := by
  refine ⟨SymbolName.compose_eq_intercalate, fun groups some => ?_,
    fun operations names parts comesOf => ?_⟩
  · exact (SymbolName.Alike.map_compose some).compose_eq
  · have same := comesOf.alike.compose_eq
    refine ⟨same, newSymbol_congr comesOf.alike comesOf.empty_mem_iff,
      fun operation symbol composed accepted => ?_⟩
    obtain ⟨known, named⟩ := nameOf_run_concat composed accepted
    rw [same] at named
    exact ⟨named, (IsSound.run _).symbol?_eq_some.mpr ⟨known, named⟩⟩

/-- Two words whose names have a bracket at one end only, a symbol of two parts, and the sequence of
both words. -/
def framedWords : List (Operation Float) :=
  [.addInvariable "[you" ["you"] [] none, .addInvariable "]" ["there"] [] none,
    .newSymbol ["be", "pl"], .addPairSequence .invariable ⟨2⟩ ⟨3⟩]

theorem framedWords_comesOf : ComesOf framedWords
    [(run framedWords).nameOf ⟨5⟩, (run framedWords).nameOf ⟨4⟩] ["[you", "]", "be", "pl"] := by
  have words : ComesOf (framedWords.take 3)
      [(run (framedWords.take 3)).nameOf ⟨2⟩, (run (framedWords.take 3)).nameOf ⟨3⟩]
      ["[you", "]"] := by
    have first : framedWords.take 0 ++ [.addInvariable "[you" ["you"] [] none] <+:
        framedWords.take 3 := ⟨_, rfl⟩
    have second : framedWords.take 1 ++ [.addInvariable "]" ["there"] [] none] <+:
        framedWords.take 3 := ⟨_, rfl⟩
    exact .symbol first rfl (by decide +kernel) (.part _ .nil)
      (.symbol second rfl (by decide +kernel) (.part _ .nil) .nil)
  have sequence : framedWords.take 3 ++ [.addPairSequence .invariable ⟨2⟩ ⟨3⟩] <+:
      framedWords := ⟨[], rfl⟩
  have parts : framedWords.take 2 ++ [.newSymbol ["be", "pl"]] <+: framedWords := ⟨_, rfl⟩
  exact .symbol sequence rfl (by decide +kernel) words
    (.symbol parts rfl (by decide +kernel) (.part _ (.part _ .nil)) .nil)

def framedPair : Operation Float := .newPair (.ofSymbols [⟨5⟩, ⟨4⟩])

/-- The pair has the name of the four parts, of which two have a bracket. -/
theorem framedWords_names_flatten :
    SymbolName.compose ([["[you", "]"], ["be", "pl"]].map SymbolName.compose) =
        SymbolName.compose ["[you", "]", "be", "pl"] ∧
      ComesOf framedWords [(run framedWords).nameOf ⟨5⟩, (run framedWords).nameOf ⟨4⟩]
        ["[you", "]", "be", "pl"] ∧
      (run framedWords).answer framedPair = .ok (some ⟨6⟩) ∧
      (run (framedWords ++ [framedPair])).nameOf ⟨6⟩ = "[[you-]-be-pl]" ∧
      (run (framedWords ++ [framedPair])).symbol?
        (SymbolName.compose ["[you", "]", "be", "pl"]) = some ⟨6⟩ := by
  have accepted : (run framedWords).answer framedPair = .ok (some ⟨6⟩) := by decide +kernel
  obtain ⟨-, groups, steps⟩ := run_names_flatten (κ := Float)
  obtain ⟨-, -, made⟩ := steps _ _ _ framedWords_comesOf
  obtain ⟨named, found⟩ := made framedPair ⟨6⟩ rfl accepted
  exact ⟨groups _ (by decide), framedWords_comesOf, accepted, named.trans (by decide), found⟩

end Grammar

end PhraseGrammar
