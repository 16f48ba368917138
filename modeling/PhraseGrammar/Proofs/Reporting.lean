import PhraseGrammar.Proofs.Concepts

/-! What the audit reports: the symbols to which no steps down lead from the start symbol, those
that match nothing, and the declared names that stand nowhere within reach. -/

namespace PhraseGrammar

variable {κ : Type}

namespace Meaning

inductive HasPart : Meaning → Meaning → Prop
  | whole {meaning : Meaning} : meaning.HasPart meaning
  | inside {function : String} {args : List Meaning} {arg part : Meaning} : arg ∈ args →
      arg.HasPart part → (apply function args).HasPart part

/-- What a meaning is the use of, its arguments apart. -/
inductive Names : Meaning → Concept → Prop
  | function {name : String} {args : List Meaning} : (apply name args).Names (.meaning name)
  | argument {name : String} : (argument name).Names (.meaning name)
  | entity {category : String} : (entity category).Names (.category category)

variable {whole part : Meaning} {concept : Concept}

theorem Names.mentions (h : part.Names concept) : part.Mentions concept := by
  cases h with
  | function => exact mentions_apply.mpr (.inl rfl)
  | argument => exact List.mem_singleton_self _
  | entity => exact List.mem_singleton_self _

theorem HasPart.mentions (h : whole.HasPart part) (mentions : part.Mentions concept) :
    whole.Mentions concept := by
  induction h with
  | whole => exact mentions
  | inside mem _ ih => exact mentions_apply.mpr (.inr ⟨_, mem, ih mentions⟩)

theorem exists_part : (whole : Meaning) → whole.Mentions concept →
    ∃ part, whole.HasPart part ∧ part.Names concept
  | .apply _ args, mentions => by
    rcases mentions_apply.mp mentions with rfl | ⟨arg, mem, mentions⟩
    · exact ⟨_, .whole, .function⟩
    · obtain ⟨part, within, names⟩ := exists_part arg mentions
      exact ⟨part, .inside mem within, names⟩
  | .argument name, mentions => by
    cases concept with
    | meaning other =>
      obtain rfl := List.mem_singleton.mp mentions
      exact ⟨_, .whole, .argument⟩
    | category other => exact absurd mentions List.not_mem_nil
  | .entity category, mentions => by
    cases concept with
    | meaning other => exact absurd mentions List.not_mem_nil
    | category other =>
      obtain rfl := List.mem_singleton.mp mentions
      exact ⟨_, .whole, .entity⟩

theorem mentions_iff :
    whole.Mentions concept ↔ ∃ part, whole.HasPart part ∧ part.Names concept :=
  ⟨exists_part whole, fun ⟨_, within, names⟩ => within.mentions names.mentions⟩

end Meaning

theorem Rule.mem_meanings {rule : Rule κ} {meaning : Meaning} :
    meaning ∈ rule.meanings ↔ rule.meaning = some meaning ∨
      ∃ held elided, rule = .phrase held ∧ held.elided = some elided ∧
        meaning ∈ elided.filler.meanings := by
  cases rule with
  | word rule =>
    refine Option.mem_toList.trans (or_iff_left ?_).symm
    rintro ⟨_, _, same, -⟩
    cases same
  | phrase rule =>
    rw [meanings, List.mem_append, Option.mem_toList]
    refine or_congr_right ?_
    constructor
    · intro mem
      cases left : rule.elided with
      | none =>
        rw [left] at mem
        exact absurd mem List.not_mem_nil
      | some elided =>
        rw [left] at mem
        exact ⟨rule, elided, rfl, left, mem⟩
    · rintro ⟨_, elided, same, left, mem⟩
      obtain rfl := Rule.phrase.inj same
      rw [left]
      exact mem

namespace Grammar

variable {grammar : Grammar κ} {symbol : Symbol} {concept : Concept}

/-- A meaning comes with a symbol: with one of its rules, with the child that one of them leaves
out, or with the filler that the symbol keeps. -/
inductive Bears (grammar : Grammar κ) (symbol : Symbol) (meaning : Meaning) : Prop
  | rule {rule : Rule κ} : rule ∈ grammar.rulesOf symbol → rule.meaning = some meaning →
      grammar.Bears symbol meaning
  | elided {rule : PhraseRule κ} {elided : Elided κ} : .phrase rule ∈ grammar.rulesOf symbol →
      rule.elided = some elided → meaning ∈ elided.filler.meanings → grammar.Bears symbol meaning
  | filler {filler : Filler κ} : grammar.zeroFiller? symbol = some filler →
      meaning ∈ filler.meanings → grammar.Bears symbol meaning

/-- A symbol employs what a part of its meanings is the use of, and the category of a
placeholder. -/
inductive Employs (grammar : Grammar κ) (symbol : Symbol) : Concept → Prop
  | part {meaning part : Meaning} {concept : Concept} : grammar.Bears symbol meaning →
      meaning.HasPart part → part.Names concept → grammar.Employs symbol concept
  | placeholder {rule : WordRule κ} {category : String} : .word rule ∈ grammar.rulesOf symbol →
      rule.category = some category → grammar.Employs symbol (.category category)

theorem bears_iff {meaning : Meaning} :
    grammar.Bears symbol meaning ↔ ∃ use, grammar.HasUse symbol use ∧ meaning ∈ use.meanings := by
  constructor
  · rintro (⟨mem, own⟩ | ⟨mem, left, within⟩ | ⟨kept, within⟩)
    · exact ⟨.rule _, mem, Rule.mem_meanings.mpr (.inl own)⟩
    · exact ⟨.rule _, mem, Rule.mem_meanings.mpr (.inr ⟨_, _, rfl, left, within⟩)⟩
    · exact ⟨.filler _, kept, within⟩
  · rintro ⟨filler | rule, has, within⟩
    · exact .filler has within
    · rcases Rule.mem_meanings.mp within with own | ⟨held, elided, rfl, left, within⟩
      · exact .rule has own
      · exact .elided has left within

theorem employs_iff :
    grammar.Employs symbol concept ↔ ∃ use, grammar.HasUse symbol use ∧ use.Mentions concept := by
  constructor
  · rintro (⟨bears, within, names⟩ | ⟨mem, category⟩)
    · obtain ⟨use, has, mem⟩ := bears_iff.mp bears
      exact ⟨use, has, .inl ⟨_, mem, Meaning.mentions_iff.mpr ⟨_, within, names⟩⟩⟩
    · exact ⟨.rule _, mem, .inr ⟨_, category, rfl⟩⟩
  · rintro ⟨use, has, ⟨meaning, mem, mentions⟩ | ⟨category, stands, rfl⟩⟩
    · obtain ⟨part, within, names⟩ := Meaning.mentions_iff.mp mentions
      exact .part (bears_iff.mpr ⟨use, has, mem⟩) within names
    · cases use with
      | filler filler => exact nomatch stands
      | rule rule =>
        cases rule with
        | word rule => exact .placeholder has stands
        | phrase rule => exact nomatch stands

/-- The names are those of the symbols with a property, in the order of the symbols and without
repetition. -/
def Lists (grammar : Grammar κ) (names : List String) (P : Symbol → Prop) : Prop :=
  ∃ symbols : List Symbol, symbols.Pairwise (fun a b => a.index < b.index) ∧
    (∀ symbol, symbol ∈ symbols ↔ P symbol) ∧ names = symbols.map grammar.nameOf ∧ names.Nodup

theorem IsSound.lists_members (h : grammar.IsSound) {set : SymbolSet} {P : Symbol → Prop}
    (size : set.size ≤ grammar.size) (members : ∀ symbol, set.contains symbol = true ↔ P symbol) :
    grammar.Lists (set.members.map grammar.nameOf) P := by
  have inside : ∀ symbol ∈ set.members, symbol.index < grammar.size := fun symbol mem =>
    Nat.lt_of_lt_of_le (SymbolSet.lt_size_of_contains (SymbolSet.mem_members.mp mem)) size
  refine ⟨set.members, set.ascending_members,
    fun symbol => SymbolSet.mem_members.trans (members symbol), rfl, ?_⟩
  refine List.pairwise_map.mpr (set.ascending_members.imp_of_mem fun ha hb below same => ?_)
  obtain rfl := h.nameOf_inj (inside _ ha) (inside _ hb) same
  exact Nat.lt_irrefl _ below

/-- All that a grammar declares and never uses, and nothing else. -/
structure IsExactReport (grammar : Grammar κ) (unused : Unused) : Prop where
  /-- No steps down lead to the symbol from the start symbol. -/
  unreachable : grammar.Lists unused.unreachable fun symbol => symbol.index < grammar.size ∧
    symbol ≠ .start ∧ symbol ≠ .empty ∧ ¬Relation.ReflTransGen grammar.StepsTo .start symbol
  /-- Steps down lead to the symbol, and it matches no token list. -/
  unproductive : grammar.Lists unused.unproductive fun symbol => symbol ≠ .start ∧
    symbol ≠ .empty ∧ Relation.ReflTransGen grammar.StepsTo .start symbol ∧
      ¬∃ tokens, grammar.Matches symbol tokens
  meaningOrder : unused.meanings.Pairwise (· < ·)
  meanings : ∀ name, name ∈ unused.meanings ↔ name ∈ grammar.signatures.names ∧
    ∀ symbol, Relation.ReflTransGen grammar.StepsTo .start symbol →
      ¬grammar.Employs symbol (.meaning name)
  categoryOrder : unused.categories.Pairwise (· < ·)
  categories : ∀ name, name ∈ unused.categories ↔ name ∈ grammar.categories.names ∧
    ∀ symbol, Relation.ReflTransGen grammar.StepsTo .start symbol →
      ¬grammar.Employs symbol (.category name)

theorem contains_complement_diff_reserved {set : SymbolSet} (size : set.size = grammar.size) :
    (set.complement.diff grammar.reserved).contains symbol = true ↔
      symbol.index < grammar.size ∧ symbol ≠ .start ∧ symbol ≠ .empty ∧
        set.contains symbol = false := by
  have bits : grammar.reserved.size = grammar.size := SymbolSet.size_ofTest ..
  rw [SymbolSet.contains_diff, SymbolSet.contains_complement, size, bits, ← Bool.not_eq_true
    (grammar.reserved.contains symbol), contains_reserved, not_and, not_or]
  constructor
  · rintro ⟨⟨known, missing⟩, -, other⟩
    exact ⟨known, (other known).1, (other known).2, missing⟩
  · rintro ⟨known, notStart, notEmpty, missing⟩
    exact ⟨⟨known, missing⟩, known, fun _ => ⟨notStart, notEmpty⟩⟩

section Sound

variable (sound : grammar.IsSound)

include sound

theorem IsSound.reachable_iff : grammar.reachable.contains symbol = true ↔
    Relation.ReflTransGen grammar.StepsTo .start symbol :=
  grammar.hasChild_eq_stepsTo ▸ sound.reachable_contains

theorem IsSound.not_inUse_iff : ¬grammar.InUse concept ↔
    ∀ symbol, Relation.ReflTransGen grammar.StepsTo .start symbol →
      ¬grammar.Employs symbol concept := by
  simp only [← sound.reachable_iff, employs_iff]
  constructor
  · rintro none symbol within ⟨use, has, mentions⟩
    exact none ⟨symbol, use, within, has, mentions⟩
  · rintro none ⟨symbol, use, within, has, mentions⟩
    exact none symbol within ⟨use, has, mentions⟩

theorem IsSound.isExactReport : grammar.IsExactReport grammar.unused where
  unreachable := by
    simp only [unused]
    refine sound.lists_members ?_ fun symbol => ?_
    · rw [SymbolSet.size_diff, SymbolSet.size_complement, size_reachable]
      exact Nat.min_le_left ..
    · rw [contains_complement_diff_reserved grammar.size_reachable, ← Bool.not_eq_true,
        sound.reachable_iff]
  unproductive := by
    simp only [unused]
    refine sound.lists_members ?_ fun symbol => ?_
    · rw [SymbolSet.size_inter, size_reachable]
      exact Nat.min_le_right ..
    · rw [SymbolSet.contains_inter, contains_complement_diff_reserved grammar.size_productive,
        ← Bool.not_eq_true, sound.productive_contains, sound.reachable_iff]
      constructor
      · rintro ⟨⟨known, notStart, notEmpty, barren⟩, path⟩
        exact ⟨notStart, notEmpty, path, fun produces => barren ⟨known, produces⟩⟩
      · rintro ⟨notStart, notEmpty, path, barren⟩
        have within := sound.reachable_iff.mpr path
        have known := grammar.size_reachable ▸ SymbolSet.lt_size_of_contains within
        exact ⟨⟨known, notStart, notEmpty, fun productive => barren productive.2⟩, path⟩
  meaningOrder := .filter _ (List.pairwise_map.mpr grammar.signatures.ascending)
  meanings name :=
    have reports : grammar.Reports (.meaning name) ↔ _ := reports_iff
    reports.trans (and_congr_right' sound.not_inUse_iff)
  categoryOrder := .filter _ (List.pairwise_map.mpr grammar.categories.ascending)
  categories name :=
    have reports : grammar.Reports (.category name) ↔ _ := reports_iff
    reports.trans (and_congr_right' sound.not_inUse_iff)

end Sound

/-- A grammar is refused with its report, unless that names nothing. -/
theorem requireUsed_eq_ite (grammar : Grammar κ) :
    grammar.requireUsed =
      if grammar.unused = ⟨[], [], [], []⟩ then .ok () else .error (.unused grammar.unused) := by
  have empty : grammar.unused.isEmpty = true ↔ grammar.unused = ⟨[], [], [], []⟩ := by
    generalize grammar.unused = unused
    obtain ⟨unreachable, unproductive, meanings, categories⟩ := unused
    simp only [Unused.isEmpty, Bool.and_eq_true, List.isEmpty_iff, Unused.mk.injEq, and_assoc]
  simp only [requireUsed, empty]

/-- Of every run, the report of what is unused names exactly the symbols that no steps down reach,
those that match nothing, and the declared names that no symbol within reach employs. A grammar is
refused with this report, unless all parts of it are empty. -/
theorem run_unused_exact [Cost κ] (operations : List (Operation κ)) :
    (run operations).IsExactReport (run operations).unused ∧
      (run operations).requireUsed =
        if (run operations).unused = ⟨[], [], [], []⟩ then .ok ()
        else .error (.unused (run operations).unused) :=
  ⟨(IsSound.run operations).isExactReport, requireUsed_eq_ite _⟩

/-- The sentence is a loop; nothing leads to the last symbol, nor to that of the category. -/
example :
    (run [.newSymbol ["loop"], .newSymbol ["stray"], .addCategory "repo" [⟨"cfg", ["cfg"]⟩],
        .declareArgument "nobody" 0, .addRule .start (.phrase (.ofSymbols [⟨2⟩, ⟨2⟩])),
        .addRule ⟨2⟩ (.phrase (.ofSymbols [⟨2⟩, ⟨2⟩]))] : Grammar Float).requireUsed =
      .error (.unused ⟨["[stray]", "\x7brepo\x7d"], ["[loop]"], ["nobody"], ["repo"]⟩) := by
  decide +kernel

end Grammar

end PhraseGrammar
