import Mathlib.Data.List.Nodup
import PhraseGrammar.Artifact.Encoder
import PhraseGrammar.Proofs.Accounting
import PhraseGrammar.Proofs.ClosedArtifacts
import PhraseGrammar.Proofs.Counterparts
import PhraseGrammar.Proofs.WrittenRules

/-! Rules under names. An artifact keeps every rule under the name of its symbol, and nothing of it
depends on the numbers that symbols got when they were made. -/

namespace PhraseGrammar

variable {κ : Type}

structure PhraseRule.SameNamed (nameOf nameOf' : Symbol → String) (a b : PhraseRule κ) : Prop where
  slots :
    a.slots.map (fun slot => (nameOf slot.symbol, slot.optional, slot.required, slot.silent)) =
      b.slots.map fun slot => (nameOf' slot.symbol, slot.optional, slot.required, slot.silent)
  elided : a.elided.map (fun elided => (elided.position, nameOf elided.symbol, elided.filler)) =
    b.elided.map fun elided => (elided.position, nameOf' elided.symbol, elided.filler)
  others : { a with slots := [], elided := none } = { b with slots := [], elided := none }

def Rule.SameNamed (nameOf nameOf' : Symbol → String) : Rule κ → Rule κ → Prop
  | .word a, .word b => a = b
  | .phrase a, .phrase b => a.SameNamed nameOf nameOf' b
  | _, _ => False

instance [DecidableEq κ] (nameOf nameOf' : Symbol → String) (a b : PhraseRule κ) :
    Decidable (a.SameNamed nameOf nameOf' b) :=
  decidable_of_iff (_ ∧ _ ∧ _)
    ⟨fun ⟨slots, elided, others⟩ => ⟨slots, elided, others⟩, fun h => ⟨h.1, h.2, h.3⟩⟩

instance [DecidableEq κ] (nameOf nameOf' : Symbol → String) :
    (a b : Rule κ) → Decidable (a.SameNamed nameOf nameOf' b)
  | .word a, .word b => inferInstanceAs (Decidable (a = b))
  | .phrase a, .phrase b => inferInstanceAs (Decidable (a.SameNamed nameOf nameOf' b))
  | .word _, .phrase _ | .phrase _, .word _ => isFalse id

def PhraseRule.readSlots (nameOf : Symbol → String) (rule : PhraseRule κ) :
    List (String × Bool × Bool) :=
  rule.slots.map fun slot => (nameOf slot.symbol, slot.optional, slot.silent)

theorem PhraseRule.positionsWhere_eq_iff {a b : PhraseRule κ} {test : Slot → Bool}
    (length : a.slots.length = b.slots.length) :
    a.positionsWhere test = b.positionsWhere test ↔ a.slots.map test = b.slots.map test := by
  have set : ∀ (rule : PhraseRule κ) (i : Nat),
      i ∈ rule.positionsWhere test ↔ (rule.slots.map test)[i]? = some true := by
    intro rule i
    rw [mem_positionsWhere, List.getElem?_map, Option.map_eq_some_iff]
  constructor
  · intro same
    refine List.ext_getElem (by rw [List.length_map, List.length_map, length]) ?_
    intro i here there
    have marked := set a i
    rw [same, set b i, List.getElem?_eq_getElem here, List.getElem?_eq_getElem there,
      Option.some.injEq, Option.some.injEq] at marked
    exact (Bool.eq_iff_iff.mpr marked).symm
  · intro same
    refine (a.markedAt_positionsWhere test).ascending.eq_of_mem_iff
      (b.markedAt_positionsWhere test).ascending fun i => ?_
    rw [set, set, same]

theorem map_pair_eq_iff {α α' β γ : Type} {f : α → β} {f' : α' → β} {g : α → γ} {g' : α' → γ}
    {xs : List α} {ys : List α'} :
    (xs.map fun x => (f x, g x)) = (ys.map fun y => (f' y, g' y)) ↔
      xs.map f = ys.map f' ∧ xs.map g = ys.map g' := by
  induction xs generalizing ys with
  | nil => cases ys <;> simp
  | cons x xs ih =>
    cases ys with
    | nil => simp
    | cons y ys =>
      simp only [List.map_cons, List.cons.injEq, Prod.mk.injEq, ih]
      exact and_and_and_comm

theorem PhraseRule.readSlots_eq_iff {nameOf nameOf' : Symbol → String} {a b : PhraseRule κ} :
    a.readSlots nameOf = b.readSlots nameOf' ↔
      a.symbols.map nameOf = b.symbols.map nameOf' ∧
        a.positionsWhere (·.optional) = b.positionsWhere (·.optional) ∧
        a.positionsWhere (·.silent) = b.positionsWhere (·.silent) := by
  rw [readSlots, readSlots, map_pair_eq_iff, map_pair_eq_iff, symbols, symbols, List.map_map,
    List.map_map]
  refine and_congr_right fun names => ?_
  have length : a.slots.length = b.slots.length := by
    simpa only [List.length_map] using congrArg List.length names
  rw [positionsWhere_eq_iff length, positionsWhere_eq_iff length]

namespace Grammar

def rulesNamed (grammar : Grammar κ) (name : String) : List (Rule κ) :=
  ((grammar.symbol? name).map grammar.rulesOf).getD []

/-- Two grammars with the same names, under each of which they have the same rules in the same
order, and with the same signatures and categories. -/
structure SameUpToNumbering (grammar other : Grammar κ) : Prop where
  names : ∀ name, (grammar.symbol? name).isSome = (other.symbol? name).isSome
  rules : ∀ name, List.Forall₂ (Rule.SameNamed grammar.nameOf other.nameOf)
    (grammar.rulesNamed name) (other.rulesNamed name)
  signatures : grammar.signatures = other.signatures
  categories : grammar.categories = other.categories

variable {grammar other : Grammar κ}

theorem IsSound.nameOf_start (sound : grammar.IsSound) :
    grammar.nameOf .start = SymbolName.start := by
  rw [nameOf, sound.start]
  rfl

theorem IsSound.rulesNamed_nameOf (sound : grammar.IsSound) {symbol : Symbol}
    (known : symbol.index < grammar.size) :
    grammar.rulesNamed (grammar.nameOf symbol) = grammar.rulesOf symbol := by
  rw [rulesNamed, sound.symbol?_eq_some.mpr ⟨known, rfl⟩]
  rfl

/-- The symbols in an artifact: those with rules, and the start symbol. -/
def listed (grammar : Grammar κ) : List Symbol :=
  grammar.symbols.filter fun symbol => !(grammar.rulesOf symbol).isEmpty || symbol = .start

theorem mem_listed {symbol : Symbol} :
    symbol ∈ grammar.listed ↔ symbol.index < grammar.size ∧
      (grammar.rulesOf symbol ≠ [] ∨ symbol = .start) := by
  simp only [listed, symbols, List.mem_filter, List.mem_map, List.mem_range, Bool.or_eq_true,
    Bool.not_eq_true', List.isEmpty_eq_false_iff, decide_eq_true_eq]
  refine and_congr_left' ⟨?_, fun known => ⟨_, known, rfl⟩⟩
  rintro ⟨_, known, rfl⟩
  exact known

theorem artifactEntries_eq (grammar : Grammar κ) :
    grammar.artifactEntries = grammar.listed.map fun symbol =>
      (grammar.nameOf symbol, (grammar.rulesOf symbol).map grammar.artifactRule) := by
  have listed : ∀ symbol, (!(grammar.rulesOf symbol).isEmpty || symbol = .start) =
      !((grammar.rulesOf symbol).isEmpty && symbol ≠ .start) := by
    intro symbol
    simp
  rw [Grammar.listed, List.filter_congr fun symbol _ => listed symbol, artifactEntries]
  induction grammar.symbols with
  | nil => rfl
  | cons symbol rest ih =>
    rw [List.filterMap_cons, List.filter_cons, ih]
    by_cases left : ((grammar.rulesOf symbol).isEmpty && symbol ≠ .start) = true
    · simp only [left, if_true, Bool.not_true, Bool.false_eq_true, if_false]
    · simp only [left, Bool.false_eq_true, if_false, Bool.not_false, if_true, List.map_cons]

theorem IsSound.artifactEntries_nodup (sound : grammar.IsSound) :
    (grammar.artifactEntries.map (·.1)).Nodup := by
  have distinct : grammar.listed.Nodup := grammar.nodup_symbols.filter _
  rw [artifactEntries_eq, List.map_map]
  refine List.Nodup.map_on (fun a ha b hb same => ?_) distinct
  exact sound.nameOf_inj (mem_listed.mp ha).1 (mem_listed.mp hb).1 same

theorem IsSound.artifact_entries_perm (sound : grammar.IsSound) :
    grammar.artifact.rules.entries.Perm (grammar.listed.map fun symbol =>
      (grammar.nameOf symbol, (grammar.rulesOf symbol).map grammar.artifactRule)) :=
  artifactEntries_eq grammar ▸ Table.ofList_perm sound.artifactEntries_nodup

theorem flatMap_listed (grammar : Grammar κ) :
    grammar.listed.flatMap grammar.rulesOf = grammar.symbols.flatMap grammar.rulesOf := by
  rw [listed]
  induction grammar.symbols with
  | nil => rfl
  | cons symbol rest ih =>
    rw [List.filter_cons, List.flatMap_cons, ← ih]
    split
    case isTrue => exact List.flatMap_cons
    case isFalse left =>
      have none : grammar.rulesOf symbol = [] := by
        by_contra some
        exact left (Bool.or_eq_true_iff.mpr (.inl (by simp [some])))
      rw [none, List.nil_append]

theorem IsSound.artifact_ruleCount (sound : grammar.IsSound) :
    grammar.artifact.ruleCount = grammar.ruleCount := by
  have lengths : grammar.ruleCount = (grammar.listed.flatMap grammar.rulesOf).length := by
    rw [flatMap_listed, List.length_flatMap, ruleCount_eq_sum]
  rw [lengths, Artifact.ruleCount, (sound.artifact_entries_perm.flatMap_right _).length_eq,
    List.flatMap_map, List.length_flatMap, List.length_flatMap]
  exact congrArg List.sum (List.map_congr_left fun symbol _ => List.length_map _)

/-- An artifact has the rules of each symbol under its name, and there are no others in it. -/
theorem IsSound.artifact_get?_eq_some_iff (sound : grammar.IsSound) {name : String}
    {written : List (ArtifactRule κ)} :
    grammar.artifact.rules.get? name = some written ↔ ∃ symbol : Symbol,
      symbol.index < grammar.size ∧ (grammar.rulesOf symbol ≠ [] ∨ symbol = .start) ∧
        grammar.nameOf symbol = name ∧
        List.Forall₂ (Rule.IsWrittenAs grammar.nameOf) (grammar.rulesOf symbol) written := by
  rw [Table.get?_eq_some_iff, sound.artifact_entries_perm.mem_iff, List.mem_map]
  refine exists_congr fun symbol => ?_
  rw [mem_listed, Prod.mk.injEq, forall₂_isWrittenAs_iff, and_assoc]

theorem IsSound.artifact_get? (sound : grammar.IsSound) (name : String) :
    grammar.artifact.rules.get? name =
      if (grammar.rulesNamed name).isEmpty && name ≠ SymbolName.start then none
      else some ((grammar.rulesNamed name).map grammar.artifactRule) := by
  have there : ∀ rules, grammar.artifact.rules.get? name = some rules ↔
      ∃ symbol ∈ grammar.listed, grammar.nameOf symbol = name ∧
        (grammar.rulesOf symbol).map grammar.artifactRule = rules := by
    intro rules
    simp only [sound.artifact_get?_eq_some_iff, mem_listed, forall₂_isWrittenAs_iff, and_assoc]
  refine Option.ext fun rules => ?_
  rw [there]
  cases found : grammar.symbol? name with
  | none =>
    have absent : ∀ symbol ∈ grammar.listed, grammar.nameOf symbol ≠ name := by
      intro symbol mem same
      rw [sound.symbol?_eq_some.mpr ⟨(mem_listed.mp mem).1, same⟩] at found
      cases found
    have other : name ≠ SymbolName.start := by
      rintro rfl
      exact absent .start (mem_listed.mpr ⟨sound.start_lt, .inr rfl⟩) sound.nameOf_start
    have empty : grammar.rulesNamed name = [] := by rw [rulesNamed, found]; rfl
    rw [if_pos (by simp [empty, other])]
    exact ⟨fun ⟨symbol, mem, same, _⟩ => absurd same (absent symbol mem), nofun⟩
  | some symbol =>
    obtain ⟨known, rfl⟩ := sound.symbol?_eq_some.mp found
    have listed : symbol ∈ grammar.listed ↔ ¬((grammar.rulesOf symbol).isEmpty &&
        decide (grammar.nameOf symbol ≠ SymbolName.start)) = true := by
      have start : grammar.nameOf symbol = SymbolName.start ↔ symbol = .start :=
        ⟨fun same => sound.nameOf_inj known sound.start_lt (same.trans sound.nameOf_start.symm),
          fun same => same ▸ sound.nameOf_start⟩
      rw [mem_listed, and_iff_right known, ← start, Bool.and_eq_true, List.isEmpty_iff,
        decide_eq_true_eq, not_and_or, Classical.not_not]
    rw [sound.rulesNamed_nameOf known, Option.ite_none_left_eq_some, ← listed, Option.some.injEq]
    constructor
    · rintro ⟨other, mem, same, rfl⟩
      obtain rfl := sound.nameOf_inj (mem_listed.mp mem).1 known same
      exact ⟨mem, rfl⟩
    · rintro ⟨mem, same⟩
      exact ⟨symbol, mem, rfl, same⟩

theorem artifactRule_phrase_eq {a b : PhraseRule κ}
    (same : a.SameNamed grammar.nameOf other.nameOf b) :
    grammar.artifactRule (.phrase a) = other.artifactRule (.phrase b) := by
  obtain ⟨slots, elided, others⟩ := same
  have read : a.readSlots grammar.nameOf = b.readSlots other.nameOf := by
    simpa [PhraseRule.readSlots, Function.comp_def] using
      congrArg (List.map fun slot => (slot.1, slot.2.1, slot.2.2.2)) slots
  have elided : a.elided.map grammar.artifactElided = b.elided.map other.artifactElided := by
    have written := congrArg
      (Option.map fun elided => ArtifactElided.mk elided.1 elided.2.1 elided.2.2) elided
    rw [Option.map_map, Option.map_map] at written
    exact written
  obtain ⟨names, optional, silent⟩ := PhraseRule.readSlots_eq_iff.mp read
  simp only [PhraseRule.mk.injEq] at others
  obtain ⟨-, cost, meaning, text, agreement, transposition, insertion, -, -, origin, -⟩ := others
  simp only [artifactRule, names, optional, silent, elided, cost, meaning, text, agreement,
    transposition, insertion, origin]

theorem artifactRule_eq {a b : Rule κ} (same : a.SameNamed grammar.nameOf other.nameOf b) :
    grammar.artifactRule a = other.artifactRule b := by
  cases a with
  | word a =>
    cases b with
    | word b => exact congrArg (fun rule => grammar.artifactRule (.word rule)) same
    | phrase b => cases same
  | phrase a =>
    cases b with
    | word b => cases same
    | phrase b => exact artifactRule_phrase_eq same

/-- Two grammars that differ only in the numbers of their symbols have one artifact. -/
theorem SameUpToNumbering.artifact_eq (h : grammar.SameUpToNumbering other)
    (sound : grammar.IsSound) (sound' : other.IsSound) : grammar.artifact = other.artifact := by
  have start : grammar.artifact.start = other.artifact.start :=
    sound.nameOf_start.trans sound'.nameOf_start.symm
  have rules : grammar.artifact.rules = other.artifact.rules := by
    refine Table.ext_get? fun name => ?_
    have written : (grammar.rulesNamed name).map grammar.artifactRule =
        (other.rulesNamed name).map other.artifactRule := by
      rw [← List.forall₂_eq_eq_eq, List.forall₂_map_left_iff, List.forall₂_map_right_iff]
      exact (h.rules name).imp fun _ _ same => artifactRule_eq same
    have empty := congrArg List.isEmpty written
    rw [List.isEmpty_map, List.isEmpty_map] at empty
    rw [sound.artifact_get?, sound'.artifact_get?, written, empty]
  exact (Artifact.mk.injEq ..).mpr ⟨start, rules, h.signatures, h.categories⟩

/-- Numbers do not matter: the names may be in any order, and the rules need only be looked up. -/
theorem SameUpToNumbering.of_perm
    (names : (grammar.entries.map (·.name)).Perm (other.entries.map (·.name)))
    (rules : ∀ name ∈ grammar.entries.map (·.name),
      List.Forall₂ (Rule.SameNamed grammar.nameOf other.nameOf)
        (grammar.rulesNamed name) (other.rulesNamed name))
    (signatures : grammar.signatures = other.signatures)
    (categories : grammar.categories = other.categories) : grammar.SameUpToNumbering other where
  names name := by
    rw [Bool.eq_iff_iff, isSome_symbol?_iff, isSome_symbol?_iff, names.mem_iff]
  rules name := by
    by_cases known : name ∈ grammar.entries.map (·.name)
    · exact rules name known
    · have absent : ∀ {grammar : Grammar κ}, name ∉ grammar.entries.map (·.name) →
          grammar.rulesNamed name = [] := by
        intro grammar absent
        rw [rulesNamed, Option.not_isSome_iff_eq_none.mp (mt isSome_symbol?_iff.mp absent)]
        rfl
      rw [absent known, absent (mt names.mem_iff.mpr known)]
      exact .nil
  signatures := signatures
  categories := categories

variable [Cost κ] [WrittenCost κ]

/-- After every run the artifact has each rule of the grammar once, under the name of its symbol and
in order, and says of it all that a parser reads. Grammars that differ only in the numbers of their
symbols have one artifact, and so the same documents are written of them. -/
theorem run_artifact_complete (operations : List (Operation κ)) :
    (run operations).artifact.ruleCount = (run operations).ruleCount ∧
      (run operations).artifact.rules.entries.Perm
        ((run operations).listed.map fun symbol => ((run operations).nameOf symbol,
          ((run operations).rulesOf symbol).map (run operations).artifactRule)) ∧
      (∀ name written, (run operations).artifact.rules.get? name = some written ↔
        ∃ symbol : Symbol, symbol.index < (run operations).size ∧
          ((run operations).rulesOf symbol ≠ [] ∨ symbol = .start) ∧
          (run operations).nameOf symbol = name ∧
          List.Forall₂ (Rule.IsWrittenAs (run operations).nameOf)
            ((run operations).rulesOf symbol) written) ∧
      ∀ others : List (Operation κ), (run operations).SameUpToNumbering (run others) →
        (run operations).artifact = (run others).artifact ∧
          ∀ layout : JsonLayout,
            (run operations).artifact.write layout = (run others).artifact.write layout := by
  have sound := IsSound.run operations
  refine ⟨sound.artifact_ruleCount, sound.artifact_entries_perm,
    fun name written => sound.artifact_get?_eq_some_iff, fun others same => ?_⟩
  have equal := same.artifact_eq sound (IsSound.run others)
  exact ⟨equal, fun layout => congrArg (Artifact.write layout) equal⟩

/-- A phrase with a word after it, and the word before the phrase in the order of symbols. -/
def wordFirst : List (Operation Float) :=
  [.newSymbol ["word"], .newSymbol ["phrase"],
    .addRules [(⟨2⟩, .word (.ofLiteral "word")), (⟨3⟩, .phrase (.ofSymbols [⟨2⟩])),
      (.start, .phrase (.ofSymbols [⟨3⟩, ⟨2⟩]))]]

def phraseFirst : List (Operation Float) :=
  [.newSymbol ["phrase"], .newSymbol ["word"],
    .addRules [(⟨3⟩, .word (.ofLiteral "word")), (⟨2⟩, .phrase (.ofSymbols [⟨3⟩])),
      (.start, .phrase (.ofSymbols [⟨2⟩, ⟨3⟩]))]]

theorem wordFirst_artifact_eq :
    (run wordFirst).nameOf ⟨2⟩ ≠ (run phraseFirst).nameOf ⟨2⟩ ∧
      (run wordFirst).SameUpToNumbering (run phraseFirst) ∧
      (run wordFirst).artifact.rules.get? SymbolName.start =
        some [⟨false, ["[phrase]", "[word]"], 0, [], none, none, none, .none, none, .authored, none,
          [], [], none, none⟩] ∧
      (run wordFirst).artifact = (run phraseFirst).artifact ∧
      ∀ layout : JsonLayout,
        (run wordFirst).artifact.write layout = (run phraseFirst).artifact.write layout := by
  have same : (run wordFirst).SameUpToNumbering (run phraseFirst) :=
    .of_perm (by decide +kernel) (by decide +kernel) (by decide +kernel) (by decide +kernel)
  have rules : (run wordFirst).rulesOf .start = [.phrase (.ofSymbols [⟨3⟩, ⟨2⟩])] := by
    decide +kernel
  obtain ⟨-, -, holds, equal⟩ := run_artifact_complete wordFirst
  refine ⟨by decide +kernel, same, ?_, equal phraseFirst same⟩
  refine (holds _ _).mpr ⟨.start, by decide +kernel, .inr rfl, by decide +kernel, ?_⟩
  rw [rules]
  refine .cons ?_ .nil
  exact {
    isWord := rfl
    side := .cons (by decide +kernel) (.cons (by decide +kernel) .nil)
    cost := rfl
    text := rfl
    insertionCost := rfl
    meaning := rfl
    agreement := rfl
    transpositionCost := rfl
    origin := rfl
    elided := .none
    optionalPositions := PhraseRule.markedAt_iff.mpr rfl
    silentPositions := PhraseRule.markedAt_iff.mpr rfl
    tense := rfl
    category := rfl
    range := rfl }

end Grammar

end PhraseGrammar
