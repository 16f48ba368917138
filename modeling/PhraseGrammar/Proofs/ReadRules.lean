import PhraseGrammar.Proofs.NamedRules

/-! What an artifact tells of the rules of a grammar: all that a parser reads of them, except
whether an empty text stands in place of the children of a phrase. Costs are compared by a relation
of their own, since two numbers may be equal without being the same. -/

namespace PhraseGrammar

variable {κ : Type}

theorem rel_eq {α : Type} : Option.Rel (Eq : α → α → Prop) = Eq := by
  funext x y
  cases x <;> cases y <;> simp

def Table.Rel {α β : Type} (alike : α → β → Prop) (first : Table α) (second : Table β) : Prop :=
  ∀ name, Option.Rel alike (first.get? name) (second.get? name)

theorem Table.rel_eq {α : Type} : Table.Rel (Eq : α → α → Prop) = Eq := by
  funext first second
  rw [Table.Rel, PhraseGrammar.rel_eq]
  exact propext ⟨Table.ext_get?, fun h _ => h ▸ rfl⟩

theorem forall₂_and_iff {α β : Type} {p q : α → β → Prop} {xs : List α} {ys : List β} :
    List.Forall₂ (fun x y => p x y ∧ q x y) xs ys ↔
      List.Forall₂ p xs ys ∧ List.Forall₂ q xs ys := by
  constructor
  · exact fun both => ⟨both.imp fun _ _ h => h.1, both.imp fun _ _ h => h.2⟩
  · rintro ⟨left, right⟩
    induction left with
    | nil => exact .nil
    | cons here _ ih =>
      cases right with
      | cons there later => exact .cons ⟨here, there⟩ (ih later)

section Alike

variable (same : κ → κ → Prop)

structure Filler.Alike (a b : Filler κ) : Prop where
  cost : same a.cost b.cost
  text : a.text = b.text
  meanings : a.meanings = b.meanings

structure ArtifactElided.Alike (a b : ArtifactElided κ) : Prop where
  position : a.position = b.position
  symbol : a.symbol = b.symbol
  filler : a.filler.Alike same b.filler

structure ArtifactRule.Alike (a b : ArtifactRule κ) : Prop where
  isWord : a.isWord = b.isWord
  side : a.side = b.side
  cost : same a.cost b.cost
  text : a.text = b.text
  tense : a.tense = b.tense
  insertionCost : Option.Rel same a.insertionCost b.insertionCost
  meaning : a.meaning = b.meaning
  agreement : a.agreement = b.agreement
  transpositionCost : Option.Rel same a.transpositionCost b.transpositionCost
  origin : a.origin = b.origin
  elided : Option.Rel (ArtifactElided.Alike same) a.elided b.elided
  optionalPositions : a.optionalPositions = b.optionalPositions
  silentPositions : a.silentPositions = b.silentPositions
  category : a.category = b.category
  range : a.range = b.range

structure Signature.Alike (a b : Signature κ) : Prop where
  cost : same a.cost b.cost
  least : a.least = b.least
  greatest : a.greatest = b.greatest
  commutative : a.commutative = b.commutative
  isArgument : a.isArgument = b.isArgument

/-- Artifacts that differ in nothing but costs, and there no further than the relation allows. -/
structure Artifact.Alike (a b : Artifact κ) : Prop where
  start : a.start = b.start
  rules : Table.Rel (List.Forall₂ (ArtifactRule.Alike same)) a.rules b.rules
  signatures : Table.Rel (Signature.Alike same) a.signatures b.signatures
  categories : a.categories = b.categories

end Alike

theorem Filler.alike_eq : Filler.Alike (Eq : κ → κ → Prop) = Eq := by
  funext a b
  refine propext ⟨fun h => ?_, fun h => h ▸ ⟨rfl, rfl, rfl⟩⟩
  exact (Filler.mk.injEq ..).mpr ⟨h.cost, h.text, h.meanings⟩

theorem ArtifactElided.alike_eq : ArtifactElided.Alike (Eq : κ → κ → Prop) = Eq := by
  funext a b
  refine propext ⟨fun h => ?_, fun h => h ▸ ⟨rfl, rfl, Filler.alike_eq ▸ rfl⟩⟩
  have filler : a.filler = b.filler := Filler.alike_eq ▸ h.filler
  exact (ArtifactElided.mk.injEq ..).mpr ⟨h.position, h.symbol, filler⟩

theorem ArtifactRule.alike_eq : ArtifactRule.Alike (Eq : κ → κ → Prop) = Eq := by
  funext a b
  have elided : Option.Rel (ArtifactElided.Alike Eq) a.elided b.elided ↔ a.elided = b.elided := by
    rw [ArtifactElided.alike_eq, rel_eq]
  refine propext ⟨fun h => ?_, ?_⟩
  · exact (ArtifactRule.mk.injEq ..).mpr ⟨h.isWord, h.side, h.cost, h.text, h.tense,
      rel_eq ▸ h.insertionCost, h.meaning, h.agreement, rel_eq ▸ h.transpositionCost, h.origin,
      elided.mp h.elided, h.optionalPositions, h.silentPositions, h.category, h.range⟩
  · rintro rfl
    exact ⟨rfl, rfl, rfl, rfl, rfl, rel_eq ▸ rfl, rfl, rfl, rel_eq ▸ rfl, rfl, elided.mpr rfl, rfl,
      rfl, rfl, rfl⟩

theorem Signature.alike_eq : Signature.Alike (Eq : κ → κ → Prop) = Eq := by
  funext a b
  refine propext ⟨fun h => ?_, fun h => h ▸ ⟨rfl, rfl, rfl, rfl, rfl⟩⟩
  exact (Signature.mk.injEq ..).mpr ⟨h.cost, h.least, h.greatest, h.commutative, h.isArgument⟩

theorem Artifact.alike_eq : Artifact.Alike (Eq : κ → κ → Prop) = Eq := by
  funext a b
  have rules : Table.Rel (List.Forall₂ (ArtifactRule.Alike Eq)) a.rules b.rules ↔
      a.rules = b.rules := by
    rw [ArtifactRule.alike_eq, List.forall₂_eq_eq_eq, Table.rel_eq]
  have signatures : Table.Rel (Signature.Alike Eq) a.signatures b.signatures ↔
      a.signatures = b.signatures := by
    rw [Signature.alike_eq, Table.rel_eq]
  refine propext ⟨fun h => ?_, ?_⟩
  · exact (Artifact.mk.injEq ..).mpr
      ⟨h.start, rules.mp h.rules, signatures.mp h.signatures, h.categories⟩
  · rintro rfl
    exact ⟨rfl, rules.mpr rfl, signatures.mpr rfl, rfl⟩

section ReadsLike

variable (same : κ → κ → Prop) (nameOf nameOf' : Symbol → String)

structure WordRule.ReadsLike (a b : WordRule κ) : Prop where
  literal : a.literal = b.literal
  text : a.text = b.text
  tense : a.tense = b.tense
  insertionCost : Option.Rel same a.insertionCost b.insertionCost
  penalty : same a.penalty b.penalty
  meaning : a.meaning = b.meaning
  category : a.category = b.category
  range : a.range = b.range

structure Elided.ReadsLike (a b : Elided κ) : Prop where
  position : a.position = b.position
  symbol : nameOf a.symbol = nameOf' b.symbol
  filler : a.filler.Alike same b.filler

/-- Phrases that are the same to a parser. What keeps children from being left out matters only
while rules are derived. -/
structure PhraseRule.ReadsLike (a b : PhraseRule κ) : Prop where
  slots : a.readSlots nameOf = b.readSlots nameOf'
  cost : same a.cost b.cost
  meaning : a.meaning = b.meaning
  text : a.text = b.text
  agreement : a.agreement = b.agreement
  transpositionCost : Option.Rel same a.transpositionCost b.transpositionCost
  insertionCost : Option.Rel same a.insertionCost b.insertionCost
  origin : a.origin = b.origin
  elided : Option.Rel (Elided.ReadsLike same nameOf nameOf') a.elided b.elided

def Rule.ReadsLike : Rule κ → Rule κ → Prop
  | .word a, .word b => a.ReadsLike same b
  | .phrase a, .phrase b => a.ReadsLike same nameOf nameOf' b
  | _, _ => False

end ReadsLike

namespace Rule

def dropEmptyText : Rule κ → Rule κ
  | .word rule => .word rule
  | .phrase rule => .phrase { rule with text := rule.text.filter fun text => !text.isEmpty }

/-- Whether a text stands in place of the children. -/
def substitutes : Rule κ → Bool
  | .word _ => false
  | .phrase rule => rule.text.isSome

end Rule

theorem toList_eq_iff {α : Type} {x y : Option α} : x.toList = y.toList ↔ x = y := by
  cases x <;> cases y <;> simp

theorem getD_nil_eq_iff {α : Type} {x y : Option (List α)} :
    x.getD [] = y.getD [] ↔
      x.filter (fun text => !text.isEmpty) = y.filter fun text => !text.isEmpty := by
  rcases x with _ | _ | _ <;> rcases y with _ | _ | _ <;> simp [Option.filter]

theorem filter_isEmpty_eq_iff {α : Type} {x y : Option (List α)} :
    x = y ↔ x.filter (fun text => !text.isEmpty) = y.filter (fun text => !text.isEmpty) ∧
      x.isSome = y.isSome := by
  rcases x with _ | _ | _ <;> rcases y with _ | _ | _ <;> simp [Option.filter]

variable {same : κ → κ → Prop} {nameOf nameOf' : Symbol → String}

theorem Rule.readsLike_iff {a b : Rule κ} :
    a.ReadsLike same nameOf nameOf' b ↔
      a.dropEmptyText.ReadsLike same nameOf nameOf' b.dropEmptyText ∧
        a.substitutes = b.substitutes := by
  cases a with
  | word a =>
    cases b with
    | word b => exact (and_iff_left rfl).symm
    | phrase b => exact ⟨False.elim, fun h => h.1⟩
  | phrase a =>
    cases b with
    | word b => exact ⟨False.elim, fun h => h.1⟩
    | phrase b =>
      constructor
      · intro h
        obtain ⟨text, substitutes⟩ := filter_isEmpty_eq_iff.mp h.text
        exact ⟨{ h with text }, substitutes⟩
      · rintro ⟨h, substitutes⟩
        exact { h with text := filter_isEmpty_eq_iff.mpr ⟨h.text, substitutes⟩ }

namespace Grammar

variable {grammar other : Grammar κ}

theorem artifactElided_alike_iff {a b : Option (Elided κ)} :
    Option.Rel (ArtifactElided.Alike same)
        (a.map grammar.artifactElided) (b.map other.artifactElided) ↔
      Option.Rel (Elided.ReadsLike same grammar.nameOf other.nameOf) a b := by
  cases a with
  | none => cases b <;> simp
  | some a =>
    cases b with
    | none => simp
    | some b =>
      rw [Option.map_some, Option.map_some, Option.rel_some_some, Option.rel_some_some]
      exact ⟨fun h => ⟨h.position, h.symbol, h.filler⟩, fun h => ⟨h.position, h.symbol, h.filler⟩⟩

theorem artifactRule_word_alike_iff {a b : WordRule κ} :
    (grammar.artifactRule (.word a)).Alike same (other.artifactRule (.word b)) ↔
      a.ReadsLike same b := by
  constructor
  · intro h
    have literal : a.literal = b.literal := List.singleton_inj.mp h.side
    have text : a.text = b.text := toList_eq_iff.mp h.text
    exact ⟨literal, text, h.tense, h.insertionCost, h.cost, h.meaning, h.category, h.range⟩
  · intro h
    exact ⟨rfl, congrArg (fun literal => [literal]) h.literal, h.penalty,
      toList_eq_iff.mpr h.text, h.tense,
      h.insertionCost, h.meaning, rfl, .none, rfl, .none, rfl, rfl, h.category, h.range⟩

theorem artifactRule_phrase_alike_iff {a b : PhraseRule κ} :
    (grammar.artifactRule (.phrase a)).Alike same (other.artifactRule (.phrase b)) ↔
      (Rule.phrase a).dropEmptyText.ReadsLike same grammar.nameOf other.nameOf
        (Rule.phrase b).dropEmptyText := by
  constructor
  · intro h
    have slots := PhraseRule.readSlots_eq_iff.mpr ⟨h.side, h.optionalPositions, h.silentPositions⟩
    exact ⟨slots, h.cost, h.meaning, getD_nil_eq_iff.mp h.text, h.agreement, h.transpositionCost,
      h.insertionCost, h.origin, artifactElided_alike_iff.mp h.elided⟩
  · intro h
    obtain ⟨names, optional, silent⟩ := PhraseRule.readSlots_eq_iff.mp h.slots
    exact ⟨rfl, names, h.cost, getD_nil_eq_iff.mpr h.text, rfl, h.insertionCost, h.meaning,
      h.agreement, h.transpositionCost, h.origin, artifactElided_alike_iff.mpr h.elided, optional,
      silent, rfl, rfl⟩

/-- All that is read of a rule is told by what is written of it, but for an empty text. -/
theorem artifactRule_alike_iff {a b : Rule κ} :
    (grammar.artifactRule a).Alike same (other.artifactRule b) ↔
      a.dropEmptyText.ReadsLike same grammar.nameOf other.nameOf b.dropEmptyText := by
  cases a with
  | word a =>
    cases b with
    | word b => exact artifactRule_word_alike_iff
    | phrase b => exact ⟨fun h => Bool.noConfusion h.isWord, False.elim⟩
  | phrase a =>
    cases b with
    | word b => exact ⟨fun h => Bool.noConfusion h.isWord, False.elim⟩
    | phrase b => exact artifactRule_phrase_alike_iff

/-- Under each name two grammars have rules that are the same to a parser, one by one, when they are
seen in some way, and what is declared in them is the same. -/
structure ReadsLike (same : κ → κ → Prop) (view : Rule κ → Rule κ) (grammar other : Grammar κ) :
    Prop where
  rules : ∀ name,
    List.Forall₂ (fun a b => (view a).ReadsLike same grammar.nameOf other.nameOf (view b))
      (grammar.rulesNamed name) (other.rulesNamed name)
  signatures : Table.Rel (Signature.Alike same) grammar.signatures other.signatures
  categories : grammar.categories = other.categories

theorem rel_unless_empty_iff {α α' β β' : Type} {alike : β → β' → Prop} {f : α → β} {g : α' → β'}
    {xs : List α} {ys : List α'} {dispensable : Bool} :
    Option.Rel (List.Forall₂ alike)
        (if xs.isEmpty && dispensable then none else some (xs.map f))
        (if ys.isEmpty && dispensable then none else some (ys.map g)) ↔
      List.Forall₂ (fun x y => alike (f x) (g y)) xs ys := by
  cases dispensable <;> cases xs <;> cases ys <;> simp

theorem IsSound.artifact_alike_iff (sound : grammar.IsSound) (sound' : other.IsSound) :
    grammar.artifact.Alike same other.artifact ↔
      grammar.ReadsLike same Rule.dropEmptyText other := by
  have rules : Table.Rel (List.Forall₂ (ArtifactRule.Alike same)) grammar.artifact.rules
      other.artifact.rules ↔ ∀ name, List.Forall₂ (fun a b =>
        a.dropEmptyText.ReadsLike same grammar.nameOf other.nameOf b.dropEmptyText)
          (grammar.rulesNamed name) (other.rulesNamed name) := by
    refine forall_congr' fun name => ?_
    rw [sound.artifact_get?, sound'.artifact_get?, rel_unless_empty_iff]
    simp only [artifactRule_alike_iff]
  constructor
  · exact fun h => ⟨rules.mp h.rules, h.signatures, h.categories⟩
  · exact fun h => ⟨sound.nameOf_start.trans sound'.nameOf_start.symm, rules.mpr h.rules,
      h.signatures, h.categories⟩

theorem readsLike_iff :
    grammar.ReadsLike same id other ↔ grammar.ReadsLike same Rule.dropEmptyText other ∧
      ∀ name, List.Forall₂ (fun a b => a.substitutes = b.substitutes)
        (grammar.rulesNamed name) (other.rulesNamed name) := by
  constructor
  · intro h
    have rules := fun name =>
      forall₂_and_iff.mp ((h.rules name).imp fun _ _ => Rule.readsLike_iff.mp)
    exact ⟨⟨fun name => (rules name).1, h.signatures, h.categories⟩, fun name => (rules name).2⟩
  · rintro ⟨h, substitutes⟩
    refine ⟨fun name => ?_, h.signatures, h.categories⟩
    have both := forall₂_and_iff.mpr ⟨h.rules name, substitutes name⟩
    exact both.imp fun _ _ => Rule.readsLike_iff.mpr

variable [Cost κ]

/-- After all runs, grammars with artifacts that are alike have the same rules to a parser, if empty
texts are put aside; and with these, exactly when the rules in the same places have both a text in
place of the children, or neither has. -/
theorem run_readsLike_iff (same : κ → κ → Prop) (operations others : List (Operation κ)) :
    ((run operations).artifact.Alike same (run others).artifact ↔
        (run operations).ReadsLike same Rule.dropEmptyText (run others)) ∧
      ((run operations).ReadsLike same id (run others) ↔
        (run operations).artifact.Alike same (run others).artifact ∧
          ∀ name, List.Forall₂ (fun a b => a.substitutes = b.substitutes)
            ((run operations).rulesNamed name) ((run others).rulesNamed name)) := by
  have written : (run operations).artifact.Alike same (run others).artifact ↔ _ :=
    (IsSound.run operations).artifact_alike_iff (IsSound.run others)
  exact ⟨written, readsLike_iff.trans (and_congr_left' written.symm)⟩

def loneWord (text : Option (List Wording)) : List (Operation Float) :=
  [.newSymbol ["word"],
    .addRules [(⟨2⟩, .word (.ofLiteral "word")),
      (.start, .phrase { PhraseRule.ofSymbols [⟨2⟩] with text })]]

theorem loneWord_isPlain (text : Option (List Wording)) :
    ∀ operation ∈ loneWord text, operation.IsPlain := by
  simp only [loneWord, List.forall_mem_cons]
  refine ⟨trivial, ?_, List.forall_mem_nil _⟩
  intro member mem
  rcases List.mem_pair.mp mem with rfl | rfl
  · exact Rule.isPlain_ofLiteral
  · exact Rule.isPlain_ofSlots

/-- The word is displayed in one of two grammars, and nothing in the other, but they have the same
artifact. -/
theorem loneWord_artifact_eq :
    (∀ text, ∀ operation ∈ loneWord text, operation.IsPlain) ∧
      (run (loneWord none)).artifact = (run (loneWord (some []))).artifact ∧
      ∀ same : Float → Float → Prop,
        ¬(run (loneWord none)).ReadsLike same id (run (loneWord (some []))) := by
  have rules : ∀ text ∈ [none, some []], (run (loneWord text)).rulesNamed SymbolName.start =
      [.phrase { PhraseRule.ofSymbols [⟨2⟩] with text }] := by
    decide +kernel
  refine ⟨loneWord_isPlain, by decide +kernel, fun same h => ?_⟩
  have start := h.rules SymbolName.start
  rw [rules none (.head _), rules (some []) (.tail _ (.head _))] at start
  cases start with
  | cons first _ => exact absurd first.text nofun

end Grammar

end PhraseGrammar
