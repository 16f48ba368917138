import PhraseGrammar.Proofs.Charges
import PhraseGrammar.Proofs.Settling

/-! What a pair is filled with, and what the rule that leaves out one of its children is filled
with. The pair puts the fillers of both children together, each shown as its slot says; the other
rule puts the filler that it remembers back in its place, and has lost the slot's say about it. -/

namespace PhraseGrammar

variable {κ : Type}

/-- What stands at a place, with what stands at the other one. -/
def Place.order {α : Type} (place : Place) (mine other : α) : List α :=
  match place with
  | .first => [mine, other]
  | .second => [other, mine]

theorem Place.map_order {α β : Type} (f : α → β) (place : Place) (mine other : α) :
    (place.order mine other).map f = place.order (f mine) (f other) := by
  cases place <;> rfl

theorem Place.flatten_order_inj {α : Type} {place : Place} {mine mine' other : List α} :
    (place.order mine other).flatten = (place.order mine' other).flatten ↔ mine = mine' := by
  cases place <;> simp [Place.order]

/-- An authored rule has all the children that its author gave it. -/
def Rule.IsWhole : Rule κ → Prop
  | .word _ => True
  | .phrase rule => rule.origin = .authored → rule.elided = none

theorem Rule.IsWhole.of_origin {rule : PhraseRule κ} (h : rule.origin ≠ .authored) :
    (Rule.phrase rule).IsWhole :=
  fun authored => absurd authored h

theorem Rule.IsAuthored.isWhole {rule : Rule κ} (h : rule.IsAuthored) : rule.IsWhole := by
  cases rule with
  | word rule => exact trivial
  | phrase rule => exact fun _ => h.2

namespace Slot

theorem meanings_quiet (slot : Slot) (filler : Filler κ) :
    (slot.quiet filler).meanings = filler.meanings := by
  unfold quiet
  split <;> rfl

theorem text_quiet_eq_iff {slot : Slot} {filler : Filler κ} :
    (slot.quiet filler).text = filler.text ↔ slot.silent = false ∨ filler.text = [] := by
  unfold quiet
  cases slot.silent with
  | false => simp
  | true => simp [eq_comm]

end Slot

variable [Cost κ]

namespace PhraseRule

variable {rule : PhraseRule κ} {signatures : Signatures κ} {item : Option VocabularyItem}
  {best : Fillers κ} {pair : Slot × Slot} {place : Place} {gone : Filler κ}

def compose? (rule : PhraseRule κ) (signatures : Signatures κ) (parts : List (Filler κ)) :
    Option (Filler κ) :=
  (signatures.reduce? rule.meaning (parts.flatMap (·.meanings))).map fun meanings => {
    cost := (parts.map (·.cost)).foldl (· + ·) rule.cost
    text := rule.joinedText parts
    meanings }

theorem composedFiller?_eq_bind :
    rule.composedFiller? signatures best =
      (rule.parts? best).bind fun parts => rule.compose? signatures (rule.withElided parts) := by
  refine congrArg (Option.bind (rule.parts? best)) (funext fun parts => ?_)
  simp only [compose?, Option.map_eq_bind, List.foldl_map]
  rfl

omit [Cost κ] in
theorem unabridged_of_allowsInsertion {slot : Slot} {position : Nat}
    (allowed : rule.allowsInsertion slot position = true) : rule.unabridged = false := by
  simp only [allowsInsertion, Bool.and_eq_true, Bool.not_eq_true'] at allowed
  exact allowed.1.1

theorem filler?_of_undeclared (abridged : rule.unabridged = false)
    (undeclared : rule.insertionCost = none) :
    rule.filler? signatures item best = rule.composedFiller? signatures best := by
  simp only [filler?, abridged, declaredFiller?, undeclared, Bool.false_eq_true, if_false,
    Option.map_none]

theorem parts?_of_single {slot : Slot} (slots : rule.slots = [slot]) :
    rule.parts? best = (rule.slotFiller? best slot 0).map fun filler => [slot.quiet filler] := by
  simp only [parts?, slots, List.zipIdx_singleton, List.mapM_cons, List.mapM_nil]
  cases rule.slotFiller? best slot 0 <;> rfl

theorem parts?_of_pair (slots : rule.slots = [pair.1, pair.2])
    (fills : rule.slotFiller? best (place.of pair) place.position = some gone) :
    rule.parts? best = (rule.slotFiller? best (place.other.of pair) place.other.position).map
      fun kept => place.order ((place.of pair).quiet gone) ((place.other.of pair).quiet kept) := by
  rw [parts?, slots, List.zipIdx_cons, List.zipIdx_singleton, List.mapM_cons, List.mapM_cons,
    List.mapM_nil]
  cases place with
  | first =>
    have first : rule.slotFiller? best pair.1 0 = some gone := fills
    simp only [first, Place.of, Place.other, Place.position]
    cases rule.slotFiller? best pair.2 1 <;> rfl
  | second =>
    have second : rule.slotFiller? best pair.2 1 = some gone := fills
    simp only [Nat.zero_add, second, Place.of, Place.other, Place.position]
    cases rule.slotFiller? best pair.1 0 <;> rfl

theorem slotFiller?_eliding (needed : (place.other.of pair).optional = false) :
    (rule.eliding pair place gone).slotFiller? best
        { place.other.of pair with optional := false } 0 =
      rule.slotFiller? best (place.other.of pair) place.other.position := by
  unfold slotFiller?
  rw [allowsInsertion_eliding, needed]

theorem parts?_eliding (needed : (place.other.of pair).optional = false) :
    (rule.eliding pair place gone).parts? best =
      (rule.slotFiller? best (place.other.of pair) place.other.position).map
        fun kept => [(place.other.of pair).quiet kept] := by
  rw [parts?_of_single rfl, slotFiller?_eliding needed]
  rfl

/-- The filler of the child that is left out comes back to its place, paid for already. -/
theorem withElided_eliding (part : Filler κ) :
    (rule.eliding pair place gone).withElided [part] =
      place.order { gone with cost := 0 } part := by
  cases place <;> rfl

/-- The filler of a pair and that of the rule that leaves out a child of it, both made of the same
fillers of the two children. The costs have the same summands, and the meanings are the same. The
texts are, unless the slot of the child that is left out keeps silent about it. -/
structure MadeAlike (rule : PhraseRule κ) (pair : Slot × Slot) (place : Place)
    (gone kept source derived : Filler κ) : Prop where
  source_cost : source.cost = (place.order gone.cost kept.cost).foldl (· + ·) rule.cost
  derived_cost : derived.cost = (place.order 0 kept.cost).foldl (· + ·) (rule.cost + gone.cost)
  meanings : source.meanings = derived.meanings
  text : source.text = derived.text ↔
    rule.text.isSome = true ∨ (place.of pair).silent = false ∨ gone.text = []

theorem compose?_eliding (rule : PhraseRule κ) (signatures : Signatures κ) (pair : Slot × Slot)
    (place : Place) (gone kept : Filler κ) :
    Option.Rel (rule.MadeAlike pair place gone kept)
      (rule.compose? signatures
        (place.order ((place.of pair).quiet gone) ((place.other.of pair).quiet kept)))
      ((rule.eliding pair place gone).compose? signatures
        (place.order { gone with cost := 0 } ((place.other.of pair).quiet kept))) := by
  have text : rule.joinedText
        (place.order ((place.of pair).quiet gone) ((place.other.of pair).quiet kept)) =
      (rule.eliding pair place gone).joinedText
        (place.order { gone with cost := 0 } ((place.other.of pair).quiet kept)) ↔
      rule.text.isSome = true ∨ (place.of pair).silent = false ∨ gone.text = [] := by
    have own : (rule.eliding pair place gone).text = rule.text := rfl
    simp only [joinedText, own, List.flatMap_def, Place.map_order]
    cases rule.text with
    | some text => simp
    | none => simp [Place.flatten_order_inj, Slot.text_quiet_eq_iff]
  have meaning : (rule.eliding pair place gone).meaning = rule.meaning := rfl
  simp only [compose?, meaning, List.flatMap_def, Place.map_order, Slot.cost_quiet,
    Slot.meanings_quiet]
  cases signatures.reduce? rule.meaning (place.order gone.meanings kept.meanings).flatten with
  | none => exact .none
  | some meanings => exact .some ⟨rfl, rfl, rfl, text⟩

/-- A pair and the rule that leaves out a child of it give their symbol fillers made alike, or
neither gives any. -/
theorem filler?_eliding (whole : rule.elided = none) (undeclared : rule.insertionCost = none)
    (slots : rule.slots = [pair.1, pair.2])
    (fills : rule.slotFiller? best (place.of pair) place.position = some gone)
    (needed : (place.other.of pair).optional = false) :
    Option.Rel
      (fun source derived => ∃ kept,
        rule.slotFiller? best (place.other.of pair) place.other.position = some kept ∧
        rule.MadeAlike pair place gone kept source derived)
      (rule.filler? signatures item best)
      ((rule.eliding pair place gone).filler? signatures item best) := by
  have abridged : rule.unabridged = false := unabridged_of_allowsInsertion
    (slotFiller?_isSome.mp (Option.isSome_iff_exists.mpr ⟨gone, fills⟩)).1
  have source : ∀ parts, rule.withElided parts = parts := by
    intro parts
    rw [withElided, whole]
  have abridged' : (rule.eliding pair place gone).unabridged = false := abridged
  rw [filler?_of_undeclared abridged undeclared, filler?_of_undeclared abridged' rfl,
    composedFiller?_eq_bind, composedFiller?_eq_bind, parts?_of_pair slots fills,
    parts?_eliding needed]
  cases rule.slotFiller? best (place.other.of pair) place.other.position with
  | none => exact .none
  | some kept =>
    simp only [Option.map_some, Option.bind_some, source, withElided_eliding]
    have alike := compose?_eliding rule signatures pair place gone kept
    generalize rule.compose? signatures _ = source,
      (rule.eliding pair place gone).compose? signatures _ = derived at alike ⊢
    cases alike with
    | none => exact .none
    | some made => exact .some ⟨kept, rfl, made⟩

end PhraseRule

namespace Grammar

theorem run_isWhole {operations : List (Operation κ)}
    (plain : ∀ operation ∈ operations, operation.IsPlain) :
    (run operations).AllRules Rule.IsWhole :=
  run_induction .new (.step fun _ h => h.isWhole)
    (fun _ => derive_induction (fun h => h.collapseRound fun _ _ => .of_origin nofun)
      (fun h => h.insertionRound fun _ _ _ _ _ => .of_origin nofun)
      (fun h => h.transpose fun _ _ _ _ => .of_origin nofun))
    fun operation mem => (plain operation mem).mono fun _ plain => plain.isAuthored.isWhole

/-- After every run with plain rules, inserting a rule that leaves out a child of a pair comes to
what inserting the pair itself comes to: both can be done or neither, with the same meanings and at
the same summands of cost. The texts are the same exactly when the pair has a text of its own, its
slot for the child does not keep silent, or there is nothing to show. -/
theorem run_filler?_eliding {operations : List (Operation κ)}
    (plain : ∀ operation ∈ operations, operation.IsPlain) (best : Fillers κ) {symbol : Symbol}
    {rule : PhraseRule κ} {pair : Slot × Slot} {place : Place} {gone : Filler κ}
    (mem : .phrase rule ∈ (run operations).rulesOf symbol) (authored : rule.origin = .authored)
    (undeclared : rule.insertionCost = none) (slots : rule.slots = [pair.1, pair.2])
    (fills : rule.slotFiller? best (place.of pair) place.position = some gone)
    (needed : (place.other.of pair).optional = false) :
    Option.Rel
      (fun source derived => ∃ kept,
        rule.slotFiller? best (place.other.of pair) place.other.position = some kept ∧
        rule.MadeAlike pair place gone kept source derived)
      (rule.filler? (run operations).signatures ((run operations).item? symbol) best)
      ((rule.eliding pair place gone).filler? (run operations).signatures
        ((run operations).item? symbol) best) :=
  PhraseRule.filler?_eliding (run_isWhole plain symbol _ mem authored) undeclared slots fills needed

def silentSlots : Slot × Slot := (.ofSymbol ⟨2⟩, { Slot.ofSymbol ⟨3⟩ with silent := true })

def silentPair : PhraseRule Float :=
  { PhraseRule.ofSlots [silentSlots.1, silentSlots.2] with cost := 0.2 }

/-- A sentence is the word with the mark, both of which may be left out. -/
def silentMark : List (Operation Float) :=
  [.newSymbol ["word"], .newSymbol ["mark"],
    .addRule ⟨2⟩ (.word { WordRule.ofLiteral "word" with insertionCost := some 0.4 }),
    .addRule ⟨3⟩ (.word { WordRule.ofLiteral "mark" with insertionCost := some 0.3 }),
    .addRule .start (.phrase silentPair)]

theorem silentMark_isPlain : ∀ operation ∈ silentMark, operation.IsPlain := by
  simp only [silentMark, List.forall_mem_cons]
  exact ⟨trivial, trivial, Rule.isPlain_ofLiteral, Rule.isPlain_ofLiteral,
    Rule.isPlain_ofSlots, List.forall_mem_nil _⟩

theorem silentPair_mem : .phrase silentPair ∈ (run silentMark).rulesOf .start := by
  decide +kernel

/-- The word is displayed also where it is left out. -/
theorem silentMark_filler?_eliding :
    (∀ operation ∈ silentMark, operation.IsPlain) ∧
      ∃ source derived,
        silentPair.filler? (run silentMark).signatures ((run silentMark).item? .start)
          (run silentMark).fillers = some source ∧
        (silentPair.eliding silentSlots .first ⟨0.4, [.fixed "word"], []⟩).filler?
          (run silentMark).signatures ((run silentMark).item? .start) (run silentMark).fillers =
            some derived ∧
        source.text = derived.text := by
  have fills : silentPair.slotFiller? (run silentMark).fillers (Place.first.of silentSlots)
      Place.first.position = some ⟨0.4, [.fixed "word"], []⟩ := by decide +kernel
  have given : (silentPair.filler? (run silentMark).signatures ((run silentMark).item? .start)
      (run silentMark).fillers).isSome = true := by decide +kernel
  have alike := run_filler?_eliding silentMark_isPlain (run silentMark).fillers silentPair_mem rfl
    rfl (by rfl) fills rfl
  refine ⟨silentMark_isPlain, ?_⟩
  obtain ⟨source, same⟩ := Option.isSome_iff_exists.mp given
  rw [same] at alike ⊢
  generalize (silentPair.eliding silentSlots .first _).filler? _ _ _ = spliced at alike ⊢
  cases alike with
  | some made =>
    obtain ⟨kept, -, made⟩ := made
    exact ⟨source, _, rfl, rfl, made.text.mpr (.inr (.inl rfl))⟩

/-- The mark is displayed where it is left out, though its slot keeps silent about it; after a
derivation, also in the filler of the sentence. -/
theorem silentMark_displayed :
    (∀ operation ∈ silentMark, operation.IsPlain) ∧
      .phrase silentPair ∈ (run silentMark).rulesOf .start ∧
      silentPair.slotFiller? (run silentMark).fillers silentSlots.2 1 =
        some ⟨0.3, [.fixed "mark"], []⟩ ∧
      silentPair.filler? (run silentMark).signatures ((run silentMark).item? .start)
        (run silentMark).fillers = some ⟨0.2 + 0.4 + 0.3, [.fixed "word"], []⟩ ∧
      (silentPair.eliding silentSlots .second ⟨0.3, [.fixed "mark"], []⟩).filler?
          (run silentMark).signatures ((run silentMark).item? .start) (run silentMark).fillers =
        some ⟨0.2 + 0.3 + 0.4 + 0, [.fixed "word", .fixed "mark"], []⟩ ∧
      (run silentMark).fillers.of? .start = some ⟨0.2 + 0.4 + 0.3, [.fixed "word"], []⟩ ∧
      (run silentMark).derive.1.fillers.of? .start =
        some ⟨0.2 + 0.3 + 0.4 + 0, [.fixed "word", .fixed "mark"], []⟩ := by
  refine ⟨silentMark_isPlain, silentPair_mem, ?_⟩
  decide +kernel

end Grammar

end PhraseGrammar
