import Mathlib.Logic.Function.Iterate
import PhraseGrammar.Proofs.Synthesis

/-! What the fillers of a grammar depend on: the filler of a symbol is made of fillers of symbols
that feed it. Where two grammars have the same rules for some symbols and for all that feed these,
they find the same fillers for them. -/

namespace PhraseGrammar

variable {κ : Type}

/-- A rule gives its symbol a filler: it declares one, or all of its children may be left out. -/
def PhraseRule.Fills (filled : Symbol → Prop) (rule : PhraseRule κ) : Prop :=
  rule.unabridged = false ∧
    (rule.insertionCost.isSome = true ∨
      ∀ slot position, (slot, position) ∈ rule.slots.zipIdx →
        rule.allowsInsertion slot position = true ∧ (slot.optional = false → filled slot.symbol))

namespace Grammar

inductive Fillable (grammar : Grammar κ) : Symbol → Prop
  | empty : Fillable grammar .empty
  | zeroFiller {symbol : Symbol} : (grammar.zeroFiller? symbol).isSome = true →
      Fillable grammar symbol
  | word {symbol : Symbol} {rule : WordRule κ} : .word rule ∈ grammar.rulesOf symbol →
      rule.insertionCost.isSome = true → Fillable grammar symbol
  | declared {symbol : Symbol} {rule : PhraseRule κ} : .phrase rule ∈ grammar.rulesOf symbol →
      rule.origin ≠ .transposition → rule.unabridged = false →
      rule.insertionCost.isSome = true → Fillable grammar symbol
  | composed {symbol : Symbol} {rule : PhraseRule κ} : .phrase rule ∈ grammar.rulesOf symbol →
      rule.origin ≠ .transposition → rule.unabridged = false →
      (∀ slot position, (slot, position) ∈ rule.slots.zipIdx →
        rule.allowsInsertion slot position = true) →
      (∀ slot position, (slot, position) ∈ rule.slots.zipIdx → slot.optional = false →
        Fillable grammar slot.symbol) → Fillable grammar symbol

/-- Whether a rule of one symbol may leave out another. Both of them may be left out at a cost, and
the filler of the one may be a part of that of the other. -/
def Feeds (grammar : Grammar κ) (child parent : Symbol) : Prop :=
  grammar.Fillable child ∧ grammar.Fillable parent ∧
    ∃ rule, .phrase rule ∈ grammar.rulesOf parent ∧ rule.origin ≠ .transposition ∧
      ∃ slot position, (slot, position) ∈ rule.slots.zipIdx ∧
        rule.allowsInsertion slot position = true ∧ slot.symbol = child

end Grammar

/-- A rule of a symbol gives it a filler only if the symbol may have one, and only made of fillers
of symbols that feed it. -/
structure PhraseRule.SpreadsWithin (filled : Symbol → Prop) (feeds : Symbol → Symbol → Prop)
    (symbol : Symbol) (rule : PhraseRule κ) : Prop where
  fills : rule.Fills filled → filled symbol
  feeds : ∀ slot position, (slot, position) ∈ rule.slots.zipIdx →
    rule.allowsInsertion slot position = true → filled slot.symbol → filled symbol →
    feeds slot.symbol symbol

namespace Grammar

/-- All fillers of a grammar are of the symbols that may have one, and each is made of fillers of
symbols that feed its own. -/
structure SpreadsWithin (filled : Symbol → Prop) (feeds : Symbol → Symbol → Prop)
    (grammar : Grammar κ) : Prop where
  empty : filled .empty
  zeroFiller : ∀ symbol, (grammar.zeroFiller? symbol).isSome = true → filled symbol
  word : ∀ symbol rule, .word rule ∈ grammar.rulesOf symbol → rule.insertionCost.isSome = true →
    filled symbol
  phrase : ∀ symbol rule, .phrase rule ∈ grammar.rulesOf symbol → rule.origin ≠ .transposition →
    rule.SpreadsWithin filled feeds symbol

theorem spreadsWithin_feeds (grammar : Grammar κ) :
    grammar.SpreadsWithin grammar.Fillable grammar.Feeds where
  empty := .empty
  zeroFiller _ some := .zeroFiller some
  word _ _ mem costs := .word mem costs
  phrase symbol rule mem origin := by
    refine ⟨?_, fun slot position there allowed child parent =>
      ⟨child, parent, rule, mem, origin, slot, position, there, allowed, rfl⟩⟩
    rintro ⟨abridged, declared | children⟩
    · exact .declared mem origin abridged declared
    · exact .composed mem origin abridged (fun slot position there => (children _ _ there).1)
        fun slot position there => (children _ _ there).2

end Grammar

variable [Cost κ]

section Parts

variable {α β : Type}

theorem mapM_congr {f g : α → Option β} {xs : List α} (same : ∀ x ∈ xs, f x = g x) :
    xs.mapM f = xs.mapM g := by
  induction xs with
  | nil => rfl
  | cons x xs ih =>
    obtain ⟨head, tail⟩ := List.forall_mem_cons.mp same
    rw [List.mapM_cons, List.mapM_cons, head, ih tail]

theorem mapM_eq_some {f : α → Option β} {xs : List α} {ys : List β} :
    xs.mapM f = some ys ↔ List.Forall₂ (fun x y => f x = some y) xs ys := by
  induction xs generalizing ys with
  | nil =>
    rw [List.forall₂_nil_left_iff]
    exact ⟨fun h => (Option.some.inj h).symm, fun h => h ▸ rfl⟩
  | cons x xs ih =>
    simp only [List.mapM_cons, Option.bind_eq_bind, Option.bind_eq_some_iff, Option.pure_def,
      List.forall₂_cons_left_iff, ih, Option.some.injEq]
    constructor
    · rintro ⟨y, head, rest, tail, rfl⟩
      exact ⟨y, rest, head, tail, rfl⟩
    · rintro ⟨y, rest, head, tail, rfl⟩
      exact ⟨y, head, rest, tail, rfl⟩

theorem isSome_of_mapM {f : α → Option β} {xs : List α} {ys : List β}
    (h : xs.mapM f = some ys) : ∀ x ∈ xs, (f x).isSome = true := by
  intro x mem
  obtain ⟨y, -, made⟩ := exists_of_mem_left (mapM_eq_some.mp h) mem
  exact made ▸ rfl

theorem exists_forall₂ {R : α → β → Prop} {xs : List α} (h : ∀ x ∈ xs, ∃ y, R x y) :
    ∃ ys, List.Forall₂ R xs ys := by
  induction xs with
  | nil => exact ⟨[], .nil⟩
  | cons x xs ih =>
    obtain ⟨head, tail⟩ := List.forall_mem_cons.mp h
    obtain ⟨y, first⟩ := head
    obtain ⟨ys, rest⟩ := ih tail
    exact ⟨y :: ys, .cons first rest⟩

end Parts

namespace PhraseRule

variable {rule : PhraseRule κ} {best other : Fillers κ} {slot : Slot} {position : Nat}

theorem slotFiller?_isSome :
    (rule.slotFiller? best slot position).isSome = true ↔
      rule.allowsInsertion slot position = true ∧
        (slot.optional = false → (best.of? slot.symbol).isSome = true) := by
  unfold slotFiller?
  cases rule.allowsInsertion slot position with
  | false => exact ⟨nofun, fun h => nomatch h.1⟩
  | true =>
    cases slot.optional with
    | true => exact ⟨fun _ => ⟨rfl, nofun⟩, fun _ => rfl⟩
    | false => exact ⟨fun some => ⟨rfl, fun _ => some⟩, fun h => h.2 rfl⟩

theorem slotFiller?_congr
    (same : rule.allowsInsertion slot position = true → slot.optional = false →
      best.of? slot.symbol = other.of? slot.symbol) :
    rule.slotFiller? best slot position = rule.slotFiller? other slot position := by
  unfold slotFiller?
  cases allowed : rule.allowsInsertion slot position with
  | false => rfl
  | true =>
    cases optional : slot.optional with
    | true => rfl
    | false => exact same allowed optional

theorem composedFiller?_eq_some {signatures : Signatures κ} {filler : Filler κ} :
    rule.composedFiller? signatures best = some filler ↔ ∃ parts meanings,
      rule.parts? best = some parts ∧
      signatures.reduce? rule.meaning ((rule.withElided parts).flatMap (·.meanings)) =
        some meanings ∧
      { cost := (rule.withElided parts).foldl (fun cost part => cost + part.cost) rule.cost
        text := rule.joinedText (rule.withElided parts)
        meanings } = filler := by
  simp only [composedFiller?, Option.bind_eq_bind, Option.bind_eq_some_iff, Option.pure_def,
    Option.some.injEq, ← exists_and_left]

theorem filler?_cases {signatures : Signatures κ} {item : Option VocabularyItem}
    {filler : Filler κ} (h : rule.filler? signatures item best = some filler) :
    rule.unabridged = false ∧ (rule.declaredFiller? item = some filler ∨
      rule.composedFiller? signatures best = some filler) := by
  unfold filler? at h
  split at h
  case isTrue => cases h
  case isFalse abridged =>
    refine ⟨Bool.not_eq_true _ ▸ abridged, ?_⟩
    generalize rule.declaredFiller? item = declared, rule.composedFiller? signatures best = composed
      at h
    match declared, composed with
    | none, _ => exact .inr h
    | some _, none => exact .inl h
    | some _, some _ =>
      dsimp only at h
      split at h
      · exact .inl h
      · exact .inr h

theorem filler?_congr {signatures : Signatures κ} {item : Option VocabularyItem}
    (same : ∀ slot position, (slot, position) ∈ rule.slots.zipIdx →
      rule.allowsInsertion slot position = true → best.of? slot.symbol = other.of? slot.symbol) :
    rule.filler? signatures item best = rule.filler? signatures item other := by
  have parts : rule.parts? best = rule.parts? other := by
    refine mapM_congr fun ⟨slot, position⟩ mem => ?_
    exact congrArg (Option.map slot.quiet)
      (slotFiller?_congr fun allowed _ => same slot position mem allowed)
  unfold filler? composedFiller?
  rw [parts]

theorem fills_of_filler? {signatures : Signatures κ} {item : Option VocabularyItem}
    {filled : Symbol → Prop} (known : ∀ symbol, (best.of? symbol).isSome = true → filled symbol)
    (h : (rule.filler? signatures item best).isSome = true) : rule.Fills filled := by
  unfold filler? at h
  cases abridged : rule.unabridged with
  | true =>
    rw [abridged] at h
    exact nomatch h
  | false =>
    rw [abridged] at h
    refine ⟨abridged, ?_⟩
    cases declared : rule.insertionCost with
    | some cost => exact .inl rfl
    | none =>
      right
      have none : rule.declaredFiller? item = .none := by rw [declaredFiller?, declared]; rfl
      rw [none] at h
      intro slot position mem
      obtain ⟨composed, made⟩ := Option.isSome_iff_exists.mp h
      simp only [Bool.false_eq_true, if_false, composedFiller?, Option.bind_eq_bind,
        Option.bind_eq_some_iff] at made
      obtain ⟨parts, all, -⟩ := made
      have here := isSome_of_mapM all (slot, position) mem
      rw [Option.isSome_map, slotFiller?_isSome] at here
      exact ⟨here.1, fun needed => known _ (here.2 needed)⟩

end PhraseRule

namespace Fillers

omit [Cost κ] in
theorem of?_set (best : Fillers κ) (symbol other : Symbol) (filler : Filler κ) :
    Fillers.of? (best.set symbol.index (some filler)) other =
      if symbol.index = other.index ∧ other.index < best.length then some filler
      else best.of? other := by
  unfold of?
  rw [List.getElem?_set]
  by_cases same : symbol.index = other.index
  · by_cases known : other.index < best.length
    · simp only [same, known, and_self, if_true, Option.join_some]
    · simp only [same, known, and_false, if_true, if_false,
        List.getElem?_eq_none (Nat.le_of_not_lt known)]
  · simp only [same, false_and, if_false]

omit [Cost κ] in
def All (P : Symbol → Filler κ → Prop) (best : Fillers κ) : Prop :=
  ∀ symbol filler, best.of? symbol = some filler → P symbol filler

omit [Cost κ] in
def Within (filled : Symbol → Prop) (best : Fillers κ) : Prop :=
  ∀ symbol, (best.of? symbol).isSome = true → filled symbol

omit [Cost κ] in
structure AgreeOn (P : Symbol → Prop) (best other : Fillers κ) : Prop where
  length : best.length = other.length
  of? : ∀ symbol, P symbol → best.of? symbol = other.of? symbol

omit [Cost κ] in
theorem AgreeOn.symm {P : Symbol → Prop} {best other : Fillers κ} (h : best.AgreeOn P other) :
    AgreeOn P other best :=
  ⟨h.length.symm, fun symbol here => (h.of? symbol here).symm⟩

end Fillers

namespace Grammar

variable {grammar grown : Grammar κ} {filled : Symbol → Prop} {feeds : Symbol → Symbol → Prop}
  {best other : Fillers κ} {source : Symbol × PhraseRule κ}

def improve (grammar : Grammar κ) (best : Fillers κ) (source : Symbol × PhraseRule κ) :
    Fillers κ :=
  (grammar.spreadThrough (best, false) source).1

def pass (grammar : Grammar κ) (best : Fillers κ) : Fillers κ :=
  grammar.fillingRules.foldl grammar.improve best

theorem improve_eq (grammar : Grammar κ) (best : Fillers κ) (source : Symbol × PhraseRule κ) :
    grammar.improve best source =
      match source.2.filler? grammar.signatures (grammar.item? source.1) best with
      | none => best
      | some candidate =>
        if candidate.beats (best.of? source.1) then
          best.set source.1.index (some candidate)
        else best := by
  unfold improve spreadThrough
  dsimp only
  cases source.2.filler? grammar.signatures (grammar.item? source.1) best with
  | none => rfl
  | some candidate =>
    dsimp only
    split <;> rfl

theorem spreadThrough_eq (best : Fillers κ) (changed : Bool) (source : Symbol × PhraseRule κ) :
    grammar.spreadThrough (best, changed) source = (grammar.improve best source, true) ∨
      grammar.spreadThrough (best, changed) source = (best, changed) ∧
        grammar.improve best source = best := by
  rw [improve_eq]
  unfold spreadThrough
  dsimp only
  cases source.2.filler? grammar.signatures (grammar.item? source.1) best with
  | none => exact .inr ⟨rfl, rfl⟩
  | some candidate =>
    dsimp only
    split
    · exact .inl rfl
    · exact .inr ⟨rfl, rfl⟩

theorem spread_fst (grammar : Grammar κ) (best : Fillers κ) :
    (grammar.spread best).1 = grammar.pass best := by
  have fold : ∀ (sources : List (Symbol × PhraseRule κ)) (best : Fillers κ) (changed : Bool),
      (sources.foldl grammar.spreadThrough (best, changed)).1 =
        sources.foldl grammar.improve best := by
    intro sources
    induction sources with
    | nil => exact fun _ _ => rfl
    | cons source rest ih =>
      intro best changed
      rw [List.foldl_cons, List.foldl_cons]
      rcases grammar.spreadThrough_eq best changed source with taken | ⟨left, same⟩
      · rw [taken, ih]
      · rw [left, ih, same]
  exact fold _ best false

theorem pass_of_spread (h : (grammar.spread best).2 = false) : grammar.pass best = best := by
  have kept : ∀ (sources : List (Symbol × PhraseRule κ)) (best : Fillers κ),
      (sources.foldl grammar.spreadThrough (best, true)).2 = true := by
    intro sources
    induction sources with
    | nil => exact fun _ => rfl
    | cons source rest ih =>
      intro best
      rw [List.foldl_cons]
      rcases grammar.spreadThrough_eq best true source with taken | ⟨left, -⟩
      · rw [taken, ih]
      · rw [left, ih]
  have fold : ∀ sources : List (Symbol × PhraseRule κ),
      (sources.foldl grammar.spreadThrough (best, false)).2 = false →
      sources.foldl grammar.improve best = best := by
    intro sources
    induction sources with
    | nil => exact fun _ => rfl
    | cons source rest ih =>
      intro h
      rw [List.foldl_cons] at h ⊢
      rcases grammar.spreadThrough_eq best false source with taken | ⟨left, same⟩
      · rw [taken, kept] at h
        exact nomatch h
      · rw [left] at h
        rw [same, ih h]
  exact fold _ h

/-- Stopping early makes no difference to the fillers. -/
theorem fillers_eq_iterate (grammar : Grammar κ) :
    grammar.fillers = grammar.pass^[grammar.size + 1] grammar.seeds := by
  have settle : ∀ (passes : Nat) (best : Fillers κ),
      grammar.settle passes best = grammar.pass^[passes] best := by
    intro passes
    induction passes with
    | zero => exact fun _ => rfl
    | succ passes ih =>
      intro best
      rw [Grammar.settle, Function.iterate_succ_apply]
      dsimp only
      rw [spread_fst]
      split
      case isTrue => exact ih _
      case isFalse still =>
        have same := pass_of_spread (Bool.not_eq_true _ ▸ still)
        rw [same, Function.iterate_fixed same]
  exact settle _ _

theorem seeds_of? (grammar : Grammar κ) (symbol : Symbol) :
    grammar.seeds.of? symbol = (grammar.entryOf? symbol).bind fun entry =>
      entry.seed (if symbol = .empty then some .nothing else none) := by
  unfold seeds Fillers.of? entryOf?
  rw [List.getElem?_map, List.getElem?_zipIdx]
  cases grammar.entries[symbol.index]? with
  | none => rfl
  | some entry =>
    simp only [Option.map_some, Option.join_some, Option.bind_some, Nat.zero_add]

theorem SpreadsWithin.seeds (h : grammar.SpreadsWithin filled feeds) :
    grammar.seeds.Within filled := by
  intro symbol some
  rw [seeds_of?] at some
  cases found : grammar.entryOf? symbol with
  | none =>
    rw [found] at some
    cases some
  | some entry =>
    rw [found, Option.bind_some, Entry.seed, Filler.isSome_foldl_offer, ne_eq,
      List.append_eq_nil_iff, Classical.not_and_iff_not_or_not] at some
    rcases some with empty | zero | word
    · have here : symbol = .empty := by
        by_contra other
        rw [if_neg other] at empty
        cases empty
      exact here ▸ h.empty
    · refine h.zeroFiller symbol ?_
      rw [zeroFiller?, found, Option.bind_some]
      exact Option.isSome_iff_ne_none.mpr fun none => zero (none ▸ rfl)
    · obtain ⟨filler, there⟩ := List.exists_mem_of_ne_nil _ word
      obtain ⟨rule, mem, same⟩ := List.mem_filterMap.mp there
      cases rule with
      | phrase rule => cases same
      | word rule =>
        refine h.word symbol rule (mem_rulesOf.mpr ⟨entry, found, mem⟩) ?_
        obtain ⟨cost, declared, -⟩ := Option.map_eq_some_iff.mp
          (show rule.filler? = some filler from same)
        exact declared ▸ rfl

omit [Cost κ] in
def fillingRulesOf (grammar : Grammar κ) (symbol : Symbol) : List (Symbol × PhraseRule κ) :=
  ((grammar.rulesOf symbol).filterMap fun rule => rule.phrase?.map (symbol, ·)).filter
    fun (_, rule) => rule.origin ≠ .transposition

omit [Cost κ] in
theorem fillingRules_eq_flatMap (grammar : Grammar κ) :
    grammar.fillingRules = grammar.symbols.flatMap grammar.fillingRulesOf :=
  List.filter_flatMap ..

omit [Cost κ] in
theorem mem_fillingRulesOf {symbol : Symbol} :
    source ∈ grammar.fillingRulesOf symbol ↔
      source.1 = symbol ∧ .phrase source.2 ∈ grammar.rulesOf symbol ∧
        source.2.origin ≠ .transposition := by
  simp only [fillingRulesOf, List.mem_filter, List.mem_filterMap, decide_eq_true_eq]
  constructor
  · rintro ⟨⟨word | rule, mem, same⟩, origin⟩
    · exact nomatch same
    · obtain rfl := Option.some.inj same
      exact ⟨rfl, mem, origin⟩
  · rintro ⟨rfl, mem, origin⟩
    exact ⟨⟨_, mem, rfl⟩, origin⟩

omit [Cost κ] in
theorem mem_fillingRules :
    source ∈ grammar.fillingRules ↔
      .phrase source.2 ∈ grammar.rulesOf source.1 ∧ source.2.origin ≠ .transposition := by
  rw [fillingRules, List.mem_filter, mem_phraseRules, decide_eq_true_eq]

section Induction

variable {P : Symbol → Filler κ → Prop}

theorem all_improve (held : best.All P)
    (made : ∀ filler, source.2.filler? grammar.signatures (grammar.item? source.1) best =
      some filler → P source.1 filler) : (grammar.improve best source).All P := by
  intro symbol filler found
  rw [improve_eq] at found
  split at found
  case h_1 => exact held symbol filler found
  case h_2 candidate offered =>
    split at found
    case isFalse => exact held symbol filler found
    case isTrue =>
      rw [Fillers.of?_set] at found
      split at found
      case isFalse => exact held symbol filler found
      case isTrue here =>
        obtain rfl : source.1 = symbol := congrArg Symbol.mk here.1
        exact Option.some.inj found ▸ made candidate offered

theorem all_seeds (empty : P .empty .nothing)
    (zeroFiller : ∀ {symbol filler}, grammar.zeroFiller? symbol = some filler → P symbol filler)
    (word : ∀ {symbol rule filler}, .word rule ∈ grammar.rulesOf symbol →
      rule.filler? = some filler → P symbol filler) : grammar.seeds.All P := by
  intro symbol filler found
  rw [seeds_of?] at found
  obtain ⟨entry, there, seed⟩ := Option.bind_eq_some_iff.mp found
  rcases Filler.mem_foldl_offer seed with start | offered
  · split at start
    case isTrue here => exact here ▸ Option.some.inj start ▸ empty
    case isFalse => cases start
  · rcases List.mem_append.mp offered with zero | given
    · refine zeroFiller ?_
      rw [zeroFiller?, there]
      exact Option.mem_toList.mp zero
    · obtain ⟨rule, mem, made⟩ := List.mem_filterMap.mp given
      cases rule with
      | phrase rule => cases made
      | word rule => exact word (mem_rulesOf.mpr ⟨entry, there, mem⟩) made

/-- What holds of the fillers that symbols have by themselves, and of those that rules make of
fillers of which it holds, holds of all fillers. -/
theorem fillers_induction (seeds : grammar.seeds.All P)
    (phrase : ∀ {symbol rule best filler}, .phrase rule ∈ grammar.rulesOf symbol →
      rule.origin ≠ .transposition → best.All P →
      rule.filler? grammar.signatures (grammar.item? symbol) best = some filler →
      P symbol filler) : grammar.fillers.All P := by
  rw [fillers_eq_iterate]
  refine Function.Iterate.rec (fun best : Fillers κ => best.All P) seeds (fun best held => ?_) _
  refine List.foldlRecOn _ grammar.improve held fun best held source mem => ?_
  obtain ⟨present, origin⟩ := mem_fillingRules.mp mem
  exact all_improve held fun filler made => phrase present origin held made

end Induction

theorem SpreadsWithin.improve (h : grammar.SpreadsWithin filled feeds) (within : best.Within filled)
    {symbol : Symbol} (mem : source ∈ grammar.fillingRulesOf symbol) :
    (grammar.improve best source).Within filled := by
  obtain ⟨rfl, present, origin⟩ := mem_fillingRulesOf.mp mem
  rw [improve_eq]
  split
  case h_1 => exact within
  case h_2 candidate made =>
    split
    case isFalse => exact within
    case isTrue =>
      intro other some
      rw [Fillers.of?_set] at some
      split at some
      case isFalse => exact within other some
      case isTrue here =>
        have made : (source.2.filler? grammar.signatures (grammar.item? source.1)
          best).isSome = true := made ▸ rfl
        have same : source.1 = other := congrArg Symbol.mk here.1
        exact same ▸ (h.phrase _ _ present origin).fills (PhraseRule.fills_of_filler? within made)

theorem SpreadsWithin.improveAll (h : grammar.SpreadsWithin filled feeds)
    (within : best.Within filled) (symbol : Symbol) :
    ((grammar.fillingRulesOf symbol).foldl grammar.improve best).Within filled :=
  List.foldlRecOn _ _ within fun _ held _ mem => h.improve held mem

theorem agree_improve {P : Symbol → Prop} (h : best.AgreeOn P other) (apart : ¬ P source.1) :
    (grammar.improve best source).AgreeOn P other := by
  rw [improve_eq]
  split
  case h_1 => exact h
  case h_2 candidate made =>
    split
    case isFalse => exact h
    case isTrue =>
      refine ⟨(List.length_set ..).trans h.length, fun symbol here => ?_⟩
      rw [Fillers.of?_set, if_neg, h.of? symbol here]
      rintro ⟨index, -⟩
      have same : source.1 = symbol := congrArg Symbol.mk index
      exact apart (same ▸ here)

theorem agree_foldl {P : Symbol → Prop} (h : best.AgreeOn P other) {symbol : Symbol}
    (apart : ¬ P symbol) :
    ((grammar.fillingRulesOf symbol).foldl grammar.improve best).AgreeOn P other :=
  List.foldlRecOn (motive := fun best : Fillers κ => best.AgreeOn P other) _ grammar.improve h
    fun _ held _ mem => agree_improve held ((mem_fillingRulesOf.mp mem).1.symm ▸ apart)

section Agreement

variable {P : Symbol → Prop} (bare : grown.bare = grammar.bare)
  (inner : grammar.SpreadsWithin filled feeds) (outer : grown.SpreadsWithin filled feeds)
  (closed : ∀ symbol, P symbol → filled symbol ∧ ∀ child, feeds child symbol → P child)
  (rules : ∀ symbol, P symbol → grown.rulesOf symbol = grammar.rulesOf symbol)

/-- Both grammars have come to the same fillers of the symbols at issue, and to none of symbols
that cannot have one. -/
structure Alike (filled P : Symbol → Prop) (best other : Fillers κ) : Prop where
  agree : best.AgreeOn P other
  within : best.Within filled
  withinOther : other.Within filled

include bare inner closed in
theorem Alike.improve {symbol : Symbol} (h : Alike filled P best other) (here : P symbol)
    (mem : source ∈ grammar.fillingRulesOf symbol) :
    (grammar.improve best source).AgreeOn P (grown.improve other source) := by
  obtain ⟨rfl, present, origin⟩ := mem_fillingRulesOf.mp mem
  have same : source.2.filler? grammar.signatures (grammar.item? source.1) best =
      source.2.filler? grown.signatures (grown.item? source.1) other := by
    rw [signatures_eq_of_bare bare, item?_eq_of_bare bare]
    refine PhraseRule.filler?_congr fun slot position there allowed => ?_
    by_cases child : filled slot.symbol
    · have feeds := (inner.phrase _ _ present origin).feeds slot position there allowed child
        (closed _ here).1
      exact h.agree.of? _ ((closed _ here).2 _ feeds)
    · have none : ∀ {best : Fillers κ}, best.Within filled → best.of? slot.symbol = .none :=
        fun within => Option.not_isSome_iff_eq_none.mp (mt (within _) child)
      rw [none h.within, none h.withinOther]
  rw [improve_eq, improve_eq, same, h.agree.of? _ here]
  split
  case h_1 => exact h.agree
  case h_2 candidate made =>
    split
    case isFalse => exact h.agree
    case isTrue =>
      refine ⟨by rw [List.length_set, List.length_set, h.agree.length], fun symbol at' => ?_⟩
      rw [Fillers.of?_set, Fillers.of?_set, h.agree.length, h.agree.of? symbol at']

include bare inner outer closed rules

theorem Alike.improveAll (h : Alike filled P best other) (symbol : Symbol) :
    Alike filled P ((grammar.fillingRulesOf symbol).foldl grammar.improve best)
      ((grown.fillingRulesOf symbol).foldl grown.improve other) := by
  refine ⟨?_, inner.improveAll h.within symbol, outer.improveAll h.withinOther symbol⟩
  by_cases here : P symbol
  · have same : grown.fillingRulesOf symbol = grammar.fillingRulesOf symbol := by
      rw [fillingRulesOf, fillingRulesOf, rules symbol here]
    rw [same]
    have steps : ∀ sources : List (Symbol × PhraseRule κ),
        (∀ source ∈ sources, source ∈ grammar.fillingRulesOf symbol) →
        ∀ {best other : Fillers κ}, Alike filled P best other →
          (sources.foldl grammar.improve best).AgreeOn P (sources.foldl grown.improve other) := by
      intro sources
      induction sources with
      | nil => exact fun _ _ _ h => h.agree
      | cons source rest ih =>
        intro mem best other h
        obtain ⟨head, tail⟩ := List.forall_mem_cons.mp mem
        exact ih tail ⟨h.improve bare inner closed here head, inner.improve h.within head,
          outer.improve h.withinOther (same ▸ head)⟩
    exact steps _ (fun _ mem => mem) h
  · exact (agree_foldl (agree_foldl h.agree here).symm here).symm

theorem Alike.flatMap (h : Alike filled P best other) (symbols : List Symbol) :
    Alike filled P ((symbols.flatMap grammar.fillingRulesOf).foldl grammar.improve best)
      ((symbols.flatMap grown.fillingRulesOf).foldl grown.improve other) := by
  induction symbols generalizing best other with
  | nil => exact h
  | cons symbol rest ih =>
    rw [List.flatMap_cons, List.flatMap_cons, List.foldl_append, List.foldl_append]
    exact ih (h.improveAll bare inner outer closed rules symbol)

theorem Alike.pass (h : Alike filled P best other) :
    Alike filled P (grammar.pass best) (grown.pass other) := by
  have symbols : grown.symbols = grammar.symbols := by
    rw [symbols, symbols, size_eq_of_bare bare]
  rw [Grammar.pass, Grammar.pass, fillingRules_eq_flatMap, fillingRules_eq_flatMap, symbols]
  exact h.flatMap bare inner outer closed rules grammar.symbols

/-- Two grammars find the same fillers for symbols for which, and for all that feed them, they have
the same rules. -/
theorem alike_fillers : Alike filled P grammar.fillers grown.fillers := by
  have seeds : Alike filled P grammar.seeds grown.seeds := by
    refine ⟨⟨?_, fun symbol here => ?_⟩, inner.seeds, outer.seeds⟩
    · have size := size_eq_of_bare bare
      rw [Grammar.seeds, Grammar.seeds, List.length_map, List.length_map, List.length_zipIdx,
        List.length_zipIdx]
      exact size.symm
    · rw [seeds_of?, seeds_of?]
      cases found : grammar.entryOf? symbol with
      | none =>
        have none : grown.entryOf? symbol = .none := by
          rw [← Option.not_isSome_iff_eq_none, entryOf?_isSome, size_eq_of_bare bare,
            ← entryOf?_isSome, found]
          exact nofun
        rw [none]
      | some entry =>
        have rules' := rules symbol here
        rw [rulesOf_eq found] at rules'
        rw [entryOf?_of_bare bare found, rules']
  have passes : ∀ count : Nat, Alike filled P (grammar.pass^[count] grammar.seeds)
      (grown.pass^[count] grown.seeds) := by
    intro count
    induction count with
    | zero => exact seeds
    | succ count ih =>
      rw [Function.iterate_succ_apply', Function.iterate_succ_apply']
      exact ih.pass bare inner outer closed rules
  rw [fillers_eq_iterate, fillers_eq_iterate, size_eq_of_bare bare]
  exact passes _

end Agreement

theorem SpreadsWithin.fillers (h : grammar.SpreadsWithin filled feeds) :
    grammar.fillers.Within filled :=
  (alike_fillers (P := fun _ => False) rfl h h (fun _ none => none.elim)
    fun _ none => none.elim).within

end Grammar

end PhraseGrammar
