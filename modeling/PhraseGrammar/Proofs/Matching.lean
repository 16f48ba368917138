import PhraseGrammar.Cost.Float
import PhraseGrammar.Proofs.Consistency

/-! Which token lists a symbol matches, and what derivation makes of them: none is lost, and only
insertion and transposition add any. -/

namespace PhraseGrammar

variable {κ : Type}

/-- The tokens are parted among the slots of a rule; an optional child may be left out. -/
inductive SlotsMatch (S : Symbol → List String → Prop) : List Slot → List String → Prop
  | nil : SlotsMatch S [] []
  | skip {slot : Slot} {rest : List Slot} {tokens : List String} : slot.optional = true →
      SlotsMatch S rest tokens → SlotsMatch S (slot :: rest) tokens
  | child {slot : Slot} {rest : List Slot} {first more : List String} : S slot.symbol first →
      SlotsMatch S rest more → SlotsMatch S (slot :: rest) (first ++ more)

/-- The token lists that a symbol of a grammar matches. -/
inductive Grammar.Matches (grammar : Grammar κ) : Symbol → List String → Prop
  | empty {symbol : Symbol} : grammar.matchesEmpty symbol = true → grammar.Matches symbol []
  | word {symbol : Symbol} {rule : WordRule κ} : .word rule ∈ grammar.rulesOf symbol →
      grammar.Matches symbol [rule.literal]
  | phrase {symbol : Symbol} {rule : PhraseRule κ} {tokens : List String} :
      .phrase rule ∈ grammar.rulesOf symbol → SlotsMatch grammar.Matches rule.slots tokens →
      grammar.Matches symbol tokens

structure Grammar.Admits (grammar : Grammar κ) (S : Symbol → List String → Prop) : Prop where
  empty : ∀ {symbol}, grammar.matchesEmpty symbol = true → S symbol []
  word : ∀ {symbol rule}, .word rule ∈ grammar.rulesOf symbol → S symbol [rule.literal]
  phrase : ∀ {symbol rule tokens}, .phrase rule ∈ grammar.rulesOf symbol →
    SlotsMatch S rule.slots tokens → S symbol tokens

mutual

theorem Grammar.Matches.least {grammar : Grammar κ} {S : Symbol → List String → Prop}
    (admits : grammar.Admits S) {symbol : Symbol} {tokens : List String}
    (h : grammar.Matches symbol tokens) : S symbol tokens :=
  match h with
  | .empty known => admits.empty known
  | .word mem => admits.word mem
  | .phrase mem slots => admits.phrase mem (slots.least admits)

theorem SlotsMatch.least {grammar : Grammar κ} {S : Symbol → List String → Prop}
    (admits : grammar.Admits S) {slots : List Slot} {tokens : List String}
    (h : SlotsMatch grammar.Matches slots tokens) : SlotsMatch S slots tokens :=
  match h with
  | .nil => .nil
  | .skip optional rest => .skip optional (rest.least admits)
  | .child first rest => .child (first.least admits) (rest.least admits)

end

namespace SlotsMatch

variable {S : Symbol → List String → Prop} {tokens : List String}

theorem of_symbols_eq {slots others : List Slot}
    (same : slots.map (·.symbol) = others.map (·.symbol))
    (firm : ∀ slot ∈ slots, slot.optional = false) (h : SlotsMatch S slots tokens) :
    SlotsMatch S others tokens := by
  induction h generalizing others with
  | nil =>
    rw [List.map_eq_nil_iff.mp same.symm]
    exact .nil
  | skip optional _ _ =>
    exact absurd ((firm _ List.mem_cons_self).symm.trans optional) Bool.false_ne_true
  | child first _ ih =>
    obtain ⟨other, rest, rfl, symbol, more⟩ := List.map_eq_cons_iff.mp same.symm
    have tail := ih more.symm fun slot mem => firm slot (List.mem_cons_of_mem _ mem)
    exact .child (symbol ▸ first) tail

theorem filter_iff {stays : Slot → Bool} {slots : List Slot}
    (nil : ∀ slot ∈ slots, stays slot = false → ∀ tokens, S slot.symbol tokens ↔ tokens = []) :
    SlotsMatch S (slots.filter stays) tokens ↔ SlotsMatch S slots tokens := by
  induction slots generalizing tokens with
  | nil => exact .rfl
  | cons slot rest ih =>
    obtain ⟨head, tail⟩ := List.forall_mem_cons.mp nil
    cases keep : stays slot with
    | true =>
      rw [List.filter_cons_of_pos keep]
      constructor
      · intro h
        cases h with
        | skip optional more => exact .skip optional ((ih tail).mp more)
        | child first more => exact .child first ((ih tail).mp more)
      · intro h
        cases h with
        | skip optional more => exact .skip optional ((ih tail).mpr more)
        | child first more => exact .child first ((ih tail).mpr more)
    | false =>
      rw [List.filter_cons_of_neg (Bool.not_eq_true _ ▸ keep), ih tail]
      constructor
      · intro h
        have alone : SlotsMatch S (slot :: rest) ([] ++ tokens) := .child ((head keep []).mpr rfl) h
        exact alone
      · intro h
        cases h with
        | skip _ more => exact more
        | child first more => exact ((head keep _).mp first) ▸ more

end SlotsMatch

namespace Grammar

variable {grammar grown : Grammar κ} {symbol : Symbol} {tokens : List String}

theorem matches_iff_of_rulesOf_eq_nil (none : grammar.rulesOf symbol = [])
    (known : grammar.matchesEmpty symbol = true) :
    grammar.Matches symbol tokens ↔ tokens = [] := by
  constructor
  · intro h
    cases h with
    | empty => rfl
    | word mem => exact absurd (none ▸ mem) List.not_mem_nil
    | phrase mem => exact absurd (none ▸ mem) List.not_mem_nil
  · rintro rfl
    exact .empty known

def Covers (grown grammar : Grammar κ) : Prop :=
  ∀ symbol tokens, grammar.Matches symbol tokens → grown.Matches symbol tokens

def SameMatches (grammar grown : Grammar κ) : Prop :=
  ∀ symbol tokens, grown.Matches symbol tokens ↔ grammar.Matches symbol tokens

theorem SameMatches.of_covers (h : grown.Covers grammar) (h' : grammar.Covers grown) :
    grammar.SameMatches grown :=
  fun symbol tokens => ⟨h' symbol tokens, h symbol tokens⟩

theorem SameMatches.covers (h : grammar.SameMatches grown) : grown.Covers grammar :=
  fun symbol tokens => (h symbol tokens).mpr

theorem SameMatches.refl (grammar : Grammar κ) : grammar.SameMatches grammar :=
  fun _ _ => .rfl

theorem SameMatches.trans {last : Grammar κ} (h : grammar.SameMatches grown)
    (h' : grown.SameMatches last) : grammar.SameMatches last :=
  fun symbol tokens => (h' symbol tokens).trans (h symbol tokens)

theorem Covers.refl (grammar : Grammar κ) : grammar.Covers grammar :=
  fun _ _ => id

theorem Covers.trans {last : Grammar κ} (h' : last.Covers grown) (h : grown.Covers grammar) :
    last.Covers grammar :=
  fun symbol tokens matched => h' symbol tokens (h symbol tokens matched)

variable [Cost κ]

theorem IsSound.of_vanishing (h : grammar.IsSound)
    (vanishes : (grammar.vanishing.of? symbol).isSome = true) :
    grammar.rulesOf symbol = [] ∧ grammar.matchesEmpty symbol = true := by
  by_cases empty : symbol = .empty
  · subst empty
    exact ⟨h.rulesOf_empty, rfl⟩
  · rw [vanishing_of?] at vanishes
    split at vanishes
    case isFalse => exact nomatch vanishes
    case isTrue =>
      split at vanishes
      case isFalse => exact nomatch vanishes
      case isTrue only =>
        simp only [matchesOnlyEmpty, empty, decide_false, Bool.false_or, Bool.and_eq_true,
          List.isEmpty_iff] at only
        exact ⟨only.2, by simp only [matchesEmpty, only.1, Bool.or_true]⟩

variable {filler : Filler κ}

theorem IsSound.vanishing_cases (h : grammar.IsSound)
    (vanishes : grammar.vanishing.of? symbol = some filler) :
    grammar.rulesOf symbol = [] ∧
      (symbol = .empty ∧ filler = .nothing ∨
        symbol ≠ .empty ∧ grammar.zeroFiller? symbol = some filler) := by
  refine ⟨(h.of_vanishing (vanishes ▸ rfl)).1, ?_⟩
  rw [vanishing_of?] at vanishes
  split at vanishes
  case isFalse => exact nomatch vanishes
  case isTrue =>
    split at vanishes
    case isTrue empty => exact .inl ⟨empty, (Option.some.inj vanishes).symm⟩
    case isFalse other =>
      split at vanishes
      case isTrue => exact .inr ⟨other, vanishes⟩
      case isFalse => exact nomatch vanishes

theorem IsSound.vanishing_collapseRound (h : grammar.IsSound)
    (vanishes : grammar.vanishing.of? symbol = some filler) :
    grammar.collapseRound.1.vanishing.of? symbol = some filler := by
  obtain ⟨none, -⟩ := h.vanishing_cases vanishes
  have kept : grammar.collapseRound.1.rulesOf symbol = grammar.rulesOf symbol ∧
      grammar.collapseRound.1.zeroFiller? symbol = grammar.zeroFiller? symbol := by
    rcases collapseRound_cases grammar symbol with same | ⟨before, found, collapsed⟩
    · simp only [zeroFiller?, rulesOf, same, and_self]
    · rw [rulesOf_eq found] at none
      simp only [zeroFiller?, rulesOf, found, collapsed, Entry.collapsed, Entry.untouched,
        Entry.remainders, Entry.zeroFillers, Entry.affected, Entry.phraseRules, none,
        List.filter_nil, List.filterMap_nil, List.map_nil, List.append_nil, List.foldl_nil,
        Option.map_some, Option.bind_some, Option.getD_some, and_self]
  have only : grammar.collapseRound.1.matchesOnlyEmpty symbol =
      grammar.matchesOnlyEmpty symbol := by
    rw [matchesOnlyEmpty, matchesOnlyEmpty, kept.1, kept.2]
  rw [← vanishes, vanishing_of?, vanishing_of?, size_collapseRound, only, kept.2]

theorem vanishing_collapseRounds {left : Grammar κ} {rounds count : Nat} (h : grammar.IsSound)
    (done : collapseRounds rounds grammar = (left, .ok count))
    (vanishes : grammar.vanishing.of? symbol = some filler) :
    left.vanishing.of? symbol = some filler := by
  induction rounds generalizing grammar count with
  | zero =>
    obtain ⟨rfl, -⟩ := Prod.mk.inj done
    exact vanishes
  | succ rounds ih =>
    by_cases idle : grammar.IsCollapsed
    · rw [collapseRounds_of_isCollapsed rounds idle] at done
      obtain ⟨rfl, -⟩ := Prod.mk.inj done
      exact vanishes
    · match round : grammar.collapseRound with
      | (next, .error fault) =>
        rw [collapseRounds_of_error rounds round] at done
        exact nomatch (Prod.mk.inj done).2
      | (next, .ok n) =>
        have sound := h.collapseRound
        have stays := h.vanishing_collapseRound vanishes
        rw [collapseRounds_of_ok rounds idle round] at done
        rw [round] at sound stays
        obtain ⟨rfl, result⟩ := Prod.mk.inj done
        cases rest : (collapseRounds rounds next).2 with
        | error fault => exact nomatch rest ▸ result
        | ok more => exact ih sound (Prod.ext rfl rest) stays

section Round

variable {rule left : PhraseRule κ} {word : WordRule κ}

theorem word_mem_collapseRound :
    .word word ∈ grammar.collapseRound.1.rulesOf symbol ↔ .word word ∈ grammar.rulesOf symbol := by
  rcases collapseRound_cases grammar symbol with same | ⟨before, found, collapsed⟩
  · rw [rulesOf, same, ← rulesOf]
  · rw [rulesOf_eq collapsed, rulesOf_eq found]
    simp only [Entry.collapsed, List.mem_append, Entry.mem_untouched, Entry.mem_remainders]
    constructor
    · rintro (⟨mem, -⟩ | ⟨rule, -, -, same⟩)
      · exact mem
      · cases same
    · exact fun mem => .inl ⟨mem, rfl⟩

/-- A phrase stays as it is, loses some of its children, or loses all of them; then a filler is
offered to its symbol. -/
theorem phrase_collapseRound_cases (mem : .phrase rule ∈ grammar.rulesOf symbol) :
    .phrase rule ∈ grammar.collapseRound.1.rulesOf symbol ∨
      (rule.staying grammar.vanishing = [] ∧
        ∃ fillers : List (Filler κ), rule.zeroFiller grammar.signatures grammar.vanishing ∈ fillers ∧
          grammar.collapseRound.1.zeroFiller? symbol =
            fillers.foldl Filler.offer (grammar.zeroFiller? symbol)) ∨
      (rule.hasVanishing grammar.vanishing = true ∧ rule.staying grammar.vanishing ≠ [] ∧
        .phrase (rule.remainder grammar.vanishing) ∈
          grammar.collapseRound.1.rulesOf symbol) := by
  rcases collapseRound_cases grammar symbol with same | ⟨before, found, collapsed⟩
  · rw [rulesOf, ← same, ← rulesOf] at mem
    exact .inl mem
  · rw [rulesOf_eq found] at mem
    rw [rulesOf_eq collapsed, Entry.collapsed]
    cases loses : rule.hasVanishing grammar.vanishing with
    | false => exact .inl (List.mem_append_left _ (Entry.mem_untouched.mpr ⟨mem, loses⟩))
    | true =>
      have affected := Entry.mem_affected.mpr ⟨mem, loses⟩
      by_cases none : rule.staying grammar.vanishing = []
      · refine .inr (.inl ⟨none, before.zeroFillers grammar.signatures grammar.vanishing,
          Entry.mem_zeroFillers.mpr ⟨rule, affected, none, rfl⟩, ?_⟩)
        rw [zeroFiller?, zeroFiller?, collapsed, found]
        rfl
      · exact .inr (.inr ⟨rfl, none, List.mem_append_right _
          (Entry.mem_remainders.mpr ⟨rule, affected, none, rfl⟩)⟩)

theorem of_phrase_mem_collapseRound (mem : .phrase left ∈ grammar.collapseRound.1.rulesOf symbol) :
    .phrase left ∈ grammar.rulesOf symbol ∨
      ∃ rule, .phrase rule ∈ grammar.rulesOf symbol ∧ left = rule.remainder grammar.vanishing ∧
        rule.hasVanishing grammar.vanishing = true ∧ rule.staying grammar.vanishing ≠ [] := by
  rcases collapseRound_cases grammar symbol with same | ⟨before, found, collapsed⟩
  · rw [rulesOf, same, ← rulesOf] at mem
    exact .inl mem
  · rw [rulesOf_eq collapsed, Entry.collapsed] at mem
    rw [rulesOf_eq found]
    rcases List.mem_append.mp mem with mem | mem
    · exact .inl (Entry.mem_untouched.mp mem).1
    · obtain ⟨rule, affected, some, same⟩ := Entry.mem_remainders.mp mem
      obtain ⟨there, loses⟩ := Entry.mem_affected.mp affected
      exact .inr ⟨rule, there, Rule.phrase.inj same, loses, some⟩

theorem rulesOf_collapseRound_eq_nil (none : grammar.rulesOf symbol = []) :
    grammar.collapseRound.1.rulesOf symbol = [] := by
  refine List.eq_nil_iff_forall_not_mem.mpr fun rule mem => ?_
  cases rule with
  | word word => exact absurd (none ▸ word_mem_collapseRound.mp mem) List.not_mem_nil
  | phrase left =>
    rcases of_phrase_mem_collapseRound mem with mem | ⟨rule, mem, -⟩
    · exact absurd (none ▸ mem) List.not_mem_nil
    · exact absurd (none ▸ mem) List.not_mem_nil

theorem zeroFiller?_collapseRound (grammar : Grammar κ) (symbol : Symbol) :
    ∃ fillers : List (Filler κ), grammar.collapseRound.1.zeroFiller? symbol =
        fillers.foldl Filler.offer (grammar.zeroFiller? symbol) ∧
      ∀ filler ∈ fillers, ∃ rule, .phrase rule ∈ grammar.rulesOf symbol ∧
        rule.staying grammar.vanishing = [] ∧
        filler = rule.zeroFiller grammar.signatures grammar.vanishing := by
  rcases collapseRound_cases grammar symbol with same | ⟨before, found, collapsed⟩
  · refine ⟨[], ?_, List.forall_mem_nil _⟩
    rw [zeroFiller?, same, ← zeroFiller?, List.foldl_nil]
  · refine ⟨before.zeroFillers grammar.signatures grammar.vanishing, ?_, fun filler mem => ?_⟩
    · rw [zeroFiller?, zeroFiller?, collapsed, found]
      rfl
    · obtain ⟨rule, affected, none, same⟩ := Entry.mem_zeroFillers.mp mem
      exact ⟨rule, rulesOf_eq found ▸ (Entry.mem_affected.mp affected).1, none, same⟩

theorem of_zeroFiller?_collapseRound {filler : Filler κ}
    (known : grammar.collapseRound.1.zeroFiller? symbol = some filler) :
    grammar.zeroFiller? symbol = some filler ∨
      ∃ rule, .phrase rule ∈ grammar.rulesOf symbol ∧ rule.staying grammar.vanishing = [] ∧
        filler = rule.zeroFiller grammar.signatures grammar.vanishing := by
  obtain ⟨fillers, offered, left⟩ := zeroFiller?_collapseRound grammar symbol
  rw [offered] at known
  exact (Filler.mem_foldl_offer known).imp_right (left filler)

theorem matchesEmpty_collapseRound (h : grammar.matchesEmpty symbol = true) :
    grammar.collapseRound.1.matchesEmpty symbol = true := by
  obtain ⟨fillers, offered, -⟩ := zeroFiller?_collapseRound grammar symbol
  rw [matchesEmpty, Bool.or_eq_true] at h
  rw [matchesEmpty, offered, Bool.or_eq_true]
  exact h.imp_right fun some => (Filler.isSome_foldl_offer _ _).mpr (.inl some)

theorem of_matchesEmpty_collapseRound
    (h : grammar.collapseRound.1.matchesEmpty symbol = true) :
    grammar.matchesEmpty symbol = true ∨
      ∃ rule, .phrase rule ∈ grammar.rulesOf symbol ∧ rule.staying grammar.vanishing = [] := by
  obtain ⟨fillers, offered, left⟩ := zeroFiller?_collapseRound grammar symbol
  rw [matchesEmpty, offered, Bool.or_eq_true, Filler.isSome_foldl_offer] at h
  rw [matchesEmpty, Bool.or_eq_true]
  rcases h with empty | some | some
  · exact .inl (.inl empty)
  · exact .inl (.inr some)
  · obtain ⟨filler, mem⟩ := List.exists_mem_of_ne_nil _ some
    obtain ⟨rule, there, none, -⟩ := left filler mem
    exact .inr ⟨rule, there, none⟩

end Round

/-- Slots that stay match what all slots match, as long as vanishing symbols match only the empty
text. -/
theorem slotsMatch_staying_iff {S : Symbol → List String → Prop} {rule : PhraseRule κ}
    (nil : ∀ {symbol}, (grammar.vanishing.of? symbol).isSome = true →
      ∀ tokens, S symbol tokens ↔ tokens = []) :
    SlotsMatch S ((rule.staying grammar.vanishing).map (·.1)) tokens ↔
      SlotsMatch S rule.slots tokens := by
  rw [PhraseRule.staying_slots]
  refine SlotsMatch.filter_iff fun slot _ goes => nil ?_
  exact Option.isNone_eq_false_iff.mp goes

theorem IsSound.collapseRound_covers (h : grammar.IsSound) :
    grammar.collapseRound.1.Covers grammar := by
  have nil : ∀ {symbol}, (grammar.vanishing.of? symbol).isSome = true →
      ∀ tokens, grammar.collapseRound.1.Matches symbol tokens ↔ tokens = [] := by
    intro symbol vanishes tokens
    obtain ⟨none, known⟩ := h.of_vanishing vanishes
    exact matches_iff_of_rulesOf_eq_nil (rulesOf_collapseRound_eq_nil none)
      (matchesEmpty_collapseRound known)
  intro symbol tokens matched
  refine matched.least ⟨fun known => .empty (matchesEmpty_collapseRound known),
    fun mem => .word (word_mem_collapseRound.mpr mem), fun {symbol rule tokens} mem slots => ?_⟩
  rcases phrase_collapseRound_cases mem with mem | ⟨none, fillers, left, offered⟩ | ⟨-, -, mem⟩
  · exact .phrase mem slots
  · have stay := (slotsMatch_staying_iff nil).mpr slots
    rw [none] at stay
    cases stay with
    | nil =>
      refine .empty ?_
      rw [matchesEmpty, offered, Bool.or_eq_true]
      exact .inr ((Filler.isSome_foldl_offer _ _).mpr (.inr (List.ne_nil_of_mem left)))
  · exact .phrase mem ((slotsMatch_staying_iff nil).mpr slots)

theorem IsSound.covers_collapseRound (h : grammar.IsSound) :
    grammar.Covers grammar.collapseRound.1 := by
  have nil : ∀ {symbol}, (grammar.vanishing.of? symbol).isSome = true →
      ∀ tokens, grammar.Matches symbol tokens ↔ tokens = [] := by
    intro symbol vanishes tokens
    obtain ⟨none, known⟩ := h.of_vanishing vanishes
    exact matches_iff_of_rulesOf_eq_nil none known
  intro symbol tokens matched
  refine matched.least ⟨fun {symbol} known => ?_, fun mem => .word (word_mem_collapseRound.mp mem),
    fun {symbol left tokens} mem slots => ?_⟩
  · rcases of_matchesEmpty_collapseRound known with known | ⟨rule, mem, none⟩
    · exact .empty known
    · refine .phrase mem ((slotsMatch_staying_iff nil).mp ?_)
      rw [none]
      exact .nil
  · rcases of_phrase_mem_collapseRound mem with kept | ⟨rule, lost, rfl, -⟩
    · exact .phrase kept slots
    · exact .phrase lost ((slotsMatch_staying_iff nil).mp slots)

/-- A round of collapsing changes nothing in what is matched, whether it is refused or not. -/
theorem IsSound.collapseRound_sameMatches (h : grammar.IsSound) :
    grammar.SameMatches grammar.collapseRound.1 :=
  .of_covers h.collapseRound_covers h.covers_collapseRound

end Grammar

/-- An insertion rule requires all of its children. -/
def Rule.IsFirm : Rule κ → Prop
  | .word _ => True
  | .phrase rule => rule.origin = .insertion → ∀ slot ∈ rule.slots, slot.optional = false

theorem Rule.IsAuthored.isFirm {rule : Rule κ} (h : rule.IsAuthored) : rule.IsFirm := by
  cases rule with
  | word rule => exact trivial
  | phrase rule =>
    intro insertion
    exact nomatch h.1.symm.trans insertion

namespace PhraseRule

variable [Cost κ] {rule : PhraseRule κ} {pair : Slot × Slot}

theorem isFirm_eliding (place : Place) (filler : Filler κ) :
    (Rule.phrase (rule.eliding pair place filler)).IsFirm := by
  intro _ slot mem
  rw [List.mem_singleton.mp mem]

end PhraseRule

namespace Grammar

variable [Cost κ] {grammar grown : Grammar κ} {symbol : Symbol} {rules : List (Rule κ)}

theorem AllRules.derive_isFirm (h : grammar.AllRules Rule.IsFirm) :
    grammar.derive.1.AllRules Rule.IsFirm :=
  derive_induction (fun h => h.collapseRound fun _ _ => nofun)
    (fun h => h.insertionRound fun place filler _ _ _ => PhraseRule.isFirm_eliding place filler)
    (fun h => h.transpose fun _ _ _ _ => nofun) h

omit [Cost κ] in
theorem setRules_covers {others : List (Rule κ)}
    (words : ∀ rule, .word rule ∈ others → .word rule ∈ rules)
    (phrases : ∀ rule, .phrase rule ∈ others → ∃ form, .phrase form ∈ rules ∧
      ∀ S tokens, SlotsMatch S rule.slots tokens → SlotsMatch S form.slots tokens) :
    (grammar.setRules symbol rules).Covers (grammar.setRules symbol others) := by
  have bare : (grammar.setRules symbol others).bare = (grammar.setRules symbol rules).bare := by
    rw [bare_setRules, bare_setRules]
  have admits : (grammar.setRules symbol others).Admits
      (grammar.setRules symbol rules).Matches := by
    refine ⟨fun {other} known => ?_, fun {other rule} mem => ?_,
      fun {other rule tokens} mem slots => ?_⟩
    · refine .empty ?_
      rwa [matchesEmpty, zeroFiller?_eq_of_bare bare, ← matchesEmpty] at known
    · refine .word (mem_rulesOf_setRules.mpr ?_)
      exact (mem_rulesOf_setRules.mp mem).imp_left fun ⟨here, known, mem⟩ =>
        ⟨here, known, words rule mem⟩
    · rcases mem_rulesOf_setRules.mp mem with ⟨here, known, mem⟩ | ⟨other, mem⟩
      · obtain ⟨form, kept, alike⟩ := phrases rule mem
        exact .phrase (mem_rulesOf_setRules.mpr (.inl ⟨here, known, kept⟩)) (alike _ _ slots)
      · exact .phrase (mem_rulesOf_setRules.mpr (.inr ⟨other, mem⟩)) slots
  exact fun other tokens matched => matched.least admits

omit [Cost κ] in
theorem covers_append (grammar : Grammar κ) (symbol : Symbol) (rule : Rule κ) :
    (grammar.setRules symbol (grammar.rulesOf symbol ++ [rule])).Covers grammar := by
  have covers : (grammar.setRules symbol (grammar.rulesOf symbol ++ [rule])).Covers
      (grammar.setRules symbol (grammar.rulesOf symbol)) :=
    setRules_covers (fun _ mem => List.mem_append_left _ mem)
      fun rule mem => ⟨rule, List.mem_append_left _ mem, fun _ _ => id⟩
  rwa [setRules_rulesOf] at covers

omit [Cost κ] in
theorem sameMatches_replace {before after : List (Rule κ)} {present rule : PhraseRule κ}
    (rules : grammar.rulesOf symbol = before ++ .phrase present :: after)
    (symbols : present.symbols = rule.symbols)
    (firm : ∀ slot ∈ present.slots, slot.optional = false)
    (firm' : ∀ slot ∈ rule.slots, slot.optional = false) :
    grammar.SameMatches (grammar.setRules symbol (before ++ .phrase rule :: after)) := by
  have covers : ∀ {a b : PhraseRule κ}, a.symbols = b.symbols →
      (∀ slot ∈ a.slots, slot.optional = false) →
      (grammar.setRules symbol (before ++ .phrase b :: after)).Covers
        (grammar.setRules symbol (before ++ .phrase a :: after)) := by
    intro a b same firm
    refine setRules_covers (fun word mem => ?_) fun other mem => ?_
    · simpa using mem
    · simp only [List.mem_append, List.mem_cons, Rule.phrase.injEq] at mem ⊢
      rcases mem with mem | rfl | mem
      · exact ⟨other, .inl mem, fun _ _ => id⟩
      · exact ⟨b, .inr (.inl rfl), fun _ _ => SlotsMatch.of_symbols_eq same firm⟩
      · exact ⟨other, .inr (.inr mem), fun _ _ => id⟩
  have there := covers symbols firm
  have back := covers symbols.symm firm'
  rw [← rules, setRules_rulesOf] at there back
  exact .of_covers there back

/-- An offer loses no match, and makes new ones only when the rule is added. -/
theorem offer_matches {state : Grammar κ × Changes} (source : Symbol × PhraseRule κ)
    (firm : state.1.AllRules Rule.IsFirm) (firm' : ∀ slot ∈ source.2.slots, slot.optional = false) :
    (offer state source).1.Covers state.1 ∧
      ((offer state source).2.added = 0 →
        state.2.added = 0 ∧ state.1.SameMatches (offer state source).1) := by
  have record : (offer state source).2 = state.2.record
    (offerRule state.1.nameOf source.2 (state.1.rulesOf source.1)).2 := rfl
  rw [offer_fst, record]
  rcases offerRule_cases state.1.nameOf source.2 (state.1.rulesOf source.1) with
    ⟨-, done⟩ | ⟨before, present, after, rules, symbols, origin, -, done⟩ | ⟨-, done⟩
  · rw [done]
    exact ⟨covers_append _ _ _, nofun⟩
  · rw [done]
    have old : Rule.IsFirm (.phrase present) := firm source.1 _
      (rules ▸ List.mem_append_right _ List.mem_cons_self)
    have same := sameMatches_replace rules symbols (old origin) firm'
    exact ⟨same.covers, fun none => ⟨none, same⟩⟩
  · rw [done, setRules_rulesOf]
    exact ⟨.refl _, fun none => ⟨none, .refl _⟩⟩

theorem IsSound.collapse_sameMatches (h : grammar.IsSound) :
    grammar.SameMatches grammar.collapse.1 := by
  refine (collapse_induction (Q := fun left => left.IsSound ∧ grammar.SameMatches left) ?_
    ⟨h, .refl grammar⟩).2
  exact fun ⟨sound, same⟩ => ⟨sound.collapseRound, same.trans sound.collapseRound_sameMatches⟩

theorem insertionRound_matches (firm : grammar.AllRules Rule.IsFirm) :
    grammar.insertionRound.1.Covers grammar ∧
      (grammar.insertionRound.2.added = 0 → grammar.SameMatches grammar.insertionRound.1) := by
  have kept : grammar.insertionRound.1.AllRules Rule.IsFirm ∧
      grammar.insertionRound.1.Covers grammar ∧
      (grammar.insertionRound.2.added = 0 →
        grammar.SameMatches grammar.insertionRound.1) := by
    refine List.foldlRecOn (motive := fun state : Grammar κ × Changes =>
      state.1.AllRules Rule.IsFirm ∧ state.1.Covers grammar ∧
        (state.2.added = 0 → grammar.SameMatches state.1))
      _ offer ⟨firm, .refl grammar, fun _ => .refl grammar⟩ ?_
    rintro state ⟨firm, covers, same⟩ source mem
    obtain ⟨rule, present, made⟩ := mem_insertionOffers.mp mem
    obtain ⟨-, -, pair, place, filler, -, -, made⟩ := PhraseRule.insertion?_eq_some.mp made
    have firm' : Rule.IsFirm (.phrase source.2) := made ▸ PhraseRule.isFirm_eliding place filler
    have required : ∀ slot ∈ source.2.slots, slot.optional = false := firm' (made ▸ rfl)
    obtain ⟨more, unchanged⟩ := offer_matches source firm required
    refine ⟨firm.offer firm', more.trans covers, fun none => ?_⟩
    exact (same (unchanged none).1).trans (unchanged none).2
  exact kept.2

theorem insertionRounds_matches (firm : grammar.AllRules Rule.IsFirm) (rounds count : Nat) :
    (insertionRounds rounds grammar (.ofCollapsed count)).1.Covers grammar ∧
      ((insertionRounds rounds grammar (.ofCollapsed count)).2.insertions = 0 →
        grammar.SameMatches (insertionRounds rounds grammar (.ofCollapsed count)).1) := by
  refine (insertionRounds_induction (Q := fun state : Grammar κ × Tally =>
    state.1.AllRules Rule.IsFirm ∧ state.1.Covers grammar ∧
      (state.2.insertions = 0 → grammar.SameMatches state.1)) ?_ rounds
    ⟨firm, .refl grammar, fun _ => .refl grammar⟩).2
  rintro left tally ⟨firm, covers, same⟩
  obtain ⟨more, unchanged⟩ := insertionRound_matches firm
  refine ⟨firm.insertionRound fun place filler _ _ _ => PhraseRule.isFirm_eliding place filler,
    more.trans covers, fun none => ?_⟩
  obtain ⟨earlier, now⟩ := Nat.add_eq_zero_iff.mp none
  exact (same earlier).trans (unchanged now)

theorem transpose_matches (grammar : Grammar κ) :
    grammar.transpose.1.Covers grammar ∧
      (grammar.transpose.2 = 0 → grammar.SameMatches grammar.transpose.1) := by
  refine List.foldlRecOn (motive := fun state : Grammar κ × Nat =>
    state.1.Covers grammar ∧ (state.2 = 0 → grammar.SameMatches state.1))
    _ addAbsent ⟨.refl grammar, fun _ => .refl grammar⟩ ?_
  rintro state ⟨covers, same⟩ source -
  rcases addAbsent_cases state source with ⟨-, done⟩ | ⟨-, done⟩
  · rw [done]
    exact ⟨covers, same⟩
  · rw [done]
    exact ⟨(covers_append _ _ _).trans covers, nofun⟩

/-- Derivation loses no match. It makes new ones only by rules of insertion and transposition. -/
theorem IsSound.derive_matches (h : grammar.IsSound) (firm : grammar.AllRules Rule.IsFirm) :
    grammar.derive.1.Covers grammar ∧
      ((∀ tally, grammar.derive.2 = .ok tally → tally.insertions = 0 ∧ tally.transpositions = 0) →
        grammar.SameMatches grammar.derive.1) := by
  have collapse := h.collapse_sameMatches
  have firm := collapse_induction (fun h => h.collapseRound fun _ _ => nofun) firm
  rcases derive_eq grammar with ⟨left, fault, same, done⟩ | ⟨left, count, same, done⟩
  · rw [same] at collapse
    rw [done]
    exact ⟨collapse.covers, fun _ => collapse⟩
  · rw [same] at collapse firm
    rw [done]
    obtain ⟨more, unchanged⟩ := insertionRounds_matches firm (left.size + 1) count
    obtain ⟨last, alike⟩ :=
      transpose_matches (insertionRounds (left.size + 1) left (.ofCollapsed count)).1
    refine ⟨last.trans (more.trans collapse.covers), fun none => ?_⟩
    obtain ⟨insertions, transpositions⟩ := none _ rfl
    exact (collapse.trans (unchanged insertions)).trans (alike transpositions)

theorem run_isFirm {operations : List (Operation κ)}
    (plain : ∀ operation ∈ operations, operation.IsPlain) :
    (run operations).AllRules Rule.IsFirm :=
  run_induction .new (.step fun _ h => h.isFirm) (fun _ => .derive_isFirm) fun operation mem =>
    (plain operation mem).mono fun _ plain => plain.isAuthored.isFirm

/-- After every run with plain rules, derivation loses no match, whether it is refused or not. When
it is refused, or adds neither insertion nor transposition rules, it makes no new ones. -/
theorem run_derive_matches (operations : List (Operation κ))
    (plain : ∀ operation ∈ operations, operation.IsPlain) :
    (∀ symbol tokens, (run operations).Matches symbol tokens →
      (run operations).derive.1.Matches symbol tokens) ∧
    ((∃ fault, (run operations).derive.2 = .error fault) ∨
        (∃ tally, (run operations).derive.2 = .ok tally ∧
          tally.insertions = 0 ∧ tally.transpositions = 0) →
      ∀ symbol tokens, (run operations).derive.1.Matches symbol tokens ↔
        (run operations).Matches symbol tokens) := by
  obtain ⟨covers, same⟩ := (IsSound.run operations).derive_matches (run_isFirm plain)
  refine ⟨covers, fun quiet => same fun tally ok => ?_⟩
  rcases quiet with ⟨fault, error⟩ | ⟨tally', ok', none⟩
  · exact nomatch error.symm.trans ok
  · exact Except.ok.inj (ok'.symm.trans ok) ▸ none

/-- A sentence is one word, with the empty symbol before it. -/
def wordAfterEmpty : List (Operation Float) :=
  [.newSymbol ["word"], .addRule ⟨2⟩ (.word (.ofLiteral "hello")),
    .addRule .start (.phrase (.ofSymbols [.empty, ⟨2⟩]))]

theorem wordAfterEmpty_isPlain : ∀ operation ∈ wordAfterEmpty, operation.IsPlain := by
  simp only [wordAfterEmpty, List.forall_mem_cons]
  exact ⟨trivial, Rule.isPlain_ofLiteral, Rule.isPlain_ofSlots, List.forall_mem_nil _⟩

theorem wordAfterEmpty_matches : (run wordAfterEmpty).Matches .start ["hello"] := by
  have word : .word (.ofLiteral "hello") ∈ (run wordAfterEmpty).rulesOf ⟨2⟩ := by
    decide +kernel
  have phrase : .phrase (.ofSymbols [.empty, ⟨2⟩]) ∈ (run wordAfterEmpty).rulesOf .start := by
    decide +kernel
  have last : SlotsMatch (run wordAfterEmpty).Matches [.ofSymbol ⟨2⟩] (["hello"] ++ []) :=
    .child (.word word) .nil
  have slots : SlotsMatch (run wordAfterEmpty).Matches [.ofSymbol .empty, .ofSymbol ⟨2⟩]
      ([] ++ (["hello"] ++ [])) := .child (.empty rfl) last
  exact .phrase phrase slots

/-- The word is matched without the empty symbol before it. -/
theorem wordAfterEmpty_derive_matches :
    (∀ operation ∈ wordAfterEmpty, operation.IsPlain) ∧
      (run wordAfterEmpty).derive.1.Matches .start ["hello"] :=
  ⟨wordAfterEmpty_isPlain,
    (run_derive_matches wordAfterEmpty wordAfterEmpty_isPlain).1 _ _ wordAfterEmpty_matches⟩

end Grammar

end PhraseGrammar
