import Mathlib.Algebra.GroupWithZero.Nat
import Mathlib.Data.List.Forall2
import PhraseGrammar.Derivation.Vanishing
import PhraseGrammar.Proofs.Orders
import PhraseGrammar.Proofs.Validation

/-! What collapsing does: to one entry, in one round, and until no child vanishes any more. -/

namespace PhraseGrammar

variable {κ : Type}

section Ascending

variable {α : Type}

theorem mergeSort_sorted (key : α → Nat) (xs : List α) :
    (xs.mergeSort fun a b => key a ≤ key b).Pairwise fun a b => key a ≤ key b := by
  have trans : ∀ a b c : α, decide (key a ≤ key b) = true → decide (key b ≤ key c) = true →
      decide (key a ≤ key c) = true := fun a b c ab bc =>
    decide_eq_true (Nat.le_trans (of_decide_eq_true ab) (of_decide_eq_true bc))
  have total : ∀ a b : α, (decide (key a ≤ key b) || decide (key b ≤ key a)) = true := by
    intro a b
    rw [Bool.or_eq_true, decide_eq_true_eq, decide_eq_true_eq]
    exact Nat.le_total (key a) (key b)
  exact (List.pairwise_mergeSort trans total xs).imp of_decide_eq_true

theorem eraseReps_loop (r : α → α → Bool) (x : α) (xs seen : List α) :
    List.eraseRepsBy.loop r x xs seen = seen.reverse ++ List.eraseRepsBy.loop r x xs [] := by
  induction xs generalizing x seen with
  | nil => simp only [List.eraseRepsBy.loop, List.reverse_cons, List.reverse_nil, List.nil_append]
  | cons y xs ih =>
    simp only [List.eraseRepsBy.loop]
    cases r x y with
    | true => exact ih x seen
    | false => simp only [ih y (x :: seen), ih y [x], List.reverse_cons, List.reverse_nil,
        List.nil_append, List.append_assoc]

variable [BEq α]

theorem eraseReps_cons_cons (x y : α) (xs : List α) :
    (x :: y :: xs).eraseReps =
      if x == y then (x :: xs).eraseReps else x :: (y :: xs).eraseReps := by
  simp only [List.eraseReps, List.eraseRepsBy, List.eraseRepsBy.loop]
  cases x == y with
  | true => rfl
  | false => exact eraseReps_loop _ y xs [x]

variable [LawfulBEq α]

theorem mem_eraseReps {a : α} {xs : List α} : a ∈ xs.eraseReps ↔ a ∈ xs := by
  cases xs with
  | nil => exact .rfl
  | cons x xs =>
    induction xs generalizing x with
    | nil => exact .rfl
    | cons y xs ih =>
      rw [eraseReps_cons_cons]
      split
      case isTrue same =>
        rw [ih x, eq_of_beq same, List.mem_cons, List.mem_cons, List.mem_cons, or_self_left]
      case isFalse => rw [List.mem_cons, ih y, List.mem_cons (a := a) (b := x)]

theorem eraseReps_ascending {key : α → Nat} (injective : ∀ a b, key a = key b → a = b)
    {xs : List α} (sorted : xs.Pairwise fun a b => key a ≤ key b) :
    xs.eraseReps.Pairwise fun a b => key a < key b := by
  cases xs with
  | nil => exact .nil
  | cons x xs =>
    induction xs generalizing x with
    | nil => exact List.pairwise_singleton _ x
    | cons y xs ih =>
      obtain ⟨above, tail⟩ := List.pairwise_cons.mp sorted
      rw [eraseReps_cons_cons]
      split
      case isTrue same =>
        exact ih x (sorted.sublist (.cons_cons x (.cons y (.refl xs))))
      case isFalse other =>
        refine List.pairwise_cons.mpr ⟨fun a mem => ?_, ih y tail⟩
        have below : key x ≤ key y := above y List.mem_cons_self
        have apart : key x ≠ key y := fun same => other (beq_of_eq (injective x y same))
        rcases List.mem_cons.mp (mem_eraseReps.mp mem) with rfl | mem
        · omega
        · have := (List.pairwise_cons.mp tail).1 a mem
          omega

end Ascending

theorem mem_remapPositions {map : Nat → Option Nat} {positions : List Nat} {i : Nat} :
    i ∈ remapPositions map positions ↔ ∃ j ∈ positions, map j = some i := by
  rw [remapPositions, mem_eraseReps, List.mem_mergeSort, List.mem_filterMap]

theorem rel_getElem? {α β : Type} {R : α → β → Prop} {xs : List α} {ys : List β}
    (h : List.Forall₂ R xs ys) (index : Nat) : Option.Rel R xs[index]? ys[index]? := by
  induction h generalizing index with
  | nil => exact .none
  | cons head _ ih =>
    cases index with
    | zero => exact .some head
    | succ index => exact ih index

theorem exists_of_mem_right {α β : Type} {R : α → β → Prop} {xs : List α} {ys : List β}
    (h : List.Forall₂ R xs ys) {y : β} (mem : y ∈ ys) : ∃ x ∈ xs, R x y := by
  induction h with
  | nil => cases mem
  | @cons x first _ _ head _ ih =>
    rcases List.mem_cons.mp mem with rfl | mem
    · exact ⟨x, List.mem_cons_self, head⟩
    · obtain ⟨x, there, related⟩ := ih mem
      exact ⟨x, List.mem_cons_of_mem _ there, related⟩

theorem exists_of_mem_left {α β : Type} {R : α → β → Prop} {xs : List α} {ys : List β}
    (h : List.Forall₂ R xs ys) {x : α} (mem : x ∈ xs) : ∃ y ∈ ys, R x y :=
  exists_of_mem_right h.flip mem

namespace PhraseRule

variable {vanishing : Fillers κ} {rule : PhraseRule κ}

theorem hasVanishing_iff :
    rule.hasVanishing vanishing = true ↔
      ∃ slot ∈ rule.slots, (vanishing.of? slot.symbol).isSome = true := by
  simp only [hasVanishing, symbols, List.any_map, List.any_eq_true, Function.comp_apply]

theorem staying_slots :
    (rule.staying vanishing).map (·.1) =
      rule.slots.filter fun slot => (vanishing.of? slot.symbol).isNone := by
  have slots : rule.slots.zipIdx.map (·.1) = rule.slots := List.zipIdx_map_fst 0 rule.slots
  conv => rhs; rw [← slots, List.filter_map]
  rfl

theorem length_staying_lt (h : rule.hasVanishing vanishing = true) :
    (rule.staying vanishing).length < rule.slots.length := by
  obtain ⟨slot, mem, gone⟩ := hasVanishing_iff.mp h
  rw [← List.length_map (·.1), staying_slots]
  refine List.length_filter_lt_length_iff_exists.mpr ⟨slot, mem, ?_⟩
  rw [Option.isNone_iff_eq_none]
  exact Option.isSome_iff_ne_none.mp gone

end PhraseRule

namespace Rule

theorem eq_phrase_of_phrase? {rule : Rule κ} {held : PhraseRule κ} (h : rule.phrase? = some held) :
    rule = .phrase held := by
  cases rule with
  | word rule => exact nomatch h
  | phrase rule => exact congrArg Rule.phrase (Option.some.inj h)

theorem mem_filterMap_phrase? {rules : List (Rule κ)} {rule : PhraseRule κ} :
    rule ∈ rules.filterMap phrase? ↔ .phrase rule ∈ rules := by
  rw [List.mem_filterMap]
  exact ⟨fun ⟨_, mem, same⟩ => eq_phrase_of_phrase? same ▸ mem, fun mem => ⟨_, mem, rfl⟩⟩

end Rule

variable [Cost κ]

namespace Entry

variable (signatures : Signatures κ) (vanishing : Fillers κ) (entry : Entry κ)

omit [Cost κ] in
/-- The rules that lose children. -/
def affected : List (PhraseRule κ) :=
  entry.phraseRules.filter (·.hasVanishing vanishing)

omit [Cost κ] in
def untouched : List (Rule κ) :=
  entry.rules.filter fun rule => !rule.hasVanishing vanishing

def remainders : List (Rule κ) :=
  ((entry.affected vanishing).map (·.remains signatures vanishing)).filterMap Remains.rule?

def zeroFillers : List (Filler κ) :=
  ((entry.affected vanishing).map (·.remains signatures vanishing)).filterMap Remains.filler?

omit [Cost κ] in
/-- The children that the rules lose, the empty symbol apart. -/
def gone : List Symbol :=
  (entry.affected vanishing).flatMap fun rule =>
    rule.symbols.filter fun symbol => (vanishing.of? symbol).isSome && symbol ≠ .empty

def collapsed : Entry κ :=
  { entry with
    rules := entry.untouched vanishing ++ entry.remainders signatures vanishing
    zeroFiller := (entry.zeroFillers signatures vanishing).foldl Filler.offer entry.zeroFiller
    vanished :=
      ((entry.vanished ++ entry.gone vanishing).mergeSort fun a b => a.index ≤ b.index).eraseReps }

variable {signatures vanishing entry}

omit [Cost κ] in
theorem mem_phraseRules {rule : PhraseRule κ} :
    rule ∈ entry.phraseRules ↔ .phrase rule ∈ entry.rules :=
  Rule.mem_filterMap_phrase?

omit [Cost κ] in
theorem mem_affected {rule : PhraseRule κ} :
    rule ∈ entry.affected vanishing ↔
      .phrase rule ∈ entry.rules ∧ rule.hasVanishing vanishing = true := by
  rw [affected, List.mem_filter, mem_phraseRules]

omit [Cost κ] in
theorem mem_untouched {rule : Rule κ} :
    rule ∈ entry.untouched vanishing ↔
      rule ∈ entry.rules ∧ rule.hasVanishing vanishing = false := by
  rw [untouched, List.mem_filter, Bool.not_eq_true']

theorem mem_remainders {left : Rule κ} :
    left ∈ entry.remainders signatures vanishing ↔
      ∃ rule ∈ entry.affected vanishing,
        rule.staying vanishing ≠ [] ∧ left = .phrase (rule.remainder vanishing) := by
  unfold remainders PhraseRule.remains
  simp only [List.filterMap_map, List.mem_filterMap, Function.comp_apply]
  refine exists_congr fun rule => and_congr_right' ?_
  cases rule.staying vanishing with
  | nil => exact ⟨nofun, fun h => absurd rfl h.1⟩
  | cons slot rest => exact ⟨fun h => ⟨nofun, (Option.some.inj h).symm⟩, fun h => h.2 ▸ rfl⟩

theorem mem_zeroFillers {filler : Filler κ} :
    filler ∈ entry.zeroFillers signatures vanishing ↔
      ∃ rule ∈ entry.affected vanishing,
        rule.staying vanishing = [] ∧ filler = rule.zeroFiller signatures vanishing := by
  unfold zeroFillers PhraseRule.remains
  simp only [List.filterMap_map, List.mem_filterMap, Function.comp_apply]
  refine exists_congr fun rule => and_congr_right' ?_
  cases rule.staying vanishing with
  | nil => exact ⟨fun h => ⟨rfl, (Option.some.inj h).symm⟩, fun h => h.2 ▸ rfl⟩
  | cons slot rest => exact ⟨nofun, fun h => nomatch h.1⟩

omit [Cost κ] in
theorem mem_gone {symbol : Symbol} :
    symbol ∈ entry.gone vanishing ↔
      ∃ rule ∈ entry.affected vanishing,
        symbol ∈ rule.symbols ∧ (vanishing.of? symbol).isSome = true ∧ symbol ≠ .empty := by
  simp only [gone, List.mem_flatMap, List.mem_filter, Bool.and_eq_true, decide_eq_true_eq]

end Entry

open Check

theorem Grammar.collapseEntry_ok {grammar : Grammar κ} {vanishing : Fillers κ}
    {before after : Entry κ} {count : Nat} :
    grammar.collapseEntry vanishing before = .ok (after, count) ↔
      count = (before.affected vanishing).length ∧
      (before.affected vanishing = [] ∧ after = before ∨
        before.affected vanishing ≠ [] ∧
        grammar.validateAll before.name (before.untouched vanishing)
          (before.remainders grammar.signatures vanishing) = .ok after.rules ∧
        after = before.collapsed grammar.signatures vanishing) := by
  unfold collapseEntry
  change (if (before.affected vanishing).isEmpty = true then _ else _) = _ ↔ _
  by_cases idle : before.affected vanishing = []
  · rw [if_pos (List.isEmpty_iff.mpr idle), idle]
    constructor
    · intro h
      obtain ⟨rfl, rfl⟩ := Prod.mk.inj (Except.ok.inj h)
      exact ⟨rfl, .inl ⟨rfl, rfl⟩⟩
    · rintro ⟨rfl, ⟨-, rfl⟩ | ⟨some, -⟩⟩
      · rfl
      · exact absurd rfl some
  · rw [if_neg (mt List.isEmpty_iff.mp idle), bind_ok]
    constructor
    · rintro ⟨rules, valid, h⟩
      obtain ⟨rfl, rfl⟩ := Prod.mk.inj (Except.ok.inj h)
      obtain rfl := (validateAll_ok.mp valid).1
      exact ⟨rfl, .inr ⟨idle, valid, rfl⟩⟩
    · rintro ⟨rfl, ⟨none, -⟩ | ⟨-, valid, same⟩⟩
      · exact absurd none idle
      · refine ⟨after.rules, valid, ?_⟩
        rw [same]
        rfl

def Rule.slotCount : Rule κ → Nat
  | .word _ => 0
  | .phrase rule => rule.slots.length

def Entry.slotCount (entry : Entry κ) : Nat :=
  (entry.rules.map Rule.slotCount).sum

namespace Entry

variable {vanishing : Fillers κ}

omit [Cost κ] in
theorem slotCount_eq_length (entry : Entry κ) :
    (entry.phraseRules.flatMap (·.slots)).length = entry.slotCount := by
  unfold phraseRules slotCount
  induction entry.rules with
  | nil => rfl
  | cons rule rest ih =>
    cases rule with
    | word rule =>
      rw [List.map_cons, List.sum_cons, ← ih]
      exact (Nat.zero_add _).symm
    | phrase rule =>
      rw [List.map_cons, List.sum_cons, ← ih]
      exact List.length_append

omit [Cost κ] in
theorem slotCount_eq_add (vanishing : Fillers κ) (entry : Entry κ) :
    entry.slotCount = ((entry.untouched vanishing).map Rule.slotCount).sum +
      ((entry.affected vanishing).map (·.slots.length)).sum := by
  unfold slotCount untouched affected phraseRules
  induction entry.rules with
  | nil => rfl
  | cons rule rest ih =>
    cases rule with
    | word rule =>
      rw [List.map_cons, List.sum_cons, ih, List.filter_cons_of_pos rfl,
        List.filterMap_cons_none rfl, List.map_cons, List.sum_cons, Nat.add_assoc]
    | phrase rule =>
      have phrases : (Rule.phrase rule :: rest).filterMap Rule.phrase? =
          rule :: rest.filterMap Rule.phrase? := rfl
      rw [List.map_cons, List.sum_cons, ih, phrases]
      cases loses : rule.hasVanishing vanishing with
      | true =>
        rw [List.filter_cons_of_neg (by simp [Rule.hasVanishing, loses]),
          List.filter_cons_of_pos loses, List.map_cons, List.sum_cons]
        exact Nat.add_left_comm ..
      | false =>
        rw [List.filter_cons_of_pos (by simp [Rule.hasVanishing, loses]),
          List.filter_cons_of_neg (Bool.not_eq_true _ ▸ loses), List.map_cons, List.sum_cons]
        exact (Nat.add_assoc ..).symm

theorem slotCount_remains_lt (signatures : Signatures κ) {rule : PhraseRule κ}
    (h : rule.hasVanishing vanishing = true) :
    ((rule.remains signatures vanishing).rule?.map Rule.slotCount).getD 0 <
      rule.slots.length := by
  have fewer := PhraseRule.length_staying_lt h
  unfold PhraseRule.remains
  split
  · exact Nat.zero_lt_of_lt fewer
  · change ((rule.staying vanishing).map (·.1)).length < rule.slots.length
    rw [List.length_map]
    exact fewer

/-- Each rule that loses children makes up for one child at least. -/
theorem slotCount_collapsed_le (signatures : Signatures κ) (vanishing : Fillers κ)
    (entry : Entry κ) :
    (entry.collapsed signatures vanishing).slotCount + (entry.affected vanishing).length ≤
      entry.slotCount := by
  have fewer : ∀ rules : List (PhraseRule κ), (∀ rule ∈ rules, rule.hasVanishing vanishing = true) →
      (((rules.map (·.remains signatures vanishing)).filterMap Remains.rule?).map
        Rule.slotCount).sum + rules.length ≤ (rules.map (·.slots.length)).sum := by
    intro rules lose
    induction rules with
    | nil => exact Nat.le_refl 0
    | cons rule rest ih =>
      obtain ⟨loses, lose⟩ := List.forall_mem_cons.mp lose
      have head := slotCount_remains_lt signatures loses
      have tail := ih lose
      rw [List.map_cons, List.filterMap_cons, List.map_cons, List.sum_cons, List.length_cons]
      cases left : (rule.remains signatures vanishing).rule? with
      | none => simp only; omega
      | some left' =>
        rw [left, Option.map_some, Option.getD_some] at head
        rw [List.map_cons, List.sum_cons]
        omega
  have lose := fewer (entry.affected vanishing) fun rule mem => (mem_affected.mp mem).2
  rw [slotCount_eq_add vanishing entry, slotCount, collapsed, List.map_append,
    List.sum_append, remainders]
  omega

end Entry

namespace Grammar

variable {grammar left : Grammar κ} {vanishing : Fillers κ} {count : Nat}

theorem vanishing_of? (grammar : Grammar κ) (symbol : Symbol) :
    grammar.vanishing.of? symbol =
      if symbol.index < grammar.size then
        if symbol = .empty then some .nothing
        else if grammar.matchesOnlyEmpty symbol then grammar.zeroFiller? symbol
        else none
      else none := by
  unfold vanishing Fillers.of? symbols
  split
  case isTrue known => simp [known]
  case isFalse unknown => simp [unknown]

/-- How a round leaves an entry: as it was, or collapsed. -/
def Collapses (grammar : Grammar κ) (vanishing : Fillers κ) (before after : Entry κ) : Prop :=
  after = before ∨
    before.affected vanishing ≠ [] ∧
    grammar.validateAll before.name (before.untouched vanishing)
      (before.remainders grammar.signatures vanishing) = .ok after.rules ∧
    after = before.collapsed grammar.signatures vanishing

theorem Collapses.of_ok {before after : Entry κ}
    (h : grammar.collapseEntry vanishing before = .ok (after, count)) :
    grammar.Collapses vanishing before after := by
  rcases (collapseEntry_ok.mp h).2 with ⟨-, same⟩ | affected
  · exact .inl same
  · exact .inr affected

theorem Collapses.name_eq {before after : Entry κ} (h : grammar.Collapses vanishing before after) :
    before.name = after.name := by
  rcases h with rfl | ⟨-, -, rfl⟩ <;> rfl

/-- Also a round that is refused leaves every entry as it was or collapsed. -/
theorem collapseEntries_collapses (entries : List (Entry κ)) :
    List.Forall₂ (grammar.Collapses vanishing) entries
      (grammar.collapseEntries vanishing entries).1 := by
  induction entries with
  | nil => exact .nil
  | cons entry rest ih =>
    rw [collapseEntries]
    cases h : grammar.collapseEntry vanishing entry with
    | error fault => exact List.forall₂_same.mpr fun _ _ => .inl rfl
    | ok result => exact .cons (.of_ok h) ih

theorem collapseEntries_ok {before after : List (Entry κ)} :
    grammar.collapseEntries vanishing before = (after, .ok count) ↔
      List.Forall₂ (fun entry left => ∃ n, grammar.collapseEntry vanishing entry = .ok (left, n))
        before after ∧
      count = (before.map fun entry => (entry.affected vanishing).length).sum := by
  induction before generalizing after count with
  | nil =>
    constructor
    · intro h
      obtain ⟨rfl, none⟩ := Prod.mk.inj h
      exact ⟨.nil, (Except.ok.inj none).symm⟩
    · rintro ⟨⟨⟩, rfl⟩
      rfl
  | cons entry rest ih =>
    rw [collapseEntries]
    cases h : grammar.collapseEntry vanishing entry with
    | error fault =>
      refine ⟨nofun, fun ⟨entries, _⟩ => ?_⟩
      obtain ⟨_, _, ⟨n, done⟩, -, -⟩ := List.forall₂_cons_left_iff.mp entries
      exact nomatch h.symm.trans done
    | ok result =>
      obtain ⟨collapsed, n⟩ := result
      obtain rfl := (collapseEntry_ok.mp h).1
      constructor
      · intro all
        obtain ⟨rfl, result⟩ := Prod.mk.inj all
        cases others : (grammar.collapseEntries vanishing rest).2 with
        | error fault => exact nomatch others ▸ result
        | ok more =>
          rw [others] at result
          obtain ⟨entries, rfl⟩ := ih.mp (Prod.ext rfl others)
          exact ⟨.cons ⟨_, h⟩ entries, (Except.ok.inj result).symm⟩
      · rintro ⟨all, rfl⟩
        obtain ⟨left, others, ⟨n, done⟩, entries, rfl⟩ := List.forall₂_cons_left_iff.mp all
        obtain ⟨rfl, -⟩ := Prod.mk.inj (Except.ok.inj (h.symm.trans done))
        have tail := ih.mpr ⟨entries, rfl⟩
        simp only [tail]
        rfl

/-- No rule has a child that vanishes. -/
def IsCollapsed (grammar : Grammar κ) : Prop :=
  ∀ entry ∈ grammar.entries, entry.affected grammar.vanishing = []

theorem collapseRound_collapses (grammar : Grammar κ) :
    List.Forall₂ (grammar.Collapses grammar.vanishing) grammar.entries
      grammar.collapseRound.1.entries :=
  collapseEntries_collapses grammar.entries

theorem collapseRound_entryOf? (grammar : Grammar κ) (symbol : Symbol) :
    Option.Rel (grammar.Collapses grammar.vanishing) (grammar.entryOf? symbol)
      (grammar.collapseRound.1.entryOf? symbol) :=
  rel_getElem? (collapseRound_collapses grammar) symbol.index

theorem collapseRound_entryOf?_of_idle {symbol : Symbol} {entry : Entry κ}
    (found : grammar.entryOf? symbol = some entry) (idle : entry.affected grammar.vanishing = []) :
    grammar.collapseRound.1.entryOf? symbol = grammar.entryOf? symbol := by
  have collapses := collapseRound_entryOf? grammar symbol
  rw [found] at collapses ⊢
  generalize grammar.collapseRound.1.entryOf? symbol = after at collapses
  cases collapses with
  | some collapses =>
    rcases collapses with same | ⟨affected, -⟩
    · exact congrArg some same
    · exact absurd idle affected

theorem collapseRound_cases (grammar : Grammar κ) (symbol : Symbol) :
    grammar.collapseRound.1.entryOf? symbol = grammar.entryOf? symbol ∨
      ∃ before, grammar.entryOf? symbol = some before ∧
        grammar.collapseRound.1.entryOf? symbol =
          some (before.collapsed grammar.signatures grammar.vanishing) := by
  have collapses := collapseRound_entryOf? grammar symbol
  generalize grammar.entryOf? symbol = before, grammar.collapseRound.1.entryOf? symbol = after
    at collapses
  cases collapses with
  | none => exact .inl rfl
  | some collapses =>
    rcases collapses with rfl | ⟨-, -, rfl⟩
    · exact .inl rfl
    · exact .inr ⟨_, rfl, rfl⟩

theorem size_collapseRound (grammar : Grammar κ) : grammar.collapseRound.1.size = grammar.size :=
  (collapseRound_collapses grammar).length_eq.symm

theorem nameOf_collapseRound (grammar : Grammar κ) (symbol : Symbol) :
    grammar.collapseRound.1.nameOf symbol = grammar.nameOf symbol := by
  rcases collapseRound_cases grammar symbol with same | ⟨before, found, collapsed⟩
  · rw [nameOf, same, ← nameOf]
  · rw [nameOf, nameOf, collapsed, found]
    rfl

theorem collapseRound_ok :
    grammar.collapseRound = (left, .ok count) ↔
      List.Forall₂
        (fun before after => ∃ n, grammar.collapseEntry grammar.vanishing before = .ok (after, n))
        grammar.entries left.entries ∧
      left = { grammar with entries := left.entries } ∧
      count = (grammar.entries.map fun entry =>
        (entry.affected grammar.vanishing).length).sum := by
  have round : grammar.collapseRound = (left, .ok count) ↔
      left = { grammar with entries := left.entries } ∧
      grammar.collapseEntries grammar.vanishing grammar.entries = (left.entries, .ok count) := by
    unfold collapseRound
    constructor
    · intro h
      obtain ⟨rfl, result⟩ := Prod.mk.inj h
      exact ⟨rfl, Prod.ext rfl result⟩
    · rintro ⟨same, h⟩
      rw [h, same]
  rw [round, collapseEntries_ok]
  exact ⟨fun ⟨same, entries, sum⟩ => ⟨entries, same, sum⟩,
    fun ⟨entries, same, sum⟩ => ⟨same, entries, sum⟩⟩

omit [Cost κ] in
theorem slotCount_eq_sum (grammar : Grammar κ) :
    grammar.slotCount = (grammar.entries.map Entry.slotCount).sum := by
  rw [slotCount, List.flatMap_assoc, List.length_flatMap]
  exact congrArg List.sum (List.map_congr_left fun entry _ => entry.slotCount_eq_length)

theorem collapseRound_slotCount_le (h : grammar.collapseRound = (left, .ok count)) :
    left.slotCount + count ≤ grammar.slotCount := by
  obtain ⟨entries, -, rfl⟩ := collapseRound_ok.mp h
  rw [slotCount_eq_sum, slotCount_eq_sum]
  generalize grammar.entries = before, left.entries = after at entries
  induction entries with
  | nil => exact Nat.le_refl 0
  | @cons entry _ _ _ head _ ih =>
    obtain ⟨n, done⟩ := head
    simp only [List.map_cons, List.sum_cons]
    rcases (collapseEntry_ok.mp done).2 with ⟨idle, rfl⟩ | ⟨-, -, rfl⟩
    · rw [idle, List.length_nil]
      omega
    · have fewer := entry.slotCount_collapsed_le grammar.signatures grammar.vanishing
      omega

theorem collapseRound_of_isCollapsed (h : grammar.IsCollapsed) :
    grammar.collapseRound = (grammar, .ok 0) := by
  refine collapseRound_ok.mpr ⟨List.forall₂_same.mpr fun entry mem => ?_, rfl, ?_⟩
  · exact ⟨_, collapseEntry_ok.mpr ⟨rfl, .inl ⟨h entry mem, rfl⟩⟩⟩
  · refine (List.sum_eq_zero_iff_forall_eq_nat.mpr fun n counted => ?_).symm
    obtain ⟨entry, mem, rfl⟩ := List.mem_map.mp counted
    rw [h entry mem, List.length_nil]

theorem collapseRound_zero (h : grammar.collapseRound = (left, .ok 0)) :
    left = grammar ∧ grammar.IsCollapsed := by
  obtain ⟨entries, same, sum⟩ := collapseRound_ok.mp h
  have idle : grammar.IsCollapsed := by
    intro entry mem
    have zero := List.sum_eq_zero_iff_forall_eq_nat.mp sum.symm _ (List.mem_map_of_mem mem)
    exact List.length_eq_zero_iff.mp zero
  rw [collapseRound_of_isCollapsed idle] at h
  exact ⟨(Prod.mk.inj h).1.symm, idle⟩

theorem collapseRound_slotCount_lt (busy : ¬ grammar.IsCollapsed)
    (h : grammar.collapseRound = (left, .ok count)) : left.slotCount < grammar.slotCount := by
  have fewer := collapseRound_slotCount_le h
  have some : count ≠ 0 := by
    rintro rfl
    exact busy (collapseRound_zero h).2
  omega

theorem collapseRounds_of_isCollapsed (rounds : Nat) (h : grammar.IsCollapsed) :
    collapseRounds (rounds + 1) grammar = (grammar, .ok 0) := by
  rw [collapseRounds, collapseRound_of_isCollapsed h]

theorem collapseRounds_of_error (rounds : Nat) {fault : Fault κ}
    (h : grammar.collapseRound = (left, .error fault)) :
    collapseRounds (rounds + 1) grammar = (left, .error fault) := by
  rw [collapseRounds, h]

theorem collapseRounds_of_ok (rounds : Nat) (busy : ¬ grammar.IsCollapsed)
    (h : grammar.collapseRound = (left, .ok count)) :
    collapseRounds (rounds + 1) grammar =
      ((collapseRounds rounds left).1, (collapseRounds rounds left).2.map (count + ·)) := by
  rw [collapseRounds, h]
  cases count with
  | zero => exact absurd (collapseRound_zero h).2 busy
  | succ count => rfl

/-- There are as many rounds as are needed, for each but the last one leaves fewer children. -/
theorem collapseRounds_isCollapsed {rounds : Nat} (enough : grammar.slotCount < rounds)
    (h : collapseRounds rounds grammar = (left, .ok count)) : left.IsCollapsed := by
  induction rounds generalizing grammar count with
  | zero => exact absurd enough (Nat.not_lt_zero _)
  | succ rounds ih =>
    by_cases idle : grammar.IsCollapsed
    · rw [collapseRounds_of_isCollapsed rounds idle] at h
      obtain ⟨rfl, -⟩ := Prod.mk.inj h
      exact idle
    · match round : grammar.collapseRound with
      | (next, .error fault) =>
        rw [collapseRounds_of_error rounds round] at h
        exact nomatch (Prod.mk.inj h).2
      | (next, .ok n) =>
        rw [collapseRounds_of_ok rounds idle round] at h
        obtain ⟨rfl, result⟩ := Prod.mk.inj h
        have fewer := collapseRound_slotCount_lt idle round
        cases rest : (collapseRounds rounds next).2 with
        | error fault => exact nomatch rest ▸ result
        | ok more => exact ih (by omega) (Prod.ext rfl rest)

theorem collapse_isCollapsed (h : grammar.collapse = (left, .ok count)) : left.IsCollapsed :=
  collapseRounds_isCollapsed (Nat.lt_succ_self _) h

theorem collapse_of_isCollapsed (h : grammar.IsCollapsed) :
    grammar.collapse = (grammar, .ok 0) :=
  collapseRounds_of_isCollapsed _ h

/-- What every round keeps, refused or not, collapsing keeps. -/
theorem collapse_induction {Q : Grammar κ → Prop}
    (round : ∀ {grammar : Grammar κ}, Q grammar → Q grammar.collapseRound.1) (h : Q grammar) :
    Q grammar.collapse.1 := by
  have rounds : ∀ (rounds : Nat) {grammar : Grammar κ}, Q grammar →
      Q (collapseRounds rounds grammar).1 := by
    intro rounds
    induction rounds with
    | zero => exact fun h => h
    | succ rounds ih =>
      intro grammar h
      have next := round h
      by_cases idle : grammar.IsCollapsed
      · rw [collapseRounds_of_isCollapsed rounds idle]
        exact h
      · match done : grammar.collapseRound with
        | (left, .error fault) =>
          rw [collapseRounds_of_error rounds done]
          exact done ▸ next
        | (left, .ok count) =>
          rw [done] at next
          rw [collapseRounds_of_ok rounds idle done]
          exact ih next
  exact rounds _ h

theorem collapse_names (grammar : Grammar κ) :
    grammar.collapse.1.size = grammar.size ∧
      ∀ symbol, grammar.collapse.1.nameOf symbol = grammar.nameOf symbol :=
  collapse_induction
    (Q := fun left => left.size = grammar.size ∧
      ∀ symbol, left.nameOf symbol = grammar.nameOf symbol)
    (fun h => ⟨(size_collapseRound _).trans h.1,
      fun symbol => (nameOf_collapseRound _ symbol).trans (h.2 symbol)⟩)
    ⟨rfl, fun _ => rfl⟩

end Grammar

end PhraseGrammar
