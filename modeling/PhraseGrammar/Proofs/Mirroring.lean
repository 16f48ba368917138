import Mathlib.Data.List.Perm.Basic
import PhraseGrammar.Proofs.Orders
import PhraseGrammar.Proofs.Renaming

/-! Grammars with the same rules under other symbols, in whatever order. Collapsing is refused in
both of them or in neither, and leaves them alike. -/

namespace PhraseGrammar

open Std

variable {κ : Type}

section Sides

variable {size : Nat} {π : Symbol → Symbol} (ren : IsRenaming size π)

include ren

theorem IsRenaming.map_inj {xs ys : List Symbol} (hx : ∀ x ∈ xs, x.index < size)
    (hy : ∀ y ∈ ys, y.index < size) (same : xs.map π = ys.map π) : xs = ys := by
  induction xs generalizing ys with
  | nil => exact (List.map_eq_nil_iff.mp same.symm).symm
  | cons x xs ih =>
    cases ys with
    | nil => exact nomatch same
    | cons y ys =>
      obtain ⟨x_lt, xs_lt⟩ := List.forall_mem_cons.mp hx
      obtain ⟨y_lt, ys_lt⟩ := List.forall_mem_cons.mp hy
      obtain ⟨head, tail⟩ := List.cons_eq_cons.mp same
      rw [ren.injective x y x_lt y_lt head, ih xs_lt ys_lt tail]

theorem IsRenaming.side_inj {a b : Rule κ} (ha : a.IsBelow size) (hb : b.IsBelow size) :
    (a.rename π).side = (b.rename π).side ↔ a.side = b.side := by
  rw [PhraseRule.side_rename, PhraseRule.side_rename]
  refine ⟨fun same => ?_, congrArg _⟩
  cases a with
  | word a =>
    cases b with
    | word b => exact congrArg Side.word (Side.word.inj same)
    | phrase b => exact nomatch same
  | phrase a =>
    cases b with
    | word b => exact nomatch same
    | phrase b =>
      exact congrArg Side.phrase (ren.map_inj (PhraseRule.IsBelow.symbols ha)
        (PhraseRule.IsBelow.symbols hb) (Side.phrase.inj same))

end Sides

variable [Cost κ]

/-- Which of several fillers is kept does not depend on the order in which they are offered. -/
instance [TransOrd κ] [LawfulEqOrd κ] : RightCommutative (Filler.offer (κ := κ)) where
  right_comm current a b := by
    have ordered : TransCmp fun a b : Filler κ => a.compare b :=
      inferInstanceAs (TransOrd (Filler κ))
    have either : ∀ a b : Filler κ,
        (if a.compare b = .lt then some a else some b) =
          if b.compare a = .lt then some b else some a := by
      intro a b
      have swap : b.compare a = (a.compare b).swap := ordered.eq_swap
      rw [swap]
      cases less : a.compare b with
      | lt => rfl
      | eq => rw [Filler.compare_eq_eq.mp less, ite_self, ite_self]
      | gt => rfl
    have trans : ∀ {a b c : Filler κ}, a.compare b = .lt → b.compare c = .lt →
        a.compare c = .lt := fun ab bc => TransCmp.lt_trans ab bc
    cases current with
    | none =>
      have offers : ∀ a b : Filler κ, Filler.offer (Filler.offer none a) b =
          if b.compare a = .lt then some b else some a := by
        intro a b
        simp only [Filler.offer, Filler.beats, if_true, beq_iff_eq]
      rw [offers, offers, either]
    | some c =>
      have offers : ∀ a b : Filler κ, Filler.offer (Filler.offer (some c) a) b =
          if a.compare c = .lt then if b.compare a = .lt then some b else some a
          else if b.compare c = .lt then some b else some c := by
        intro a b
        simp only [Filler.offer, Filler.beats, beq_iff_eq]
        by_cases ac : a.compare c = .lt
        · simp only [if_pos ac, beq_iff_eq]
        · simp only [if_neg ac, beq_iff_eq]
      rw [offers, offers]
      by_cases ac : a.compare c = .lt
      · by_cases bc : b.compare c = .lt
        · rw [if_pos ac, if_pos bc, either]
        · rw [if_pos ac, if_neg bc, if_pos ac, if_neg fun ba => bc (trans ba ac)]
      · by_cases bc : b.compare c = .lt
        · rw [if_neg ac, if_pos bc, if_pos bc, if_neg fun ab => ac (trans ab bc)]
        · rw [if_neg ac, if_neg bc, if_neg bc, if_neg ac]

theorem PhraseRule.IsBelow.remainder {size : Nat} {rule : PhraseRule κ} (h : rule.IsBelow size)
    (vanishing : Fillers κ) : (rule.remainder vanishing).IsBelow size where
  slots slot mem := by
    have staying : slot ∈ (rule.staying vanishing).map (·.1) := mem
    rw [staying_slots] at staying
    exact h.slots slot (List.mem_of_mem_filter staying)
  elided child same := by
    have first : ((rule.vanishingChildren vanishing).find? (·.symbol ≠ .empty)).or rule.elided =
        some child := same
    rcases Option.or_eq_some_iff.mp first with found | ⟨-, old⟩
    · exact below_of_mem_vanishingChildren h (List.mem_of_find?_eq_some found)
    · exact h.elided child old

namespace Entry

variable {size : Nat} {π : Symbol → Symbol} {best best' : Fillers κ} {entry entry' : Entry κ}
  (agree : Fillers.Agree size π best best') (below : ∀ rule ∈ entry.rules, rule.IsBelow size)
  (rules : entry'.rules.Perm (entry.rules.map (Rule.rename π)))

omit [Cost κ] in
include below in
theorem below_of_mem_affected {rule : PhraseRule κ} (mem : rule ∈ entry.affected best) :
    rule.IsBelow size := below _ (mem_affected.mp mem).1

include below in
theorem below_of_mem_remainders {signatures : Signatures κ} {rule : Rule κ}
    (mem : rule ∈ entry.remainders signatures best) : rule.IsBelow size := by
  obtain ⟨old, affected, -, rfl⟩ := mem_remainders.mp mem
  exact PhraseRule.IsBelow.remainder (below_of_mem_affected below affected) best

include agree below rules

omit [Cost κ] in
theorem affected_perm :
    (entry'.affected best').Perm ((entry.affected best).map (PhraseRule.rename π)) := by
  have phrases : (entry.rules.map (Rule.rename π)).filterMap Rule.phrase? =
      entry.phraseRules.map (PhraseRule.rename π) := by
    rw [phraseRules, List.filterMap_map, List.map_filterMap]
    refine List.filterMap_congr fun rule _ => ?_
    cases rule <;> rfl
  have same : (entry.phraseRules.map (PhraseRule.rename π)).filter (·.hasVanishing best') =
      (entry.affected best).map (PhraseRule.rename π) := by
    rw [List.filter_map, affected]
    refine congrArg _ (List.filter_congr fun rule mem => ?_)
    exact PhraseRule.hasVanishing_rename agree (below _ (mem_phraseRules.mp mem))
  exact same ▸ (phrases ▸ rules.filterMap Rule.phrase?).filter _

omit [Cost κ] in
theorem untouched_perm :
    (entry'.untouched best').Perm ((entry.untouched best).map (Rule.rename π)) := by
  have same : (entry.rules.map (Rule.rename π)).filter (fun rule => !rule.hasVanishing best') =
      (entry.untouched best).map (Rule.rename π) := by
    rw [List.filter_map, untouched]
    refine congrArg _ (List.filter_congr fun rule mem => ?_)
    cases rule with
    | word rule => rfl
    | phrase rule => exact congrArg not (PhraseRule.hasVanishing_rename agree (below _ mem))
  exact same ▸ rules.filter _

variable (signatures : Signatures κ) (ren : IsRenaming size π)

include ren

theorem remains_perm :
    ((entry'.affected best').map (·.remains signatures best')).Perm
      (((entry.affected best).map (·.remains signatures best)).map (Remains.rename π)) := by
  have same : ((entry.affected best).map (PhraseRule.rename π)).map (·.remains signatures best') =
      ((entry.affected best).map (·.remains signatures best)).map (Remains.rename π) := by
    rw [List.map_map, List.map_map]
    refine List.map_congr_left fun rule mem => ?_
    exact PhraseRule.remains_rename signatures ren agree (below_of_mem_affected below mem)
  exact same ▸ (affected_perm agree below rules).map _

theorem remainders_perm :
    (entry'.remainders signatures best').Perm
      ((entry.remainders signatures best).map (Rule.rename π)) := by
  have perm := (remains_perm agree below rules signatures ren).filterMap Remains.rule?
  refine perm.trans (.of_eq ?_)
  rw [remainders, List.filterMap_map, List.map_filterMap]
  refine List.filterMap_congr fun left _ => ?_
  cases left <;> rfl

theorem zeroFillers_perm :
    (entry'.zeroFillers signatures best').Perm (entry.zeroFillers signatures best) := by
  have perm := (remains_perm agree below rules signatures ren).filterMap Remains.filler?
  refine perm.trans (.of_eq ?_)
  rw [zeroFillers, List.filterMap_map]
  refine List.filterMap_congr fun left _ => ?_
  cases left <;> rfl

end Entry

namespace Grammar

variable {grammar grammar' left left' : Grammar κ} {vanishing vanishing' : Fillers κ}

structure Accepts (grammar : Grammar κ) (vanishing : Fillers κ) (entry : Entry κ) : Prop where
  checked : ∀ rule ∈ entry.remainders grammar.signatures vanishing,
    grammar.checkRule entry.name rule = .ok ()
  apart : Rule.Apart (entry.remainders grammar.signatures vanishing)
  fresh : ∀ a ∈ entry.untouched vanishing, ∀ b ∈ entry.remainders grammar.signatures vanishing,
    a.side ≠ b.side

theorem exists_collapseEntry_iff {entry : Entry κ} :
    (∃ result, grammar.collapseEntry vanishing entry = .ok result) ↔
      grammar.Accepts vanishing entry := by
  constructor
  · rintro ⟨⟨after, count⟩, done⟩
    rcases (collapseEntry_ok.mp done).2 with ⟨idle, -⟩ | ⟨-, valid, -⟩
    · have none : entry.remainders grammar.signatures vanishing = [] := by
        rw [Entry.remainders, idle, List.map_nil, List.filterMap_nil]
      refine ⟨?_, ?_, ?_⟩
      · exact none ▸ fun _ mem => absurd mem List.not_mem_nil
      · exact none ▸ .nil
      · exact none ▸ fun _ _ _ mem => absurd mem List.not_mem_nil
    · obtain ⟨-, checked, apart, fresh⟩ := validateAll_ok.mp valid
      exact ⟨checked, apart, fresh⟩
  · intro accepted
    by_cases idle : entry.affected vanishing = []
    · exact ⟨(entry, _), collapseEntry_ok.mpr ⟨rfl, .inl ⟨idle, rfl⟩⟩⟩
    · refine ⟨(entry.collapsed grammar.signatures vanishing, _),
        collapseEntry_ok.mpr ⟨rfl, .inr ⟨idle, validateAll_ok.mpr ?_, rfl⟩⟩⟩
      exact ⟨rfl, accepted.checked, accepted.apart, accepted.fresh⟩

theorem collapseEntry_rules {before after : Entry κ} {count : Nat}
    (h : grammar.collapseEntry vanishing before = .ok (after, count)) :
    after.rules = before.untouched vanishing ++ before.remainders grammar.signatures vanishing ∧
      after.zeroFiller =
        (before.zeroFillers grammar.signatures vanishing).foldl Filler.offer before.zeroFiller := by
  rcases (collapseEntry_ok.mp h).2 with ⟨idle, rfl⟩ | ⟨-, -, rfl⟩
  · have untouched : after.untouched vanishing = after.rules := by
      refine List.filter_eq_self.mpr fun rule mem => ?_
      cases rule with
      | word rule => rfl
      | phrase rule =>
        cases loses : rule.hasVanishing vanishing with
        | false => simp only [Rule.hasVanishing, loses, Bool.not_false]
        | true => exact absurd (idle ▸ Entry.mem_affected.mpr ⟨mem, loses⟩) List.not_mem_nil
    rw [untouched, Entry.remainders, Entry.zeroFillers, idle]
    exact ⟨(List.append_nil _).symm, rfl⟩
  · exact ⟨rfl, rfl⟩

theorem exists_collapseEntries_iff (entries : List (Entry κ)) :
    (∃ count, (grammar.collapseEntries vanishing entries).2 = .ok count) ↔
      ∀ entry ∈ entries, grammar.Accepts vanishing entry := by
  induction entries with
  | nil => exact ⟨fun _ _ mem => absurd mem List.not_mem_nil, fun _ => ⟨0, rfl⟩⟩
  | cons entry rest ih =>
    rw [collapseEntries, List.forall_mem_cons, ← exists_collapseEntry_iff, ← ih]
    cases h : grammar.collapseEntry vanishing entry with
    | error fault =>
      constructor
      · rintro ⟨_, done⟩
        cases done
      · rintro ⟨⟨_, done⟩, -⟩
        cases done
    | ok result =>
      rw [and_iff_right ⟨result, rfl⟩]
      change (∃ count, (grammar.collapseEntries vanishing rest).2.map (result.2 + ·) =
        .ok count) ↔ _
      cases (grammar.collapseEntries vanishing rest).2 with
      | error fault =>
        constructor
        · rintro ⟨_, done⟩
          cases done
        · rintro ⟨_, done⟩
          cases done
      | ok count => exact ⟨fun _ => ⟨count, rfl⟩, fun _ => ⟨_, rfl⟩⟩

theorem exists_collapseRound_iff :
    (∃ count, grammar.collapseRound.2 = .ok count) ↔
      ∀ entry ∈ grammar.entries, grammar.Accepts grammar.vanishing entry :=
  exists_collapseEntries_iff grammar.entries

section Round

variable {count : Nat} (h : grammar.collapseRound = (left, .ok count))

include h

theorem collapseRound_entry {symbol : Symbol} {entry : Entry κ}
    (found : grammar.entryOf? symbol = some entry) :
    ∃ after n, left.entryOf? symbol = some after ∧
      grammar.collapseEntry grammar.vanishing entry = .ok (after, n) := by
  have collapses := rel_getElem? (collapseRound_ok.mp h).1 symbol.index
  rw [← entryOf?, ← entryOf?, found] at collapses
  generalize left.entryOf? symbol = last at collapses
  cases collapses with
  | some done =>
    obtain ⟨n, done⟩ := done
    exact ⟨_, n, rfl, done⟩

end Round

/-- Two grammars have the same rules and the same records of the empty text under other symbols,
in whatever order. -/
structure Mirrors (π : Symbol → Symbol) (grammar grammar' : Grammar κ) : Prop where
  ren : IsRenaming grammar.size π
  size : grammar'.size = grammar.size
  names : ∀ symbol, symbol.index < grammar.size →
    grammar'.nameOf (π symbol) = grammar.nameOf symbol
  signatures : grammar'.signatures = grammar.signatures
  below : grammar.AllRules (Rule.IsBelow grammar.size)
  rules : ∀ symbol, symbol.index < grammar.size →
    (grammar'.rulesOf (π symbol)).Perm ((grammar.rulesOf symbol).map (Rule.rename π))
  zeroFillers : ∀ symbol, symbol.index < grammar.size →
    grammar'.zeroFiller? (π symbol) = grammar.zeroFiller? symbol

namespace Mirrors

variable {π : Symbol → Symbol} (h : grammar.Mirrors π grammar')

include h

theorem vanishing_agree : Fillers.Agree grammar.size π grammar.vanishing grammar'.vanishing := by
  intro symbol known
  have moved := h.ren.maps symbol known
  have empty : π symbol = .empty ↔ symbol = .empty := by
    constructor
    · intro same
      exact h.ren.injective _ _ known h.ren.empty.1 (same.trans h.ren.empty.2.symm)
    · intro same
      rw [same, h.ren.empty.2]
  have rules : (grammar'.rulesOf (π symbol)).isEmpty = (grammar.rulesOf symbol).isEmpty := by
    rw [(h.rules symbol known).isEmpty_eq, List.isEmpty_map]
  have only : grammar'.matchesOnlyEmpty (π symbol) = grammar.matchesOnlyEmpty symbol := by
    rw [matchesOnlyEmpty, matchesOnlyEmpty, rules, h.zeroFillers symbol known,
      decide_eq_decide.mpr empty]
  rw [vanishing_of?, vanishing_of?, if_pos known, if_pos (h.size ▸ moved), only,
    h.zeroFillers symbol known]
  by_cases here : symbol = .empty
  · rw [if_pos here, if_pos (empty.mpr here)]
  · rw [if_neg here, if_neg (mt empty.mp here)]

omit [Cost κ] in
theorem entries {symbol : Symbol} (known : symbol.index < grammar.size) :
    ∃ entry entry', grammar.entryOf? symbol = some entry ∧
      grammar'.entryOf? (π symbol) = some entry' ∧
      (∀ rule ∈ entry.rules, rule.IsBelow grammar.size) ∧
      entry'.rules.Perm (entry.rules.map (Rule.rename π)) ∧
      entry'.zeroFiller = entry.zeroFiller := by
  obtain ⟨entry, found⟩ := Option.isSome_iff_exists.mp (entryOf?_isSome.mpr known)
  obtain ⟨entry', found'⟩ := Option.isSome_iff_exists.mp
    (entryOf?_isSome.mpr (h.size ▸ h.ren.maps symbol known))
  have rules := h.rules symbol known
  have filler := h.zeroFillers symbol known
  rw [rulesOf_eq found, rulesOf_eq found'] at rules
  rw [zeroFiller?, zeroFiller?, found, found', Option.bind_some, Option.bind_some] at filler
  exact ⟨entry, entry', found, found', rulesOf_eq found ▸ h.below symbol, rules, filler⟩

omit [Cost κ] in
theorem forall_entries_iff {P P' : Entry κ → Prop}
    (same : ∀ entry entry' : Entry κ, (∀ rule ∈ entry.rules, rule.IsBelow grammar.size) →
      entry'.rules.Perm (entry.rules.map (Rule.rename π)) → (P' entry' ↔ P entry)) :
    (∀ entry ∈ grammar'.entries, P' entry) ↔ ∀ entry ∈ grammar.entries, P entry := by
  constructor
  · intro all entry mem
    obtain ⟨index, found⟩ := List.mem_iff_getElem?.mp mem
    have known : (Symbol.mk index).index < grammar.size := (List.getElem?_eq_some_iff.mp found).1
    obtain ⟨entry₁, entry', found₁, found', below, rules, -⟩ := h.entries known
    obtain rfl := Option.some.inj (found.symm.trans found₁)
    exact (same entry entry' below rules).mp (all entry' (List.mem_of_getElem? found'))
  · intro all entry' mem
    obtain ⟨index, found⟩ := List.mem_iff_getElem?.mp mem
    have known : index < grammar'.size := (List.getElem?_eq_some_iff.mp found).1
    obtain ⟨symbol, old, moved⟩ := h.ren.onto ⟨index⟩ (h.size ▸ known)
    obtain ⟨entry, entry₁, found₁, found', below, rules, -⟩ := h.entries old
    rw [moved] at found'
    obtain rfl := Option.some.inj (found.symm.trans found')
    exact (same entry entry' below rules).mpr (all entry (List.mem_of_getElem? found₁))

theorem isCollapsed_iff : grammar'.IsCollapsed ↔ grammar.IsCollapsed := by
  refine h.forall_entries_iff fun entry entry' below rules => ?_
  have perm := Entry.affected_perm h.vanishing_agree below rules
  rw [← List.length_eq_zero_iff, perm.length_eq, List.length_map, List.length_eq_zero_iff]

theorem accepts_iff {entry entry' : Entry κ}
    (below : ∀ rule ∈ entry.rules, rule.IsBelow grammar.size)
    (rules : entry'.rules.Perm (entry.rules.map (Rule.rename π))) :
    grammar'.Accepts grammar'.vanishing entry' ↔ grammar.Accepts grammar.vanishing entry := by
  have untouched := Entry.untouched_perm h.vanishing_agree below rules
  have remainders := Entry.remainders_perm h.vanishing_agree below rules grammar.signatures h.ren
  have kept : ∀ rule ∈ entry.untouched grammar.vanishing, rule.IsBelow grammar.size :=
    fun rule mem => below rule (Entry.mem_untouched.mp mem).1
  have left : ∀ rule ∈ entry.remainders grammar.signatures grammar.vanishing,
      rule.IsBelow grammar.size := fun rule => Entry.below_of_mem_remainders below
  have checked : (∀ rule ∈ entry'.remainders grammar'.signatures grammar'.vanishing,
      grammar'.checkRule entry'.name rule = .ok ()) ↔
      ∀ rule ∈ entry.remainders grammar.signatures grammar.vanishing,
        grammar.checkRule entry.name rule = .ok () := by
    simp only [h.signatures, remainders.mem_iff, List.forall_mem_map]
    exact forall₂_congr fun rule mem => Rule.check_rename h.ren h.size (left rule mem)
  have apart : Rule.Apart (entry'.remainders grammar'.signatures grammar'.vanishing) ↔
      Rule.Apart (entry.remainders grammar.signatures grammar.vanishing) := by
    rw [h.signatures, Rule.Apart, remainders.pairwise_iff fun same => Ne.symm same,
      List.pairwise_map]
    exact List.Pairwise.iff_of_mem fun ha hb =>
      (h.ren.side_inj (left _ ha) (left _ hb)).not
  have fresh : (∀ a ∈ entry'.untouched grammar'.vanishing,
      ∀ b ∈ entry'.remainders grammar'.signatures grammar'.vanishing, a.side ≠ b.side) ↔
      ∀ a ∈ entry.untouched grammar.vanishing,
        ∀ b ∈ entry.remainders grammar.signatures grammar.vanishing, a.side ≠ b.side := by
    simp only [h.signatures, untouched.mem_iff, remainders.mem_iff, List.forall_mem_map]
    exact forall₂_congr fun a ha => forall₂_congr fun b hb =>
      (h.ren.side_inj (kept a ha) (left b hb)).not
  constructor
  · intro accepted
    exact ⟨checked.mp accepted.checked, apart.mp accepted.apart, fresh.mp accepted.fresh⟩
  · intro accepted
    exact ⟨checked.mpr accepted.checked, apart.mpr accepted.apart, fresh.mpr accepted.fresh⟩

theorem exists_collapseRound_iff :
    (∃ count, grammar'.collapseRound.2 = .ok count) ↔
      ∃ count, grammar.collapseRound.2 = .ok count := by
  rw [Grammar.exists_collapseRound_iff, Grammar.exists_collapseRound_iff]
  exact h.forall_entries_iff fun _ _ => h.accepts_iff

theorem collapseRound [TransOrd κ] [LawfulEqOrd κ] {count count' : Nat}
    (done : grammar.collapseRound = (left, .ok count))
    (done' : grammar'.collapseRound = (left', .ok count')) : left.Mirrors π left' := by
  have size : left.size = grammar.size := by
    have size := size_collapseRound grammar
    rwa [done] at size
  have size' : left'.size = grammar'.size := by
    have size := size_collapseRound grammar'
    rwa [done'] at size
  have nameOf : ∀ symbol, left.nameOf symbol = grammar.nameOf symbol := by
    have names := nameOf_collapseRound grammar
    rwa [done] at names
  have nameOf' : ∀ symbol, left'.nameOf symbol = grammar'.nameOf symbol := by
    have names := nameOf_collapseRound grammar'
    rwa [done'] at names
  have below : left.AllRules (Rule.IsBelow grammar.size) := by
    have kept := h.below.collapseRound fun vanishing below =>
      PhraseRule.IsBelow.remainder below vanishing
    rw [done] at kept
    exact kept
  refine ⟨size ▸ h.ren, size'.trans (h.size.trans size.symm), fun symbol known => ?_,
    ?_, size ▸ below, fun symbol known => ?_, fun symbol known => ?_⟩
  · rw [nameOf, nameOf', h.names symbol (size ▸ known)]
  · rw [(collapseRound_ok.mp done).2.1, (collapseRound_ok.mp done').2.1, h.signatures]
  · obtain ⟨entry, entry', found, found', below, rules, -⟩ := h.entries (size ▸ known)
    obtain ⟨after, n, last, collapsed⟩ := collapseRound_entry done found
    obtain ⟨after', n', last', collapsed'⟩ := collapseRound_entry done' found'
    rw [rulesOf_eq last, rulesOf_eq last', (collapseEntry_rules collapsed).1,
      (collapseEntry_rules collapsed').1, List.map_append, h.signatures]
    exact (Entry.untouched_perm h.vanishing_agree below rules).append
      (Entry.remainders_perm h.vanishing_agree below rules grammar.signatures h.ren)
  · obtain ⟨entry, entry', found, found', below, rules, filler⟩ := h.entries (size ▸ known)
    obtain ⟨after, n, last, collapsed⟩ := collapseRound_entry done found
    obtain ⟨after', n', last', collapsed'⟩ := collapseRound_entry done' found'
    have zeroFillers :=
      Entry.zeroFillers_perm h.vanishing_agree below rules grammar.signatures h.ren
    rw [zeroFiller?, zeroFiller?, last, last', Option.bind_some, Option.bind_some,
      (collapseEntry_rules collapsed).2, (collapseEntry_rules collapsed').2, h.signatures, filler]
    exact zeroFillers.foldl_eq _

theorem collapseRound_cases [TransOrd κ] [LawfulEqOrd κ] :
    (∃ left fault left' fault', grammar.collapseRound = (left, .error fault) ∧
        grammar'.collapseRound = (left', .error fault')) ∨
      ∃ left count left' count', grammar.collapseRound = (left, .ok count) ∧
        grammar'.collapseRound = (left', .ok count') ∧ left.Mirrors π left' := by
  have both := h.exists_collapseRound_iff
  match round : grammar.collapseRound, round' : grammar'.collapseRound with
  | (left, .error fault), (left', .error fault') =>
    exact .inl ⟨left, fault, left', fault', rfl, rfl⟩
  | (left, .error fault), (left', .ok count') =>
    rw [round, round'] at both
    obtain ⟨count, same⟩ := both.mp ⟨count', rfl⟩
    exact nomatch same
  | (left, .ok count), (left', .error fault') =>
    rw [round, round'] at both
    obtain ⟨count', same⟩ := both.mpr ⟨count, rfl⟩
    exact nomatch same
  | (left, .ok count), (left', .ok count') =>
    exact .inr ⟨left, count, left', count', rfl, rfl, h.collapseRound round round'⟩

omit h

/-- Collapsing is refused in both grammars, or in neither and leaves them mirrored. -/
theorem collapseRounds [TransOrd κ] [LawfulEqOrd κ] {rounds rounds' : Nat}
    (h : grammar.Mirrors π grammar') (enough : grammar.slotCount < rounds)
    (enough' : grammar'.slotCount < rounds') :
    (∃ fault fault', (collapseRounds rounds grammar).2 = .error fault ∧
        (collapseRounds rounds' grammar').2 = .error fault') ∨
      ∃ left left' count count', collapseRounds rounds grammar = (left, .ok count) ∧
        collapseRounds rounds' grammar' = (left', .ok count') ∧ left.Mirrors π left' := by
  induction rounds generalizing rounds' grammar grammar' with
  | zero => exact absurd enough (Nat.not_lt_zero _)
  | succ rounds ih =>
    cases rounds' with
    | zero => exact absurd enough' (Nat.not_lt_zero _)
    | succ rounds' =>
      by_cases idle : grammar.IsCollapsed
      · refine .inr ⟨grammar, grammar', 0, 0, ?_, ?_, h⟩
        · exact collapseRounds_of_isCollapsed rounds idle
        · exact collapseRounds_of_isCollapsed rounds' (h.isCollapsed_iff.mpr idle)
      have busy' : ¬ grammar'.IsCollapsed := mt h.isCollapsed_iff.mp idle
      rcases h.collapseRound_cases with ⟨next, fault, next', fault', round, round'⟩ |
        ⟨next, count, next', count', round, round', alike⟩
      · rw [collapseRounds_of_error rounds round, collapseRounds_of_error rounds' round']
        exact .inl ⟨fault, fault', rfl, rfl⟩
      · rw [collapseRounds_of_ok rounds idle round, collapseRounds_of_ok rounds' busy' round']
        have fewer := collapseRound_slotCount_lt idle round
        have fewer' := collapseRound_slotCount_lt busy' round'
        have enough : next.slotCount < rounds := by omega
        have enough' : next'.slotCount < rounds' := by omega
        rcases ih alike enough enough' with
          ⟨fault, fault', failed, failed'⟩ | ⟨left, left', n, n', done, done', alike⟩
        · rw [failed, failed']
          exact .inl ⟨fault, fault', rfl, rfl⟩
        · rw [done, done']
          exact .inr ⟨left, left', _, _, rfl, rfl, alike⟩

end Mirrors

end Grammar

end PhraseGrammar
