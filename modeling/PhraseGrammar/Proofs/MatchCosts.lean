import Mathlib.Algebra.Group.Submonoid.Pointwise
import Mathlib.Algebra.Order.Ring.NNRat
import PhraseGrammar.Cost.Exact
import PhraseGrammar.Proofs.Matching

/-! What it costs to match tokens, where costs are exact. Collapsing never makes a match cheaper.
It makes none dearer either, unless it charges for an optional child that could be left out. -/

namespace PhraseGrammar

variable {κ : Type}

section Matching

variable [Zero κ] [Add κ]

/-- The tokens are parted among the slots of a rule, and the children are paid for; an optional
child that is left out costs nothing. -/
inductive SlotsMatchAt (S : Symbol → List String → κ → Prop) : List Slot → List String → κ → Prop
  | nil : SlotsMatchAt S [] [] 0
  | skip {slot : Slot} {rest : List Slot} {tokens : List String} {cost : κ} :
      slot.optional = true → SlotsMatchAt S rest tokens cost →
      SlotsMatchAt S (slot :: rest) tokens cost
  | child {slot : Slot} {rest : List Slot} {first more : List String} {price cost : κ} :
      S slot.symbol first price → SlotsMatchAt S rest more cost →
      SlotsMatchAt S (slot :: rest) (first ++ more) (price + cost)

inductive Grammar.MatchesAt (grammar : Grammar κ) : Symbol → List String → κ → Prop
  | empty : grammar.MatchesAt .empty [] 0
  | zeroFiller {symbol : Symbol} {filler : Filler κ} : grammar.zeroFiller? symbol = some filler →
      grammar.MatchesAt symbol [] filler.cost
  | word {symbol : Symbol} {rule : WordRule κ} : .word rule ∈ grammar.rulesOf symbol →
      grammar.MatchesAt symbol [rule.literal] rule.penalty
  | phrase {symbol : Symbol} {rule : PhraseRule κ} {tokens : List String} {cost : κ} :
      .phrase rule ∈ grammar.rulesOf symbol →
      SlotsMatchAt grammar.MatchesAt rule.slots tokens cost →
      grammar.MatchesAt symbol tokens (rule.cost + cost)

structure Grammar.AdmitsAt (grammar : Grammar κ) (S : Symbol → List String → κ → Prop) :
    Prop where
  empty : S .empty [] 0
  zeroFiller : ∀ {symbol filler}, grammar.zeroFiller? symbol = some filler →
    S symbol [] filler.cost
  word : ∀ {symbol rule}, .word rule ∈ grammar.rulesOf symbol →
    S symbol [rule.literal] rule.penalty
  phrase : ∀ {symbol rule tokens cost}, .phrase rule ∈ grammar.rulesOf symbol →
    SlotsMatchAt S rule.slots tokens cost → S symbol tokens (rule.cost + cost)

mutual

theorem Grammar.MatchesAt.least {grammar : Grammar κ} {S : Symbol → List String → κ → Prop}
    (admits : grammar.AdmitsAt S) {symbol : Symbol} {tokens : List String} {cost : κ}
    (h : grammar.MatchesAt symbol tokens cost) : S symbol tokens cost :=
  match h with
  | .empty => admits.empty
  | .zeroFiller known => admits.zeroFiller known
  | .word mem => admits.word mem
  | .phrase mem slots => admits.phrase mem (slots.least admits)

theorem SlotsMatchAt.least {grammar : Grammar κ} {S : Symbol → List String → κ → Prop}
    (admits : grammar.AdmitsAt S) {slots : List Slot} {tokens : List String} {cost : κ}
    (h : SlotsMatchAt grammar.MatchesAt slots tokens cost) : SlotsMatchAt S slots tokens cost :=
  match h with
  | .nil => .nil
  | .skip optional rest => .skip optional (rest.least admits)
  | .child first rest => .child (first.least admits) (rest.least admits)

end

end Matching

namespace SlotsMatchAt

variable {S : Symbol → List String → ℚ≥0 → Prop} {slots : List Slot} {tokens : List String}
  {paid : ℚ≥0} {price : Slot → Option ℚ≥0}

theorem of_le
    (h : SlotsMatchAt (fun symbol tokens paid => ∃ cost ≤ paid, S symbol tokens cost)
      slots tokens paid) :
    ∃ cost ≤ paid, SlotsMatchAt S slots tokens cost := by
  induction h with
  | nil => exact ⟨0, le_rfl, .nil⟩
  | skip optional _ ih =>
    obtain ⟨cost, le, rest⟩ := ih
    exact ⟨cost, le, .skip optional rest⟩
  | child first _ ih =>
    obtain ⟨price, below, here⟩ := first
    obtain ⟨cost, le, rest⟩ := ih
    exact ⟨price + cost, add_le_add below le, .child here rest⟩

/-- Children that match only the empty text may be paid for beforehand, if those of them that are
optional are free. -/
theorem filter
    (only : ∀ slot ∈ slots, ∀ cost, price slot = some cost →
      (∀ tokens paid, S slot.symbol tokens paid → tokens = [] ∧ cost ≤ paid) ∧
        (slot.optional = true → cost = 0))
    (h : SlotsMatchAt S slots tokens paid) :
    ∃ rest, SlotsMatchAt S (slots.filter fun slot => (price slot).isNone) tokens rest ∧
      (slots.filterMap price).sum + rest ≤ paid := by
  induction h with
  | nil => exact ⟨0, .nil, (zero_add 0).le⟩
  | @skip slot _ _ paid optional _ ih =>
    obtain ⟨head, tail⟩ := List.forall_mem_cons.mp only
    obtain ⟨rest, matched, le⟩ := ih tail
    cases due : price slot with
    | none =>
      rw [List.filter_cons_of_pos (by rw [due]; rfl), List.filterMap_cons_none due]
      exact ⟨rest, .skip optional matched, le⟩
    | some cost =>
      rw [List.filter_cons_of_neg (by rw [due]; exact Bool.false_ne_true),
        List.filterMap_cons_some due, List.sum_cons, (head cost due).2 optional, zero_add]
      exact ⟨rest, matched, le⟩
  | @child slot _ first more fee paid here _ ih =>
    obtain ⟨head, tail⟩ := List.forall_mem_cons.mp only
    obtain ⟨rest, matched, le⟩ := ih tail
    cases due : price slot with
    | none =>
      rw [List.filter_cons_of_pos (by rw [due]; rfl), List.filterMap_cons_none due]
      refine ⟨fee + rest, .child here matched, ?_⟩
      rw [add_left_comm]
      exact add_le_add_right le fee
    | some cost =>
      obtain ⟨rfl, below⟩ := (head cost due).1 _ _ here
      rw [List.filter_cons_of_neg (by rw [due]; exact Bool.false_ne_true),
        List.filterMap_cons_some due, List.sum_cons]
      refine ⟨rest, matched, ?_⟩
      rw [add_assoc]
      exact add_le_add below le

theorem of_filter
    (nil : ∀ slot ∈ slots, ∀ cost, price slot = some cost → S slot.symbol [] cost)
    (h : SlotsMatchAt S (slots.filter fun slot => (price slot).isNone) tokens paid) :
    SlotsMatchAt S slots tokens ((slots.filterMap price).sum + paid) := by
  induction slots generalizing tokens paid with
  | nil =>
    rw [List.filterMap_nil, List.sum_nil, zero_add]
    exact h
  | cons slot slots ih =>
    obtain ⟨head, tail⟩ := List.forall_mem_cons.mp nil
    cases due : price slot with
    | none =>
      rw [List.filter_cons_of_pos (by rw [due]; rfl)] at h
      rw [List.filterMap_cons_none due]
      cases h with
      | skip optional rest => exact .skip optional (ih tail rest)
      | child first rest =>
        rw [add_left_comm]
        exact .child first (ih tail rest)
    | some cost =>
      rw [List.filter_cons_of_neg (by rw [due]; exact Bool.false_ne_true)] at h
      rw [List.filterMap_cons_some due, List.sum_cons, add_assoc]
      exact .child (head cost due) (ih tail h)

end SlotsMatchAt

namespace Filler

variable {a b : Filler ℚ≥0}

theorem cost_le_of_compare_ne_lt (h : a.compare b ≠ .lt) : b.cost ≤ a.cost := by
  refine not_lt.mp fun cheaper => h ?_
  have costs : Ord.compare a.cost b.cost = .lt := compare_lt_iff_lt.mpr cheaper
  rw [Filler.compare, compareLex, compareOn, costs]
  rfl

theorem foldl_offer_le {fillers : List (Filler ℚ≥0)} {start : Option (Filler ℚ≥0)}
    {filler : Filler ℚ≥0} (mem : filler ∈ start ∨ filler ∈ fillers) :
    ∃ best ∈ fillers.foldl offer start, best.cost ≤ filler.cost := by
  obtain ⟨best, there, least⟩ := exists_mem_foldl_offer mem
  exact ⟨best, there, cost_le_of_compare_ne_lt least⟩

end Filler

namespace PhraseRule

variable {vanishing : Fillers ℚ≥0} {rule : PhraseRule ℚ≥0}

def price (vanishing : Fillers ℚ≥0) (slot : Slot) : Option ℚ≥0 :=
  (vanishing.of? slot.symbol).map (·.cost)

theorem foldl_vanishingChildren :
    (rule.vanishingChildren vanishing).foldl (fun cost child => cost + child.filler.cost)
        rule.cost = rule.cost + (rule.slots.filterMap (price vanishing)).sum := by
  have sum : ∀ (gone : List (Elided ℚ≥0)) (cost : ℚ≥0),
      gone.foldl (fun cost child => cost + child.filler.cost) cost =
        cost + (gone.map (·.filler.cost)).sum := by
    intro gone
    induction gone with
    | nil => exact fun cost => (add_zero cost).symm
    | cons child rest ih =>
      intro cost
      rw [List.foldl_cons, ih, List.map_cons, List.sum_cons, add_assoc]
  have quiet : ∀ (slot : Slot) (filler : Filler ℚ≥0), (slot.quiet filler).cost = filler.cost := by
    intro slot filler
    unfold Slot.quiet
    split <;> rfl
  have prices : (rule.vanishingChildren vanishing).map (·.filler.cost) =
      (rule.slots.zipIdx.map (·.1)).filterMap (price vanishing) := by
    rw [vanishingChildren, List.map_filterMap, List.filterMap_map]
    refine List.filterMap_congr fun ⟨slot, position⟩ _ => ?_
    simp only [Option.map_map, price, Function.comp_apply]
    exact congrArg (Option.map · _) (funext fun filler => quiet slot filler)
  rw [sum, prices, List.zipIdx_map_fst]

theorem cost_zeroFiller (signatures : Signatures ℚ≥0) :
    (rule.zeroFiller signatures vanishing).cost =
      rule.cost + (rule.slots.filterMap (price vanishing)).sum :=
  foldl_vanishingChildren

theorem cost_remainder :
    (rule.remainder vanishing).cost =
      rule.cost + (rule.slots.filterMap (price vanishing)).sum :=
  foldl_vanishingChildren

theorem staying_slots_eq :
    (rule.staying vanishing).map (·.1) =
      rule.slots.filter fun slot => (price vanishing slot).isNone := by
  simp only [staying_slots, price, Option.isNone_map]

end PhraseRule

namespace Grammar

variable {grammar left : Grammar ℚ≥0} {symbol : Symbol} {tokens : List String} {cost : ℚ≥0}
  {filler : Filler ℚ≥0} {rule : PhraseRule ℚ≥0}

/-- A symbol that vanishes matches the empty text at the cost of its filler, and nothing else. -/
theorem IsSound.matchesAt_of_vanishing (h : grammar.IsSound)
    (vanishes : grammar.vanishing.of? symbol = some filler) :
    grammar.MatchesAt symbol tokens cost ↔ tokens = [] ∧ cost = filler.cost := by
  obtain ⟨none, kind⟩ := h.vanishing_cases vanishes
  constructor
  · intro matched
    cases matched with
    | empty =>
      rcases kind with ⟨-, rfl⟩ | ⟨other, -⟩
      · exact ⟨rfl, rfl⟩
      · exact absurd rfl other
    | zeroFiller known =>
      rcases kind with ⟨rfl, -⟩ | ⟨-, same⟩
      · exact nomatch h.isConsistent.bare.2.2.symm.trans known
      · exact ⟨rfl, congrArg Filler.cost (Option.some.inj (known.symm.trans same))⟩
    | word mem => exact absurd (none ▸ mem) List.not_mem_nil
    | phrase mem => exact absurd (none ▸ mem) List.not_mem_nil
  · rintro ⟨rfl, rfl⟩
    rcases kind with ⟨rfl, rfl⟩ | ⟨-, known⟩
    · exact .empty
    · exact .zeroFiller known

theorem zeroFiller?_collapseRound_le (known : grammar.zeroFiller? symbol = some filler) :
    ∃ best, grammar.collapseRound.1.zeroFiller? symbol = some best ∧ best.cost ≤ filler.cost := by
  obtain ⟨fillers, offered, -⟩ := zeroFiller?_collapseRound grammar symbol
  rw [offered]
  exact Filler.foldl_offer_le (.inl known)

/-- Whatever a grammar matches, another one matches without paying more. -/
def Undercuts (left grammar : Grammar ℚ≥0) : Prop :=
  ∀ symbol tokens paid, grammar.MatchesAt symbol tokens paid →
    ∃ cost ≤ paid, left.MatchesAt symbol tokens cost

theorem Undercuts.refl (grammar : Grammar ℚ≥0) : grammar.Undercuts grammar :=
  fun _ _ paid matched => ⟨paid, le_rfl, matched⟩

theorem Undercuts.trans {last : Grammar ℚ≥0} (h' : last.Undercuts left)
    (h : left.Undercuts grammar) : last.Undercuts grammar := by
  intro symbol tokens paid matched
  obtain ⟨cost, le, there⟩ := h symbol tokens paid matched
  obtain ⟨least, below, last⟩ := h' symbol tokens cost there
  exact ⟨least, below.trans le, last⟩

theorem IsSound.matchesAt_price (h : grammar.IsSound) (slots : List Slot) :
    ∀ slot ∈ slots, ∀ cost, PhraseRule.price grammar.vanishing slot = some cost →
      ∃ least ≤ cost, grammar.MatchesAt slot.symbol [] least := by
  intro slot _ cost due
  obtain ⟨filler, vanishes, rfl⟩ := Option.map_eq_some_iff.mp due
  exact ⟨_, le_rfl, (h.matchesAt_of_vanishing vanishes).mpr ⟨rfl, rfl⟩⟩

/-- A round makes nothing cheaper, whether it is refused or not. -/
theorem IsSound.undercuts_collapseRound (h : grammar.IsSound) :
    grammar.Undercuts grammar.collapseRound.1 := by
  intro symbol tokens paid matched
  refine matched.least (S := fun symbol tokens paid =>
    ∃ cost ≤ paid, grammar.MatchesAt symbol tokens cost) ⟨⟨0, le_rfl, .empty⟩,
    fun {symbol filler} known => ?_, fun mem => ⟨_, le_rfl, .word (word_mem_collapseRound.mp mem)⟩,
    fun {symbol rule tokens paid} mem slots => ?_⟩
  · rcases of_zeroFiller?_collapseRound known with old | ⟨rule, mem, none, rfl⟩
    · exact ⟨_, le_rfl, .zeroFiller old⟩
    · have stay : (rule.staying grammar.vanishing).map (·.1) = _ := PhraseRule.staying_slots_eq
      rw [none, List.map_nil] at stay
      obtain ⟨cost, le, slots⟩ := (SlotsMatchAt.of_filter (h.matchesAt_price rule.slots)
        (stay ▸ SlotsMatchAt.nil)).of_le
      refine ⟨_, ?_, .phrase mem slots⟩
      rw [PhraseRule.cost_zeroFiller]
      rw [add_zero] at le
      exact add_le_add_right le rule.cost
  · rcases of_phrase_mem_collapseRound mem with kept | ⟨old, lost, rfl, -⟩
    · obtain ⟨cost, le, slots⟩ := slots.of_le
      exact ⟨_, add_le_add_right le rule.cost, .phrase kept slots⟩
    · have stay : (old.remainder grammar.vanishing).slots = _ := PhraseRule.staying_slots_eq
      rw [stay] at slots
      obtain ⟨cost, le, all⟩ := (SlotsMatchAt.of_filter (h.matchesAt_price old.slots) slots).of_le
      refine ⟨_, ?_, .phrase lost all⟩
      rw [PhraseRule.cost_remainder, add_assoc]
      exact add_le_add_right le old.cost

/-- The optional children of rules are free if they are among those that vanish. -/
def FreesOptional (vanishing : Fillers ℚ≥0) : Rule ℚ≥0 → Prop
  | .word _ => True
  | .phrase rule => ∀ slot ∈ rule.slots, slot.optional = true →
      ∀ filler ∈ vanishing.of? slot.symbol, filler.cost = 0

instance (vanishing : Fillers ℚ≥0) : DecidablePred (FreesOptional vanishing)
  | .word _ => isTrue trivial
  | .phrase rule => inferInstanceAs (Decidable (∀ slot ∈ rule.slots, slot.optional = true →
      ∀ filler ∈ vanishing.of? slot.symbol, filler.cost = 0))

/-- After a round, a child that vanishes matches nothing but the empty text and not below its
price, which an optional child does not have. -/
theorem IsSound.price_le_collapseRound (h : grammar.IsSound)
    (free : grammar.AllRules (FreesOptional grammar.vanishing))
    (mem : .phrase rule ∈ grammar.rulesOf symbol) :
    ∀ slot ∈ rule.slots, ∀ price, PhraseRule.price grammar.vanishing slot = some price →
      (∀ tokens paid, (∃ cost ≤ paid, grammar.collapseRound.1.MatchesAt slot.symbol tokens cost) →
        tokens = [] ∧ price ≤ paid) ∧ (slot.optional = true → price = 0) := by
  intro slot there price due
  obtain ⟨filler, vanishes, rfl⟩ := Option.map_eq_some_iff.mp due
  refine ⟨?_, fun optional => free symbol _ mem slot there optional filler vanishes⟩
  rintro tokens paid ⟨cost, le, matched⟩
  obtain ⟨rfl, rfl⟩ :=
    (h.collapseRound.matchesAt_of_vanishing (h.vanishing_collapseRound vanishes)).mp matched
  exact ⟨rfl, le⟩

/-- A round makes nothing dearer where the optional children that vanish are free. -/
theorem IsSound.collapseRound_undercuts (h : grammar.IsSound)
    (free : grammar.AllRules (FreesOptional grammar.vanishing)) :
    grammar.collapseRound.1.Undercuts grammar := by
  intro symbol tokens paid matched
  refine matched.least (S := fun symbol tokens paid =>
    ∃ cost ≤ paid, grammar.collapseRound.1.MatchesAt symbol tokens cost) ⟨⟨0, le_rfl, .empty⟩,
    fun {symbol filler} known => ?_, fun mem => ⟨_, le_rfl, .word (word_mem_collapseRound.mpr mem)⟩,
    fun {symbol rule tokens paid} mem slots => ?_⟩
  · obtain ⟨best, there, le⟩ := zeroFiller?_collapseRound_le known
    exact ⟨_, le, .zeroFiller there⟩
  · rcases phrase_collapseRound_cases mem with kept | ⟨none, fillers, left, offered⟩ |
      ⟨-, -, changed⟩
    · obtain ⟨cost, le, slots⟩ := slots.of_le
      exact ⟨_, add_le_add_right le rule.cost, .phrase kept slots⟩
    · obtain ⟨rest, stay, below⟩ := slots.filter (h.price_le_collapseRound free mem)
      rw [← PhraseRule.staying_slots_eq, none] at stay
      cases stay with
      | nil =>
        obtain ⟨best, there, le⟩ := Filler.foldl_offer_le (.inr left)
        refine ⟨best.cost, le.trans ?_, .zeroFiller (offered.trans there)⟩
        rw [PhraseRule.cost_zeroFiller]
        rw [add_zero] at below
        exact add_le_add_right below rule.cost
    · obtain ⟨rest, stay, below⟩ := slots.filter (h.price_le_collapseRound free mem)
      rw [← PhraseRule.staying_slots_eq] at stay
      obtain ⟨cost, le, stay⟩ := stay.of_le
      refine ⟨_, ?_, .phrase changed stay⟩
      rw [PhraseRule.cost_remainder, add_assoc]
      exact add_le_add_right ((add_le_add_right le _).trans below) rule.cost

theorem IsSound.undercuts_collapse (h : grammar.IsSound) :
    grammar.Undercuts grammar.collapse.1 := by
  have kept : grammar.collapse.1.IsSound ∧ grammar.Undercuts grammar.collapse.1 :=
    collapse_induction (Q := fun left => left.IsSound ∧ grammar.Undercuts left)
      (fun h => ⟨h.1.collapseRound, h.2.trans h.1.undercuts_collapseRound⟩)
      ⟨h, .refl grammar⟩
  exact kept.2

theorem collapseRounds_undercuts {rounds count : Nat} (h : grammar.IsSound)
    (done : collapseRounds rounds grammar = (left, .ok count))
    (free : grammar.AllRules (FreesOptional left.vanishing)) : left.Undercuts grammar := by
  induction rounds generalizing grammar count with
  | zero =>
    obtain ⟨rfl, -⟩ := Prod.mk.inj done
    exact .refl grammar
  | succ rounds ih =>
    by_cases idle : grammar.IsCollapsed
    · rw [collapseRounds_of_isCollapsed rounds idle] at done
      obtain ⟨rfl, -⟩ := Prod.mk.inj done
      exact .refl grammar
    · have now : grammar.AllRules (FreesOptional grammar.vanishing) := by
        intro symbol rule mem
        cases rule with
        | word word => exact trivial
        | phrase rule =>
          exact fun slot there optional filler vanishes => free symbol _ mem slot there optional
            filler (vanishing_collapseRounds h done vanishes)
      have step := h.collapseRound_undercuts now
      have sound := h.collapseRound
      have next' := free.collapseRound fun {rule} vanishing old slot mem =>
        old slot (by
          have staying : slot ∈ (rule.staying vanishing).map (·.1) := mem
          rw [PhraseRule.staying_slots] at staying
          exact List.mem_of_mem_filter staying)
      match round : grammar.collapseRound with
      | (next, .error fault) =>
        rw [collapseRounds_of_error rounds round] at done
        exact nomatch (Prod.mk.inj done).2
      | (next, .ok n) =>
        rw [collapseRounds_of_ok rounds idle round] at done
        rw [round] at sound step next'
        obtain ⟨rfl, result⟩ := Prod.mk.inj done
        cases rest : (collapseRounds rounds next).2 with
        | error fault => exact nomatch rest ▸ result
        | ok more => exact (ih sound (Prod.ext rfl rest) next').trans step

/-- All costs that a grammar charges for a single rule or a zero filler. -/
def prices (grammar : Grammar ℚ≥0) : List ℚ≥0 :=
  grammar.entries.flatMap fun entry =>
    entry.zeroFiller.toList.map (·.cost) ++ entry.rules.map Rule.cost

theorem mem_prices_of_mem_rulesOf {rule : Rule ℚ≥0} (mem : rule ∈ grammar.rulesOf symbol) :
    rule.cost ∈ grammar.prices := by
  obtain ⟨entry, found, here⟩ := mem_rulesOf.mp mem
  exact List.mem_flatMap.mpr ⟨entry, List.mem_of_getElem? found,
    List.mem_append_right _ (List.mem_map_of_mem here)⟩

theorem mem_prices_of_zeroFiller? (known : grammar.zeroFiller? symbol = some filler) :
    filler.cost ∈ grammar.prices := by
  obtain ⟨entry, found, here⟩ := Option.bind_eq_some_iff.mp known
  exact List.mem_flatMap.mpr ⟨entry, List.mem_of_getElem? found,
    List.mem_append_left _ (List.mem_map_of_mem (Option.mem_toList.mpr here))⟩

theorem MatchesAt.mem_closure (h : grammar.MatchesAt symbol tokens cost) :
    cost ∈ AddSubmonoid.closure {price | price ∈ grammar.prices} := by
  have slots : ∀ {slots : List Slot} {tokens : List String} {cost : ℚ≥0},
      SlotsMatchAt (fun _ _ cost => cost ∈ AddSubmonoid.closure {price | price ∈ grammar.prices})
        slots tokens cost → cost ∈ AddSubmonoid.closure {price | price ∈ grammar.prices} := by
    intro slots tokens cost h
    induction h with
    | nil => exact zero_mem _
    | skip _ _ ih => exact ih
    | child first _ ih => exact add_mem first ih
  exact h.least (S := fun _ _ cost => cost ∈ AddSubmonoid.closure {price | price ∈ grammar.prices})
    ⟨zero_mem _, fun known => AddSubmonoid.subset_closure (mem_prices_of_zeroFiller? known),
      fun mem => AddSubmonoid.subset_closure (mem_prices_of_mem_rulesOf mem),
      fun mem rest => add_mem (AddSubmonoid.subset_closure (mem_prices_of_mem_rulesOf mem))
        (slots rest)⟩

/-- Of all costs at which a symbol matches tokens one is the least. -/
theorem MatchesAt.exists_isLeast (h : grammar.MatchesAt symbol tokens cost) :
    ∃ least, IsLeast {cost | grammar.MatchesAt symbol tokens cost} least := by
  have finite : {price | price ∈ grammar.prices}.Finite := List.finite_toSet grammar.prices
  have sums : (AddSubmonoid.closure {price | price ∈ grammar.prices} : Set ℚ≥0).IsPWO :=
    finite.isPWO.addSubmonoid_closure fun _ _ => zero_le
  have costs : {cost | grammar.MatchesAt symbol tokens cost}.IsWF :=
    (sums.mono fun _ matched => matched.mem_closure).isWF
  have some : {cost | grammar.MatchesAt symbol tokens cost}.Nonempty := ⟨cost, h⟩
  exact ⟨costs.min some, costs.min_mem some, fun _ matched => costs.min_le some matched⟩

theorem isLeast_of_undercuts (down : left.Undercuts grammar) (up : grammar.Undercuts left)
    (h : IsLeast {cost | grammar.MatchesAt symbol tokens cost} cost) :
    IsLeast {cost | left.MatchesAt symbol tokens cost} cost := by
  have above : ∀ paid, left.MatchesAt symbol tokens paid → cost ≤ paid := by
    intro paid matched
    obtain ⟨least, le, there⟩ := up symbol tokens paid matched
    exact (h.2 there).trans le
  obtain ⟨paid, le, matched⟩ := down symbol tokens cost h.1
  exact ⟨le_antisymm le (above paid matched) ▸ matched, above⟩

/-- Collapsing keeps the least cost of every match, as long as the optional children that vanish do
so at no cost. -/
theorem run_collapse_leastCost {operations : List (Operation ℚ≥0)} {count : Nat}
    (collapse : (run operations).collapse = (left, .ok count))
    (free : (run operations).AllRules (FreesOptional left.vanishing))
    (matched : (run operations).MatchesAt symbol tokens cost) :
    ∃ least, IsLeast {cost | (run operations).MatchesAt symbol tokens cost} least ∧
      IsLeast {cost | left.MatchesAt symbol tokens cost} least := by
  have sound := IsSound.run operations
  have up : (run operations).Undercuts left := by
    have up := sound.undercuts_collapse
    rwa [collapse] at up
  have down : left.Undercuts (run operations) := collapseRounds_undercuts sound collapse free
  obtain ⟨least, isLeast⟩ := matched.exists_isLeast
  exact ⟨least, isLeast, isLeast_of_undercuts down up isLeast⟩

/-- A word, and after it an optional child that matches only the empty text, at some cost. -/
def wordBeforeOption (cost : ℚ≥0) : List (Operation ℚ≥0) :=
  [.newSymbol ["word"], .newSymbol ["option"],
    .addRule ⟨2⟩ (.word (.ofLiteral "hello")),
    .addRule ⟨3⟩ (.phrase { PhraseRule.ofSymbols [.empty] with cost }),
    .addRule .start (.phrase (.ofSlots
      [.ofSymbol ⟨2⟩, { Slot.ofSymbol ⟨3⟩ with optional := true }]))]

theorem wordBeforeOption_matchesAt (cost : ℚ≥0) :
    (run (wordBeforeOption cost)).MatchesAt .start ["hello"] 0 := by
  have word : .word (.ofLiteral "hello") ∈ (run (wordBeforeOption cost)).rulesOf ⟨2⟩ :=
    List.mem_cons_self
  have phrase : .phrase (.ofSlots [.ofSymbol ⟨2⟩, { Slot.ofSymbol ⟨3⟩ with optional := true }]) ∈
      (run (wordBeforeOption cost)).rulesOf .start := List.mem_cons_self
  have slots : SlotsMatchAt (run (wordBeforeOption cost)).MatchesAt
      [.ofSymbol ⟨2⟩, { Slot.ofSymbol ⟨3⟩ with optional := true }] (["hello"] ++ []) (0 + 0) :=
    .child (.word word) (.skip rfl .nil)
  have matched : (run (wordBeforeOption cost)).MatchesAt .start ["hello"] (0 + (0 + 0)) :=
    .phrase phrase slots
  rwa [add_zero, add_zero] at matched

/-- An option that costs nothing may be dropped. -/
theorem wordBeforeOption_free :
    ∃ least, IsLeast {cost | (run (wordBeforeOption 0)).MatchesAt .start ["hello"] cost} least ∧
      IsLeast {cost | (run (wordBeforeOption 0)).collapse.1.MatchesAt .start ["hello"] cost}
        least := by
  have collapse : (run (wordBeforeOption 0)).collapse =
      ((run (wordBeforeOption 0)).collapse.1, .ok 2) := Prod.ext rfl (by decide +kernel)
  refine run_collapse_leastCost collapse (allRules_iff.mpr ?_) (wordBeforeOption_matchesAt 0)
  decide +kernel

/-- An option that costs something is charged for when it is dropped, though it could be left out
before. -/
theorem wordBeforeOption_charged :
    IsLeast {cost | (run (wordBeforeOption 5)).MatchesAt .start ["hello"] cost} 0 ∧
      (run (wordBeforeOption 5)).collapse.2 = .ok 2 ∧
      IsLeast {cost | (run (wordBeforeOption 5)).collapse.1.MatchesAt .start ["hello"] cost} 5 := by
  have rules : (run (wordBeforeOption 5)).collapse.1.rulesOf .start =
      [.phrase { PhraseRule.ofSymbols [⟨2⟩] with
        cost := 5, origin := .collapsed, elided := some ⟨1, ⟨3⟩, ⟨5, [], []⟩⟩ }] := by
    decide +kernel
  have word : .word (.ofLiteral "hello") ∈ (run (wordBeforeOption 5)).collapse.1.rulesOf ⟨2⟩ := by
    decide +kernel
  refine ⟨⟨wordBeforeOption_matchesAt 5, fun _ _ => zero_le⟩, by decide +kernel, ?_, ?_⟩
  · have slots : SlotsMatchAt (run (wordBeforeOption 5)).collapse.1.MatchesAt [.ofSymbol ⟨2⟩]
        (["hello"] ++ []) (0 + 0) := .child (.word word) .nil
    have matched : (run (wordBeforeOption 5)).collapse.1.MatchesAt .start ["hello"] (5 + (0 + 0)) :=
      .phrase (rules ▸ List.mem_cons_self) slots
    rwa [add_zero, add_zero] at matched
  · -- The only rule of the start symbol costs as much.
    have costs : ∀ rule ∈ (run (wordBeforeOption 5)).collapse.1.rulesOf .start, rule.cost = 5 := by
      rw [rules]
      exact fun rule mem => List.mem_singleton.mp mem ▸ rfl
    have least : ∀ {symbol tokens cost}, symbol = .start → tokens = ["hello"] →
        (run (wordBeforeOption 5)).collapse.1.MatchesAt symbol tokens cost → 5 ≤ cost := by
      rintro symbol tokens cost rfl here matched
      cases matched with
      | zeroFiller known => exact nomatch here
      | word mem => exact (costs _ mem).ge
      | phrase mem slots => exact (costs _ mem).ge.trans le_self_add
    exact fun cost matched => least rfl rfl matched

end Grammar

end PhraseGrammar
