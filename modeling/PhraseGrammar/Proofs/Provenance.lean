import PhraseGrammar.Proofs.LostUses
import PhraseGrammar.Proofs.Settling

/-! Where derived rules come from. Each is made of one authored pair: it means and shows what the
pair does, its children are children of the pair, and what an author asks to be never left out is
never left out in it, at whatever position it stands by then. -/

namespace PhraseGrammar

variable {κ : Type}

namespace PhraseRule

/-- The position that the child at a position of a rule had in the source of the rule, when some
symbols vanish. -/
def oldPosition (vanishing : Fillers κ) (rule source : PhraseRule κ) (position : Nat) :
    Option Nat :=
  match rule.origin with
  | .authored => some position
  | .insertion => rule.elided.map fun elided => 1 - elided.position
  | .transposition => some (1 - position)
  | .collapsed => ((source.staying vanishing).map (·.2))[position]?

/-- A rule is made of an authored pair. Each of its children is one of the pair's, and may be left
out just when it may be in the pair. -/
structure ComesFrom (vanishing : Fillers κ) (rule source : PhraseRule κ) : Prop where
  authored : source.origin = .authored
  pair : source.slots.length = 2
  meaning : rule.meaning = source.meaning
  text : rule.text = source.text
  agreement : rule.agreement = source.agreement
  children : ∀ position slot, rule.slots[position]? = some slot →
    ∃ old before, rule.oldPosition vanishing source position = some old ∧
      source.slots[old]? = some before ∧
      slot.symbol = before.symbol ∧ slot.required = before.required ∧ slot.silent = before.silent ∧
      rule.allowsInsertion slot position = source.allowsInsertion before old

variable [Cost κ]

/-- A rule leaves out the child at a place of a pair, which may be left out there, and pays for
it. -/
structure LeavesOut (rule source : PhraseRule κ) (pair : Slot × Slot) (place : Place) : Prop where
  slots : source.slots = [pair.1, pair.2]
  abridged : source.unabridged = false
  allowed : source.allowsInsertion (place.of pair) place.position = true
  /-- The other child can no longer be absent. -/
  kept : rule.slots = [{ place.other.of pair with optional := false }]
  elided : ∃ filler, rule.elided = some ⟨place.position, (place.of pair).symbol, filler⟩ ∧
    rule.cost = source.cost + filler.cost
  transpositionCost : rule.transpositionCost = none
  insertionCost : rule.insertionCost = none

variable {rule made left : PhraseRule κ} {pair : Slot × Slot} {place : Place} {filler : Filler κ}
  {vanishing earlier : Fillers κ}

omit [Cost κ] in
theorem getElem?_of_pair (slots : rule.slots = [pair.1, pair.2]) (place : Place) :
    rule.slots[place.position]? = some (place.of pair) := by
  rw [slots]
  cases place <;> rfl

omit [Cost κ] in
theorem allowsInsertion_congr {slot before : Slot} {position old : Nat}
    (unabridged : made.unabridged = rule.unabridged) (required : slot.required = before.required)
    (positions : made.requiredPositions.contains position = rule.requiredPositions.contains old) :
    made.allowsInsertion slot position = rule.allowsInsertion before old := by
  rw [allowsInsertion, allowsInsertion, unabridged, required, positions]

theorem ComesFrom.eliding (authored : rule.origin = .authored)
    (slots : rule.slots = [pair.1, pair.2]) :
    (rule.eliding pair place filler).ComesFrom vanishing rule where
  authored := authored
  pair := congrArg List.length slots
  meaning := rfl
  text := rfl
  agreement := rfl
  children position slot found := by
    have here : (slot, position) ∈ (rule.eliding pair place filler).slots.zipIdx :=
      List.mem_zipIdx_iff_getElem?.mpr found
    obtain ⟨rfl, rfl⟩ := mem_zipIdx_eliding.mp here
    refine ⟨place.other.position, place.other.of pair, ?_, getElem?_of_pair slots place.other,
      rfl, rfl, rfl, allowsInsertion_eliding⟩
    cases place <;> rfl

theorem leavesOut_of_insertion? {best : Fillers κ} (h : rule.insertion? best = some made) :
    ∃ pair place, made.LeavesOut rule pair place := by
  obtain ⟨-, abridged, pair, place, filler, slots, chosen, rfl⟩ := insertion?_eq_some.mp h
  exact ⟨pair, place, slots, abridged, (fills_of_cheaperPlace chosen).1, rfl, ⟨filler, rfl, rfl⟩,
    rfl, rfl⟩

theorem mem_zipIdx_swapping {cost : κ} {slot : Slot} {position : Nat} :
    (slot, position) ∈ (rule.swapping pair cost).slots.zipIdx ↔
      ∃ place : Place, slot = place.of pair ∧ position = place.other.position := by
  have swapped : (rule.swapping pair cost).slots = [pair.swap.1, pair.swap.2] := rfl
  rw [mem_zipIdx_of_pair swapped]
  constructor
  · rintro ⟨first | second, rfl, rfl⟩
    · exact ⟨.second, rfl, rfl⟩
    · exact ⟨.first, rfl, rfl⟩
  · rintro ⟨first | second, rfl, rfl⟩
    · exact ⟨.second, rfl, rfl⟩
    · exact ⟨.first, rfl, rfl⟩

theorem allowsInsertion_swapping {size : Nat} (sound : rule.IsSound size)
    (slots : rule.slots = [pair.1, pair.2]) (cost : κ) (place : Place) :
    (rule.swapping pair cost).allowsInsertion (place.of pair) place.other.position =
      rule.allowsInsertion (place.of pair) place.position := by
  refine allowsInsertion_congr rfl rfl (contains_remapPositions fun position mem => ?_)
  -- Of positions that no child has, all would be taken to the first one.
  have below : position < 2 := by
    have below := sound.positions position mem
    rwa [slots] at below
  rw [Option.some_inj]
  cases place <;> simp only [Place.other, Place.position] <;> omega

theorem ComesFrom.swapping {size : Nat} (authored : rule.origin = .authored)
    (sound : rule.IsSound size) (slots : rule.slots = [pair.1, pair.2]) (cost : κ) :
    (rule.swapping pair cost).ComesFrom vanishing rule where
  authored := authored
  pair := congrArg List.length slots
  meaning := rfl
  text := rfl
  agreement := rfl
  children position slot found := by
    have here : (slot, position) ∈ (rule.swapping pair cost).slots.zipIdx :=
      List.mem_zipIdx_iff_getElem?.mpr found
    obtain ⟨place, rfl, rfl⟩ := mem_zipIdx_swapping.mp here
    refine ⟨place.position, place.of pair, ?_, getElem?_of_pair slots place, rfl, rfl, rfl,
      allowsInsertion_swapping sound slots cost place⟩
    cases place <;> rfl

section Remainder

variable (slots : rule.slots = [pair.1, pair.2])
  (gone : (vanishing.of? (place.of pair).symbol).isSome = true)
  (stays : vanishing.of? (place.other.of pair).symbol = none)

omit [Cost κ] in
theorem exists_pair_of_loses (few : rule.slots.length ≤ 2)
    (loses : rule.hasVanishing vanishing = true) (some : rule.staying vanishing ≠ []) :
    ∃ (pair : Slot × Slot) (place : Place), rule.slots = [pair.1, pair.2] ∧
      (vanishing.of? (place.of pair).symbol).isSome = true ∧
      vanishing.of? (place.other.of pair).symbol = none := by
  obtain ⟨lost, mem, gone⟩ := hasVanishing_iff.mp loses
  obtain ⟨⟨kept, old⟩, there⟩ := List.exists_mem_of_ne_nil _ some
  obtain ⟨there, stays⟩ := List.mem_filter.mp there
  have there : kept ∈ rule.slots := List.mem_of_getElem? (List.mem_zipIdx_iff_getElem?.mp there)
  have stays : vanishing.of? kept.symbol = none := Option.isNone_iff_eq_none.mp stays
  have apart : lost ≠ kept := by
    rintro rfl
    rw [stays] at gone
    cases gone
  match same : rule.slots with
  | [] => exact absurd (same ▸ mem) List.not_mem_nil
  | [only] =>
    rw [same, List.mem_singleton] at mem there
    exact absurd (mem.trans there.symm) apart
  | [first, second] =>
    rw [same, List.mem_pair] at mem there
    rcases mem, there with ⟨rfl | rfl, rfl | rfl⟩
    · exact absurd rfl apart
    · exact ⟨(lost, kept), .first, rfl, gone, stays⟩
    · exact ⟨(kept, lost), .second, rfl, gone, stays⟩
    · exact absurd rfl apart
  | _ :: _ :: _ :: _ =>
    rw [same] at few
    simp only [List.length_cons] at few
    omega

include slots gone stays

omit [Cost κ] in
theorem staying_of_pair :
    rule.staying vanishing = [(place.other.of pair, place.other.position)] := by
  have goes : (vanishing.of? (place.of pair).symbol).isNone = false :=
    Option.isNone_eq_false_iff.mpr gone
  have keeps : (vanishing.of? (place.other.of pair).symbol).isNone = true :=
    Option.isNone_iff_eq_none.mpr stays
  rw [staying, slots, List.zipIdx_cons, List.zipIdx_singleton]
  cases place <;>
    simp_all only [Place.of, Place.other, Place.position, List.filter_cons, List.filter_nil,
      Bool.false_eq_true, if_false, if_true]

theorem allowsInsertion_remainder :
    (rule.remainder vanishing).allowsInsertion (place.other.of pair) 0 =
      rule.allowsInsertion (place.other.of pair) place.other.position := by
  refine allowsInsertion_congr rfl rfl (contains_remapPositions fun position _ => ?_)
  rw [staying_of_pair slots gone stays, List.findIdx?_cons]
  split
  case isTrue same => exact ⟨fun _ => (eq_of_beq same).symm, fun _ => rfl⟩
  case isFalse other => exact ⟨nofun, fun same => absurd (beq_of_eq same.symm) other⟩

theorem remainder_slots_of_pair : (rule.remainder vanishing).slots = [place.other.of pair] :=
  congrArg (List.map Prod.fst) (staying_of_pair slots gone stays)

end Remainder

/-- A pair that loses a child, which vanishes to the end, comes down to the other one. -/
theorem ComesFrom.remainder (authored : rule.origin = .authored) (few : rule.slots.length ≤ 2)
    (more : vanishing.Extends earlier) (loses : rule.hasVanishing earlier = true)
    (some : rule.staying earlier ≠ [])
    (clean : (rule.remainder earlier).hasVanishing vanishing = false) :
    (rule.remainder earlier).ComesFrom vanishing rule := by
  obtain ⟨pair, place, slots, gone, stays⟩ := exists_pair_of_loses few loses some
  have single := remainder_slots_of_pair slots gone stays
  have lost : (vanishing.of? (place.of pair).symbol).isSome = true := by
    obtain ⟨filler, goes⟩ := Option.isSome_iff_exists.mp gone
    exact Option.isSome_iff_exists.mpr ⟨filler, more _ _ goes⟩
  have kept : vanishing.of? (place.other.of pair).symbol = none := by
    refine Option.not_isSome_iff_eq_none.mp fun vanishes => ?_
    have mem : place.other.of pair ∈ (rule.remainder earlier).slots :=
      single ▸ List.mem_singleton_self _
    rw [hasVanishing_iff.mpr ⟨_, mem, vanishes⟩] at clean
    cases clean
  refine ⟨authored, congrArg List.length slots, rfl, rfl, rfl, fun position slot found => ?_⟩
  rw [single, List.getElem?_singleton] at found
  split at found
  case isFalse => cases found
  case isTrue here =>
    obtain rfl := here
    obtain rfl := Option.some.inj found
    refine ⟨place.other.position, place.other.of pair, ?_, getElem?_of_pair slots place.other,
      rfl, rfl, rfl, allowsInsertion_remainder slots gone stays⟩
    change ((rule.staying vanishing).map (·.2))[0]? = _
    rw [staying_of_pair slots lost kept]
    rfl

theorem Shrinks.eq_or_remainder (h : rule.Shrinks vanishing left) (few : rule.slots.length ≤ 2) :
    left = rule ∨ left.slots.length = 1 ∧ ∃ earlier, vanishing.Extends earlier ∧
      rule.hasVanishing earlier = true ∧ rule.staying earlier ≠ [] ∧
      left = rule.remainder earlier := by
  induction h with
  | refl => exact .inl rfl
  | @drop before earlier _ more loses some ih =>
    rcases ih with rfl | ⟨single, -⟩
    · exact .inr ⟨length_remainder few loses some, earlier, more, loses, some, rfl⟩
    · have fewer := length_staying_lt loses
      have left := List.length_pos_iff.mpr some
      omega

end PhraseRule

namespace Grammar

variable [Cost κ] {grammar derived left : Grammar κ} {symbol : Symbol} {rounds : Nat}

theorem authored_mem_afterRounds {rule : PhraseRule κ} (authored : rule.origin = .authored) :
    .phrase rule ∈ (grammar.afterRounds rounds).rulesOf symbol ↔
      .phrase rule ∈ grammar.rulesOf symbol := by
  induction rounds with
  | zero => exact .rfl
  | succ rounds ih => rw [afterRounds_succ, insertionRound, authored_mem_insertWith authored, ih]

theorem of_mem_afterRounds {rule : Rule κ}
    (mem : rule ∈ (grammar.afterRounds rounds).rulesOf symbol) :
    rule ∈ grammar.rulesOf symbol ∨
      ∃ made, rule = .phrase made ∧ grammar.Inserts rounds symbol made := by
  induction rounds with
  | zero => exact .inl mem
  | succ rounds ih =>
    rw [afterRounds_succ] at mem
    rcases of_mem_insertWith mem with old | ⟨made, rfl, offered⟩
    · rcases ih old with old | ⟨made, same, n, below, offered⟩
      · exact .inl old
      · exact .inr ⟨made, same, n, Nat.lt_succ_of_lt below, offered⟩
    · obtain ⟨pair, there, inserted⟩ := mem_insertionOffers.mp offered
      have authored := (PhraseRule.insertion?_eq_some.mp inserted).1
      exact .inr ⟨made, rfl, rounds, Nat.lt_succ_self rounds, pair,
        (authored_mem_afterRounds authored).mp there, inserted⟩

section Derived

variable {tally : Tally} {rule : PhraseRule κ} {count : Nat}

section Phases

variable (collapse : grammar.collapse = (left, .ok count))

include collapse

theorem IsSound.of_collapse (sound : grammar.IsSound) : left.IsSound := by
  have kept : grammar.collapse.1.IsSound := collapse_induction .collapseRound sound
  rwa [collapse] at kept

theorem IsSound.authored_of_mem_collapse (sound : grammar.IsSound)
    (authored : rule.origin = .authored) (mem : .phrase rule ∈ left.rulesOf symbol) :
    .phrase rule ∈ grammar.rulesOf symbol := by
  obtain ⟨source, there, shrinks⟩ := sound.exists_shrinks_collapse collapse mem
  rcases shrinks.eq_or_origin with rfl | collapsed
  · exact there
  · exact nomatch authored.symm.trans collapsed

theorem IsSound.comesFrom_of_mem_collapse (sound : grammar.IsSound)
    (written : grammar.AllRules Rule.IsAuthored) (made : rule.origin ≠ .authored)
    (mem : .phrase rule ∈ left.rulesOf symbol) :
    ∃ source, .phrase source ∈ grammar.rulesOf symbol ∧ rule.ComesFrom left.vanishing source ∧
      rule.origin = .collapsed := by
  obtain ⟨source, there, shrinks⟩ := sound.exists_shrinks_collapse collapse mem
  have authored : source.origin = .authored := (written symbol _ there).1
  have few := PhraseRule.IsSound.length_le (sound.rule there)
  have clean : rule.hasVanishing left.vanishing = false :=
    isCollapsed_iff.mp (collapse_isCollapsed collapse) symbol _ mem
  rcases shrinks.eq_or_remainder few with rfl | ⟨-, earlier, more, loses, some, rfl⟩
  · exact absurd authored made
  · exact ⟨source, there, .remainder authored few more loses some clean, rfl⟩

/-- A derived rule is left by collapsing, offered in a round of insertion, or a transposition. -/
theorem IsSound.mem_derive_cases (sound : left.IsSound)
    (mem : .phrase rule ∈ grammar.derive.1.rulesOf symbol) :
    .phrase rule ∈ left.rulesOf symbol ∨ left.Inserts (left.size + 1) symbol rule ∨
      ∃ pair, .phrase pair ∈ left.rulesOf symbol ∧ pair.transposition? = some rule := by
  have apart := (afterRounds_induction .insertionRound sound (left.size + 1)).apart
  rw [derive_fst collapse, mem_rulesOf_transpose apart] at mem
  rcases mem with old | ⟨_, same, ⟨pair, there, swapped⟩, -⟩
  · rcases of_mem_afterRounds old with old | ⟨_, same, inserted⟩
    · exact .inl old
    · exact .inr (.inl (Rule.phrase.inj same ▸ inserted))
  · have authored := (PhraseRule.transposition?_eq_some.mp swapped).1
    exact .inr (.inr ⟨pair, (authored_mem_afterRounds authored).mp there,
      Rule.phrase.inj same ▸ swapped⟩)

theorem IsSound.authored_mem_derive (sound : left.IsSound) (authored : rule.origin = .authored)
    (mem : .phrase rule ∈ left.rulesOf symbol) :
    .phrase rule ∈ grammar.derive.1.rulesOf symbol := by
  have apart := (afterRounds_induction .insertionRound sound (left.size + 1)).apart
  rw [derive_fst collapse, mem_rulesOf_transpose apart]
  exact .inl ((authored_mem_afterRounds authored).mpr mem)

end Phases

/-- Every rule that a derivation has made comes from an authored rule of the same symbol, and what
an insertion rule leaves out may be left out there. -/
theorem IsSound.comesFrom_of_derive (sound : grammar.IsSound)
    (written : grammar.AllRules Rule.IsAuthored) (h : grammar.derive = (derived, .ok tally))
    (made : rule.origin ≠ .authored) (mem : .phrase rule ∈ derived.rulesOf symbol) :
    ∃ source, .phrase source ∈ grammar.rulesOf symbol ∧ rule.ComesFrom derived.vanishing source ∧
      (rule.origin ≠ .collapsed → .phrase source ∈ derived.rulesOf symbol) ∧
      (rule.origin = .insertion → ∃ pair place, rule.LeavesOut source pair place) := by
  obtain ⟨left, count, collapse, -, vanishing, -⟩ := of_derive_ok h
  obtain rfl : grammar.derive.1 = derived := congrArg Prod.fst h
  have soundLeft := sound.of_collapse collapse
  rcases soundLeft.mem_derive_cases collapse mem with old | ⟨n, -, source, there, inserted⟩ |
    ⟨source, there, swapped⟩
  · obtain ⟨source, there, comes, collapsed⟩ :=
      sound.comesFrom_of_mem_collapse collapse written made old
    exact ⟨source, there, vanishing ▸ comes, fun other => absurd collapsed other,
      fun insertion => nomatch insertion.symm.trans collapsed⟩
  · obtain ⟨authored, -, pair, place, filler, slots, -, eliding⟩ :=
      PhraseRule.insertion?_eq_some.mp inserted
    exact ⟨source, sound.authored_of_mem_collapse collapse authored there,
      eliding ▸ .eliding authored slots,
      fun _ => soundLeft.authored_mem_derive collapse authored there,
      fun _ => PhraseRule.leavesOut_of_insertion? inserted⟩
  · obtain ⟨authored, pair, cost, slots, -, rfl⟩ := PhraseRule.transposition?_eq_some.mp swapped
    exact ⟨source, sound.authored_of_mem_collapse collapse authored there,
      .swapping authored (soundLeft.rule there) slots cost,
      fun _ => soundLeft.authored_mem_derive collapse authored there, nofun⟩

end Derived

/-- After every run with plain rules and without a derivation, and a derivation that is not refused:
every rule that was made comes from one authored pair of its symbol, and its children may be left
out just when they may be in the pair, each at its new position as at the old one. An insertion rule
leaves out a child of the pair that may be left out, and pays for it; the other child stands
alone. -/
theorem run_derive_comesFrom {operations : List (Operation κ)}
    (plain : ∀ operation ∈ operations, operation.IsPlain) (underived : .derive ∉ operations)
    {tally : Tally} (h : (run operations).derive = (derived, .ok tally)) {rule : PhraseRule κ}
    (made : rule.origin ≠ .authored) (mem : .phrase rule ∈ derived.rulesOf symbol) :
    ∃ source, .phrase source ∈ (run operations).rulesOf symbol ∧
      rule.ComesFrom derived.vanishing source ∧
      (rule.origin ≠ .collapsed → .phrase source ∈ derived.rulesOf symbol) ∧
      (rule.origin = .insertion → ∃ pair place, rule.LeavesOut source pair place) :=
  (IsSound.run operations).comesFrom_of_derive (run_underived plain underived).1 h made mem

/-- An order follows a courtesy, in either order, and is never left out. There is another one after
the empty symbol. -/
def politeOrder : List (Operation Float) :=
  [.newSymbol ["courtesy"], .newSymbol ["order"], .newSymbol ["padded"],
    .addRule ⟨2⟩ (.word { WordRule.ofLiteral "please" with insertionCost := some 1 }),
    .addRule ⟨3⟩ (.word { WordRule.ofLiteral "go" with insertionCost := some 0 }),
    .addRule .start (.phrase { PhraseRule.ofSymbols [⟨2⟩, ⟨3⟩] with
      transpositionCost := some 1, requiredPositions := [1] }),
    .addRule ⟨4⟩ (.phrase { PhraseRule.ofSymbols [.empty, ⟨3⟩] with requiredPositions := [1] })]

def orderAlone : PhraseRule Float :=
  { PhraseRule.ofSymbols [⟨3⟩] with
    cost := 1, requiredPositions := [0], origin := .insertion
    elided := some ⟨0, ⟨2⟩, ⟨1, [.fixed "please"], []⟩⟩ }

def orderFirst : PhraseRule Float :=
  { PhraseRule.ofSymbols [⟨3⟩, ⟨2⟩] with
    cost := 1, requiredPositions := [0], origin := .transposition }

def orderUnpadded : PhraseRule Float :=
  { PhraseRule.ofSymbols [⟨3⟩] with requiredPositions := [0], origin := .collapsed }

/-- The order is required in all three rules that come from the two pairs. -/
theorem politeOrder_comesFrom :
    (∀ operation ∈ politeOrder, operation.IsPlain) ∧ .derive ∉ politeOrder ∧
      (run politeOrder).derive.2 = .ok ⟨1, 1, 0, 1, 2, true⟩ ∧
      (.phrase orderAlone ∈ (run politeOrder).derive.1.rulesOf .start ∧
        ∃ source, .phrase source ∈ (run politeOrder).rulesOf .start ∧
          orderAlone.ComesFrom (run politeOrder).derive.1.vanishing source ∧
          .phrase source ∈ (run politeOrder).derive.1.rulesOf .start ∧
          ∃ pair place, orderAlone.LeavesOut source pair place) ∧
      (.phrase orderFirst ∈ (run politeOrder).derive.1.rulesOf .start ∧
        ∃ source, .phrase source ∈ (run politeOrder).rulesOf .start ∧
          orderFirst.ComesFrom (run politeOrder).derive.1.vanishing source) ∧
      .phrase orderUnpadded ∈ (run politeOrder).derive.1.rulesOf ⟨4⟩ ∧
        ∃ source, .phrase source ∈ (run politeOrder).rulesOf ⟨4⟩ ∧
          orderUnpadded.ComesFrom (run politeOrder).derive.1.vanishing source := by
  have plain : ∀ operation ∈ politeOrder, operation.IsPlain := by
    simp only [politeOrder, List.forall_mem_cons]
    exact ⟨trivial, trivial, trivial, ⟨rfl, nofun, fun _ => rfl⟩, ⟨rfl, nofun, fun _ => rfl⟩,
      ⟨rfl, rfl, rfl⟩, ⟨rfl, rfl, rfl⟩, List.forall_mem_nil _⟩
  have underived : .derive ∉ politeOrder := by
    simp only [politeOrder, List.mem_cons, reduceCtorEq, List.not_mem_nil, or_self,
      not_false_eq_true]
  have derived : (run politeOrder).derive =
      ((run politeOrder).derive.1, .ok ⟨1, 1, 0, 1, 2, true⟩) :=
    Prod.ext rfl (by decide +kernel)
  have alone : .phrase orderAlone ∈ (run politeOrder).derive.1.rulesOf .start := by decide +kernel
  have first : .phrase orderFirst ∈ (run politeOrder).derive.1.rulesOf .start := by decide +kernel
  have unpadded : .phrase orderUnpadded ∈ (run politeOrder).derive.1.rulesOf ⟨4⟩ := by
    decide +kernel
  obtain ⟨source, there, comes, still, leaves⟩ :=
    run_derive_comesFrom plain underived derived (by decide) alone
  obtain ⟨swapped, beside, turns, -⟩ :=
    run_derive_comesFrom plain underived derived (by decide) first
  obtain ⟨padded, before, shrinks, -⟩ :=
    run_derive_comesFrom plain underived derived (by decide) unpadded
  exact ⟨plain, underived, congrArg Prod.snd derived,
    ⟨alone, source, there, comes, still (by decide), leaves rfl⟩, ⟨first, swapped, beside, turns⟩,
    unpadded, padded, before, shrinks⟩

end Grammar

end PhraseGrammar
