import PhraseGrammar.Derivation.Transposition
import PhraseGrammar.Proofs.Synthesis

/-! Rules under other symbols. What derivation makes of a rule does not depend on which symbols
stand in it, as long as they vanish alike and have the same fillers. -/

namespace PhraseGrammar

variable {κ : Type}

def Slot.rename (π : Symbol → Symbol) (slot : Slot) : Slot :=
  { slot with symbol := π slot.symbol }

def Elided.rename (π : Symbol → Symbol) (elided : Elided κ) : Elided κ :=
  { elided with symbol := π elided.symbol }

def PhraseRule.rename (π : Symbol → Symbol) (rule : PhraseRule κ) : PhraseRule κ :=
  { rule with
    slots := rule.slots.map (·.rename π)
    elided := rule.elided.map (·.rename π) }

def Rule.rename (π : Symbol → Symbol) : Rule κ → Rule κ
  | .word rule => .word rule
  | .phrase rule => .phrase (rule.rename π)

def Remains.rename (π : Symbol → Symbol) : Remains κ → Remains κ
  | .rule left => .rule (left.rename π)
  | .filler made => .filler made

def Side.rename (π : Symbol → Symbol) : Side → Side
  | .word literal => .word literal
  | .phrase symbols => .phrase (symbols.map π)

structure PhraseRule.IsBelow (size : Nat) (rule : PhraseRule κ) : Prop where
  slots : ∀ slot ∈ rule.slots, slot.symbol.index < size
  elided : ∀ child ∈ rule.elided, child.symbol.index < size

def Rule.IsBelow (size : Nat) : Rule κ → Prop
  | .word _ => True
  | .phrase rule => rule.IsBelow size

/-- A renaming of the symbols below some size among themselves. -/
structure IsRenaming (size : Nat) (π : Symbol → Symbol) : Prop where
  maps : ∀ symbol, symbol.index < size → (π symbol).index < size
  injective : ∀ a b, a.index < size → b.index < size → π a = π b → a = b
  onto : ∀ symbol, symbol.index < size → ∃ old, old.index < size ∧ π old = symbol
  empty : Symbol.empty.index < size ∧ π .empty = .empty

/-- Renamed symbols have the fillers that they had before. -/
def Fillers.Agree (size : Nat) (π : Symbol → Symbol) (best best' : Fillers κ) : Prop :=
  ∀ symbol, symbol.index < size → best'.of? (π symbol) = best.of? symbol

namespace PhraseRule

variable {size : Nat} {π : Symbol → Symbol} {best best' : Fillers κ} {rule : PhraseRule κ}

@[simp] theorem rename_slots : (rule.rename π).slots = rule.slots.map (·.rename π) := rfl

theorem symbols_rename : (rule.rename π).symbols = rule.symbols.map π := by
  simp only [symbols, rename_slots, List.map_map]
  rfl

theorem side_rename (rule : Rule κ) : (rule.rename π).side = rule.side.rename π := by
  cases rule with
  | word rule => rfl
  | phrase rule => exact congrArg Side.phrase symbols_rename

theorem IsBelow.symbols (h : rule.IsBelow size) : ∀ symbol ∈ rule.symbols, symbol.index < size := by
  intro symbol mem
  obtain ⟨slot, there, rfl⟩ := List.mem_map.mp mem
  exact h.slots slot there

theorem hasVanishing_rename (agree : Fillers.Agree size π best best') (below : rule.IsBelow size) :
    (rule.rename π).hasVanishing best' = rule.hasVanishing best := by
  rw [Bool.eq_iff_iff, hasVanishing_iff, hasVanishing_iff, rename_slots]
  simp only [List.mem_map, exists_exists_and_eq_and]
  refine exists_congr fun slot => and_congr_right fun mem => ?_
  have same : best'.of? (slot.rename π).symbol = best.of? slot.symbol :=
    agree _ (below.slots slot mem)
  rw [same]

theorem zipIdx_slots_rename :
    (rule.rename π).slots.zipIdx = rule.slots.zipIdx.map (Prod.map (Slot.rename π) id) :=
  List.zipIdx_map

theorem staying_rename (agree : Fillers.Agree size π best best') (below : rule.IsBelow size) :
    (rule.rename π).staying best' =
      (rule.staying best).map (Prod.map (Slot.rename π) id) := by
  unfold staying
  rw [zipIdx_slots_rename, List.filter_map]
  congr 1
  refine List.filter_congr fun place mem => ?_
  have same : best'.of? (place.1.rename π).symbol = best.of? place.1.symbol :=
    agree _ (below.slots _ (List.fst_mem_of_mem_zipIdx mem))
  simp only [Function.comp_apply, Prod.map_fst, same]

theorem vanishingChildren_rename (agree : Fillers.Agree size π best best')
    (below : rule.IsBelow size) :
    (rule.rename π).vanishingChildren best' =
      (rule.vanishingChildren best).map (·.rename π) := by
  unfold vanishingChildren
  rw [zipIdx_slots_rename, List.filterMap_map, List.map_filterMap]
  refine List.filterMap_congr fun place mem => ?_
  have same : best'.of? (place.1.rename π).symbol = best.of? place.1.symbol :=
    agree _ (below.slots _ (List.fst_mem_of_mem_zipIdx mem))
  simp only [Function.comp_apply, Prod.map_fst, same, Option.map_map]
  rfl

theorem below_of_mem_vanishingChildren (below : rule.IsBelow size) {child : Elided κ}
    (mem : child ∈ rule.vanishingChildren best) : child.symbol.index < size := by
  obtain ⟨place, there, made⟩ := List.mem_filterMap.mp mem
  obtain ⟨filler, -, rfl⟩ := Option.map_eq_some_iff.mp made
  exact below.slots _ (List.fst_mem_of_mem_zipIdx there)

variable [Cost κ]

theorem remainder_rename (ren : IsRenaming size π)
    (agree : Fillers.Agree size π best best') (below : rule.IsBelow size) :
    (rule.rename π).remainder best' = (rule.remainder best).rename π := by
  have slots : ((rule.staying best).map (Prod.map (Slot.rename π) id)).map (·.1) =
      ((rule.staying best).map (·.1)).map (·.rename π) := by
    rw [List.map_map, List.map_map]
    rfl
  have positions : ∀ i, ((rule.staying best).map (Prod.map (Slot.rename π) id)).findIdx?
      (·.2 == i) = (rule.staying best).findIdx? (·.2 == i) := by
    intro i
    rw [List.findIdx?_map]
    rfl
  have first : ((rule.vanishingChildren best).map (·.rename π)).find? (·.symbol ≠ .empty) =
      ((rule.vanishingChildren best).find? (·.symbol ≠ .empty)).map (·.rename π) := by
    rw [List.find?_map, ← List.head?_filter, ← List.head?_filter]
    refine congrArg (fun children => (List.head? children).map _)
      (List.filter_congr fun child mem => ?_)
    have known := below_of_mem_vanishingChildren below mem
    have same : π child.symbol = .empty ↔ child.symbol = .empty := by
      constructor
      · intro h
        exact ren.injective _ _ known ren.empty.1 (h.trans ren.empty.2.symm)
      · intro h
        rw [h, ren.empty.2]
    simp only [Function.comp_apply, Elided.rename, ne_eq, same]
  have elided : (((rule.vanishingChildren best).find? (·.symbol ≠ .empty)).map
        (·.rename π)).or (rule.elided.map (·.rename π)) =
      (((rule.vanishingChildren best).find? (·.symbol ≠ .empty)).or rule.elided).map
        (·.rename π) := by
    cases (rule.vanishingChildren best).find? (·.symbol ≠ .empty) <;> rfl
  unfold remainder
  simp only [staying_rename agree below, vanishingChildren_rename agree below, slots, positions,
    first, List.foldl_map]
  simp only [rename, elided]
  rfl

theorem zeroFiller_rename (signatures : Signatures κ) (agree : Fillers.Agree size π best best')
    (below : rule.IsBelow size) :
    (rule.rename π).zeroFiller signatures best' = rule.zeroFiller signatures best := by
  have fillers : ((rule.vanishingChildren best).map (·.rename π)).map (·.filler) =
      (rule.vanishingChildren best).map (·.filler) := by
    rw [List.map_map]
    rfl
  have parts : ∀ parts, (rule.rename π).withElided parts = rule.withElided parts := by
    intro parts
    simp only [withElided, rename]
    cases rule.elided <;> rfl
  simp only [zeroFiller, vanishingChildren_rename agree below, fillers, parts, List.foldl_map]
  rfl

theorem remains_rename (signatures : Signatures κ) (ren : IsRenaming size π)
    (agree : Fillers.Agree size π best best') (below : rule.IsBelow size) :
    (rule.rename π).remains signatures best' = (rule.remains signatures best).rename π := by
  unfold remains
  rw [staying_rename agree below, List.isEmpty_map, remainder_rename ren agree below,
    zeroFiller_rename signatures agree below]
  cases (rule.staying best).isEmpty <;> rfl

theorem slotFiller?_rename (agree : Fillers.Agree size π best best') {slot : Slot}
    (known : slot.symbol.index < size) (position : Nat) :
    (rule.rename π).slotFiller? best' (slot.rename π) position =
      rule.slotFiller? best slot position := by
  have same : best'.of? (slot.rename π).symbol = best.of? slot.symbol := agree _ known
  unfold slotFiller?
  rw [same]
  rfl

theorem eliding_rename (pair : Slot × Slot) (place : Place) (filler : Filler κ) :
    (rule.rename π).eliding (Prod.map (·.rename π) (·.rename π) pair) place filler =
      (rule.eliding pair place filler).rename π := by
  cases place <;> rfl

omit [Cost κ] in
theorem pair?_rename :
    (rule.rename π).pair? = rule.pair?.map (Prod.map (·.rename π) (·.rename π)) := by
  unfold pair?
  rw [rename_slots]
  match rule.slots with
  | [] => rfl
  | [_] => rfl
  | [_, _] => rfl
  | _ :: _ :: _ :: _ => rfl

theorem insertion?_rename (agree : Fillers.Agree size π best best') (below : rule.IsBelow size) :
    (rule.rename π).insertion? best' = (rule.insertion? best).map (·.rename π) := by
  unfold insertion?
  rw [pair?_rename]
  change (if rule.origin = .authored ∧ !rule.unabridged then _ else none) = _
  split
  case isFalse => rfl
  case isTrue =>
    cases found : rule.pair? with
    | none => rfl
    | some pair =>
      have slots := pair?_eq_some.mp found
      have first : pair.1.symbol.index < size := below.slots _ (slots ▸ List.mem_cons_self)
      have second : pair.2.symbol.index < size :=
        below.slots _ (slots ▸ List.mem_cons_of_mem _ (List.mem_singleton_self _))
      simp only [Option.map_some, Option.bind_eq_bind, Option.bind_some, Prod.map_fst,
        Prod.map_snd, slotFiller?_rename agree first, slotFiller?_rename agree second]
      cases cheaperPlace (rule.slotFiller? best pair.1 Place.first.position)
        (rule.slotFiller? best pair.2 Place.second.position) with
      | none => rfl
      | some chosen => exact congrArg some (eliding_rename pair chosen.1 chosen.2)

theorem transposition?_rename :
    (rule.rename π).transposition? = rule.transposition?.map (·.rename π) := by
  unfold transposition?
  rw [pair?_rename]
  change (if rule.origin = .authored then _ else none) = _
  split
  case isFalse => rfl
  case isTrue =>
    cases rule.pair? with
    | none => rfl
    | some pair =>
      change (rule.transpositionCost.bind _) = _
      cases rule.transpositionCost <;> rfl

theorem compareMarks_rename (xs ys : List Slot) :
    List.compareLex Slot.compareMarks (xs.map (·.rename π)) (ys.map (·.rename π)) =
      List.compareLex Slot.compareMarks xs ys := by
  induction xs generalizing ys with
  | nil => cases ys <;> rfl
  | cons x xs ih =>
    cases ys with
    | nil => rfl
    | cons y ys =>
      rw [List.map_cons, List.map_cons, List.compareLex_cons_cons, List.compareLex_cons_cons, ih]
      rfl

theorem compare_rename {nameOf nameOf' : Symbol → String} {other : PhraseRule κ}
    (names : ∀ symbol, symbol.index < size → nameOf' (π symbol) = nameOf symbol)
    (below : rule.IsBelow size) (below' : other.IsBelow size) :
    (rule.rename π).compare nameOf' (other.rename π) = rule.compare nameOf other := by
  have fillers : compareElided (rule.rename π).elided (other.rename π).elided =
      compareElided rule.elided other.elided := by
    simp only [rename]
    cases rule.elided <;> cases other.elided <;> rfl
  have named : ∀ {rule : PhraseRule κ}, rule.IsBelow size →
      ((rule.rename π).elided.map fun elided => nameOf' elided.symbol) =
        rule.elided.map fun elided => nameOf elided.symbol := by
    intro rule below
    simp only [rename, Option.map_map]
    refine Option.map_congr fun child mem => ?_
    exact names _ (below.elided child mem)
  have places : ∀ rule : PhraseRule κ,
      (rule.rename π).elided.map (·.position) = rule.elided.map (·.position) := by
    intro rule
    simp only [rename, Option.map_map]
    rfl
  simp only [PhraseRule.compare, compareLex, compareOn, fillers, named below, named below', places,
    rename_slots, compareMarks_rename]
  rfl

end PhraseRule

theorem Rule.check_rename [Cost κ] {grammar grammar' : Grammar κ} {π : Symbol → Symbol}
    {name name' : String} {rule : Rule κ} (ren : IsRenaming grammar.size π)
    (size : grammar'.size = grammar.size) (below : rule.IsBelow grammar.size) :
    grammar'.checkRule name' (rule.rename π) = .ok () ↔ grammar.checkRule name rule = .ok () := by
  cases rule with
  | word rule => exact WordRule.check_ok.trans WordRule.check_ok.symm
  | phrase rule =>
    have children : (∀ symbol ∈ (rule.rename π).symbols, symbol.index < grammar'.size) ↔
        ∀ symbol ∈ rule.symbols, symbol.index < grammar.size := by
      rw [PhraseRule.symbols_rename, size, List.forall_mem_map]
      have known := PhraseRule.IsBelow.symbols below
      exact ⟨fun _ => known, fun _ symbol mem => ren.maps symbol (known symbol mem)⟩
    have count : (rule.rename π).slots.length = rule.slots.length := List.length_map _
    refine PhraseRule.check_ok.trans (Iff.trans ?_ PhraseRule.check_ok.symm)
    rw [children, count]
    exact .rfl

end PhraseGrammar
