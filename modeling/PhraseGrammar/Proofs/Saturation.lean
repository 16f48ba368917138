import Mathlib.Data.Bool.Count
import Mathlib.Logic.Function.Iterate
import PhraseGrammar.Proofs.Auditing

/-! How a search for the symbols of a property goes on and ends. After every turn each demand is
met, lacks one of its needs, or needs a symbol that is still to be looked at. A turn looks at one symbol
for good, and so there are no more turns than symbols. -/

namespace PhraseGrammar

namespace Need

variable {need other : Need} {needs : List Need} {symbol : Symbol}

theorem mem_insert : other ∈ need.insert needs ↔ other = need ∨ other ∈ needs := by
  induction needs with
  | nil => exact List.mem_cons
  | cons first rest ih =>
    rw [insert]
    split
    · exact List.mem_cons
    · rw [List.mem_cons, ih, List.mem_cons]
      exact or_left_comm

theorem mem_foldr_insert : need ∈ needs.foldr insert [] ↔ need ∈ needs := by
  induction needs with
  | nil => exact .rfl
  | cons first rest ih => rw [List.foldr_cons, mem_insert, ih, List.mem_cons]

abbrev Ascending (needs : List Need) : Prop :=
  needs.Pairwise fun a b => a.symbol.index ≤ b.symbol.index

theorem ascending_insert (ascending : Ascending needs) : Ascending (need.insert needs) := by
  induction needs with
  | nil => exact List.pairwise_singleton ..
  | cons first rest ih =>
    obtain ⟨above, tail⟩ := List.pairwise_cons.mp ascending
    rw [insert]
    split
    case isTrue before =>
      have low : need.symbol.index ≤ first.symbol.index := by
        simp only [precedes, Bool.or_eq_true, Bool.and_eq_true, decide_eq_true_eq] at before
        omega
      exact .cons (List.forall_mem_cons.mpr
        ⟨low, fun other mem => Nat.le_trans low (above other mem)⟩) ascending
    case isFalse after =>
      have high : first.symbol.index ≤ need.symbol.index := by
        simp only [precedes, Bool.or_eq_true, Bool.and_eq_true, decide_eq_true_eq] at after
        omega
      refine .cons (fun other mem => ?_) (ih tail)
      rcases mem_insert.mp mem with rfl | mem
      · exact high
      · exact above other mem

theorem ascending_foldr_insert (needs : List Need) : Ascending (needs.foldr insert []) := by
  induction needs with
  | nil => exact .nil
  | cons first rest ih => exact ascending_insert ih

theorem mem_takeWhile (ascending : Ascending needs)
    (least : ∀ need ∈ needs, symbol.index ≤ need.symbol.index) :
    need ∈ needs.takeWhile (fun need => decide (need.symbol = symbol)) ↔
      need ∈ needs ∧ need.symbol = symbol := by
  induction needs with
  | nil => exact ⟨fun mem => ⟨mem, absurd mem List.not_mem_nil⟩, And.left⟩
  | cons first rest ih =>
    obtain ⟨above, tail⟩ := List.pairwise_cons.mp ascending
    obtain ⟨low, least⟩ := List.forall_mem_cons.mp least
    by_cases same : first.symbol = symbol
    · rw [List.takeWhile_cons, if_pos (decide_eq_true same), List.mem_cons, List.mem_cons,
        ih tail least, or_and_right]
      exact or_congr_left ⟨fun h => ⟨h, h ▸ same⟩, And.left⟩
    · rw [List.takeWhile_cons, if_neg (mt of_decide_eq_true same)]
      refine ⟨fun mem => absurd mem List.not_mem_nil, fun ⟨mem, found⟩ => ?_⟩
      have passed : symbol.index < first.symbol.index :=
        Nat.lt_of_le_of_ne low fun index => same (congrArg Symbol.mk index.symm)
      rcases List.mem_cons.mp mem with rfl | mem
      · exact absurd found same
      · exact absurd (found ▸ above need mem) (Nat.not_le.mpr passed)

/-- The search for a symbol in needs in order finds all of its needs. -/
theorem mem_takeWhile_dropWhile (ascending : Ascending needs) :
    need ∈ (needs.dropWhile fun need => decide (need.symbol.index < symbol.index)).takeWhile
        (fun need => decide (need.symbol = symbol)) ↔
      need ∈ needs ∧ need.symbol = symbol := by
  induction needs with
  | nil => exact ⟨fun mem => ⟨mem, absurd mem List.not_mem_nil⟩, And.left⟩
  | cons first rest ih =>
    obtain ⟨above, tail⟩ := List.pairwise_cons.mp ascending
    by_cases lower : first.symbol.index < symbol.index
    · rw [List.dropWhile_cons, if_pos (decide_eq_true lower), ih tail, List.mem_cons]
      refine and_congr_left fun found => (or_iff_right ?_).symm
      rintro rfl
      exact Nat.lt_irrefl _ (found ▸ lower)
    · rw [List.dropWhile_cons, if_neg (mt of_decide_eq_true lower)]
      have low := Nat.not_lt.mp lower
      exact mem_takeWhile ascending (List.forall_mem_cons.mpr
        ⟨low, fun other mem => Nat.le_trans low (above other mem)⟩)

end Need

namespace Demands

/-- Every demand is found by each of its needs. -/
def IsIndexed (demands : Demands) : Prop :=
  ∀ demand ∈ demands.all, ∀ symbol ∈ demand.needs, demand ∈ demands.needing symbol

theorem isIndexed_ofList (all : List Demand) : (ofList all).IsIndexed := by
  intro demand mem symbol needed
  obtain ⟨place, found⟩ := List.mem_iff_getElem?.mp mem
  have indexed : ⟨symbol, place⟩ ∈ (ofList all).index := by
    refine Need.mem_foldr_insert.mpr (List.mem_flatMap.mpr ⟨(demand, place), ?_, ?_⟩)
    · exact List.mk_mem_zipIdx_iff_getElem?.mpr found
    · exact List.mem_map.mpr ⟨symbol, needed, rfl⟩
  refine List.mem_filterMap.mpr ⟨⟨symbol, place⟩, ?_, found⟩
  exact (Need.mem_takeWhile_dropWhile (Need.ascending_foldr_insert _)).mpr ⟨indexed, rfl⟩

end Demands

/-- One search goes on from another without a turn: nothing is lost, and what is new is to be looked
at. -/
structure Search.GrowsTo (search grown : Search) : Prop where
  size : grown.found.size = search.found.size
  found : ∀ symbol, search.found.contains symbol = true → grown.found.contains symbol = true
  pending : ∀ symbol ∈ search.pending, symbol ∈ grown.pending
  new : ∀ symbol, grown.found.contains symbol = true →
    search.found.contains symbol = true ∨ symbol ∈ grown.pending

/-- The symbol of a demand is found if all of its needs are, unless one of them is still to be
looked at. -/
def Search.Settles (search : Search) (demand : Demand) : Prop :=
  (∀ symbol ∈ demand.needs, search.found.contains symbol = true) →
    search.found.contains demand.symbol = true ∨ ∃ symbol ∈ demand.needs, symbol ∈ search.pending

namespace Search

variable {search grown later : Search} {demand : Demand} {symbol : Symbol}

theorem GrowsTo.refl (search : Search) : search.GrowsTo search :=
  ⟨rfl, fun _ => id, fun _ => id, fun _ => .inl⟩

theorem GrowsTo.trans (h : search.GrowsTo grown) (h' : grown.GrowsTo later) :
    search.GrowsTo later where
  size := h'.size.trans h.size
  found symbol mem := h'.found symbol (h.found symbol mem)
  pending symbol mem := h'.pending symbol (h.pending symbol mem)
  new symbol mem := by
    rcases h'.new symbol mem with mem | new
    · exact (h.new symbol mem).imp_right (h'.pending symbol)
    · exact .inr new

theorem growsTo_enter (search : Search) (symbol : Symbol) :
    search.GrowsTo (search.enter symbol) := by
  unfold enter
  split
  case isTrue missing =>
    have inside : symbol.index < search.found.size := (List.getElem?_eq_some_iff.mp missing).1
    refine ⟨SymbolSet.size_put .., fun other mem => ?_, fun other => List.mem_cons_of_mem _,
      fun other mem => ?_⟩
    · exact (SymbolSet.contains_put inside).mpr (.inr mem)
    · rcases SymbolSet.of_contains_put mem with rfl | mem
      · exact .inr List.mem_cons_self
      · exact .inl mem
  case isFalse => exact .refl search

theorem growsTo_meet (search : Search) (demand : Demand) : search.GrowsTo (search.meet demand) := by
  unfold meet
  split
  · exact growsTo_enter ..
  · exact .refl search

theorem growsTo_foldl_meet (search : Search) (demands : List Demand) :
    search.GrowsTo (demands.foldl meet search) :=
  List.foldlRecOn (motive := search.GrowsTo) demands meet (.refl search)
    fun now held demand _ => held.trans (now.growsTo_meet demand)

theorem Settles.growsTo (h : search.Settles demand) (grows : search.GrowsTo grown) :
    grown.Settles demand := by
  intro needed
  by_cases before : ∀ symbol ∈ demand.needs, search.found.contains symbol = true
  · rcases h before with met | ⟨symbol, mem, waits⟩
    · exact .inl (grows.found _ met)
    · exact .inr ⟨symbol, mem, grows.pending symbol waits⟩
  · simp only [not_forall] at before
    obtain ⟨symbol, mem, missing⟩ := before
    exact .inr ⟨symbol, mem, (grows.new symbol (needed symbol mem)).resolve_left missing⟩

theorem contains_enter (inside : symbol.index < search.found.size) :
    (search.enter symbol).found.contains symbol = true := by
  unfold enter
  split
  case isTrue => exact (SymbolSet.contains_put inside).mpr (.inl rfl)
  case isFalse there =>
    have bit : search.found.bits[symbol.index]? = some search.found.bits[symbol.index] :=
      List.getElem?_eq_getElem inside
    rw [bit, Option.some.injEq, Bool.not_eq_false] at there
    exact SymbolSet.contains_eq_true.mpr (bit.trans (congrArg some there))

theorem settles_meet (inside : demand.symbol.index < search.found.size) :
    (search.meet demand).Settles demand := by
  by_cases needed : demand.needs.all search.found.contains = true
  · rw [meet, if_pos needed]
    exact fun _ => .inl (contains_enter inside)
  · have unmet : search.Settles demand := fun all => absurd (List.all_eq_true.mpr all) needed
    exact unmet.growsTo (search.growsTo_meet demand)

theorem settles_foldl_meet {demands : List Demand}
    (inside : ∀ demand ∈ demands, demand.symbol.index < search.found.size)
    (mem : demand ∈ demands) : (demands.foldl meet search).Settles demand := by
  induction demands generalizing search with
  | nil => exact absurd mem List.not_mem_nil
  | cons first rest ih =>
    obtain ⟨head, tail⟩ := List.forall_mem_cons.mp inside
    rw [List.foldl_cons]
    rcases List.mem_cons.mp mem with rfl | mem
    · exact (settles_meet head).growsTo (growsTo_foldl_meet ..)
    · exact ih ((search.growsTo_meet first).size.symm ▸ tail) mem

end Search

namespace Demands

variable {demands : Demands} {search : Search} {set : SymbolSet}

structure IsWatched (demands : Demands) (search : Search) : Prop where
  inside : ∀ demand ∈ demands.all, demand.symbol.index < search.found.size
  settled : ∀ demand ∈ demands.all, search.Settles demand

theorem isWatched_start (inside : ∀ demand ∈ demands.all, demand.symbol.index < set.size) :
    demands.IsWatched (demands.start set) where
  inside := (Search.growsTo_foldl_meet ..).size.symm ▸ inside
  settled demand mem := by
    cases needs : demand.needs with
    | nil =>
      refine Search.settles_foldl_meet
        (fun other there => inside other (List.mem_of_mem_filter there))
        (List.mem_filter.mpr ⟨mem, ?_⟩)
      rw [needs, List.isEmpty_nil]
    | cons symbol rest =>
      -- Where there is a need, all members are still to be looked at.
      have first : symbol ∈ demand.needs := needs ▸ List.mem_cons_self
      have waits : Search.Settles ⟨set, set.members.reverse⟩ demand := fun needed =>
        .inr ⟨symbol, first, List.mem_reverse.mpr (SymbolSet.mem_members.mpr (needed symbol first))⟩
      exact waits.growsTo (Search.growsTo_foldl_meet ..)

/-- The demands that need the symbol looked at are settled in this turn; the others do not wait for
it. -/
theorem IsWatched.turn (h : demands.IsWatched search) (indexed : demands.IsIndexed) :
    demands.IsWatched (demands.turn search) := by
  obtain ⟨found, pending⟩ := search
  cases pending with
  | nil => exact h
  | cons symbol pending =>
    have grows := Search.growsTo_foldl_meet ⟨found, pending⟩ (demands.needing symbol)
    refine ⟨grows.size.symm ▸ h.inside, fun demand mem => ?_⟩
    by_cases needed : symbol ∈ demand.needs
    · exact Search.settles_foldl_meet
        (fun other there => h.inside other (mem_all_of_mem_needing there))
        (indexed demand mem symbol needed)
    · have apart : Search.Settles ⟨found, pending⟩ demand := fun all => by
        refine (h.settled demand mem all).imp_right fun ⟨other, there, waits⟩ => ⟨other, there, ?_⟩
        exact (List.mem_cons.mp waits).resolve_left fun same => needed (same ▸ there)
      exact apart.growsTo grows

/-- When no symbol is left to be looked at, every demand is met. -/
theorem IsWatched.meets (h : demands.IsWatched search) (indexed : demands.IsIndexed) :
    ∀ demand ∈ demands.all,
      (∀ symbol ∈ demand.needs, (demands.search search).contains symbol = true) →
      (demands.search search).contains demand.symbol = true := by
  fun_induction Demands.search demands search with
  | case1 found =>
    intro demand mem needed
    refine (h.settled demand mem needed).resolve_right ?_
    rintro ⟨symbol, -, waits⟩
    exact absurd waits List.not_mem_nil
  | case2 found symbol pending ih => exact ih (h.turn indexed)

theorem contains_search {symbol : Symbol} (h : search.found.contains symbol = true) :
    (demands.search search).contains symbol = true := by
  fun_induction Demands.search demands search with
  | case1 found => exact h
  | case2 found first pending ih =>
    exact ih ((Search.growsTo_foldl_meet ⟨found, pending⟩ _).found symbol h)

theorem search_turn (demands : Demands) (search : Search) :
    demands.search (demands.turn search) = demands.search search := by
  obtain ⟨found, _ | ⟨symbol, pending⟩⟩ := search
  · rfl
  · rw [Demands.search]

/-- There are no more turns than symbols that can still be looked at. -/
theorem iterate_turn {turns : Nat} (enough : search.remaining ≤ turns) :
    demands.turn^[turns] search = ⟨demands.search search, []⟩ := by
  induction turns generalizing search with
  | zero =>
    obtain ⟨found, pending⟩ := search
    have none : pending = [] := by
      refine List.eq_nil_of_length_eq_zero ?_
      simp only [Search.remaining] at enough
      omega
    subst none
    rw [Function.iterate_zero_apply, Demands.search]
  | succ turns ih =>
    obtain ⟨found, _ | ⟨symbol, pending⟩⟩ := search
    · rw [Demands.search]
      exact Function.iterate_fixed rfl _
    · have next := demands.remaining_turn found symbol pending
      rw [Function.iterate_succ_apply, ih (by omega), search_turn]

theorem remaining_start (demands : Demands) (set : SymbolSet) :
    (demands.start set).remaining = set.size := by
  rw [start, Search.remaining_foldl_meet, Search.remaining, List.length_reverse]
  have bits : (List.range set.size).map (fun index => set.contains ⟨index⟩) = set.bits := by
    refine List.ext_getElem (by rw [List.length_map, List.length_range]; rfl)
      fun index _ inside => ?_
    rw [List.getElem_map, List.getElem_range, SymbolSet.contains, List.getElem?_eq_getElem inside,
      Option.getD_some]
  have members : set.members.length = set.bits.count true := by
    rw [SymbolSet.members, ← List.countP_eq_length_filter, List.countP_map, ← bits,
      List.count_eq_countP, List.countP_map]
    refine List.countP_congr fun index _ => ?_
    rw [Function.comp_apply, Function.comp_apply, beq_iff_eq]
  rw [members, SymbolSet.size, Nat.add_comm, List.count_true_add_count_false]

end Demands

end PhraseGrammar
