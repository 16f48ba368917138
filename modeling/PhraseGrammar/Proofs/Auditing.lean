import PhraseGrammar.Audit.Basic
import PhraseGrammar.Proofs.Synthesis

/-! What an audit without complaints says of a grammar: the start symbol reaches every symbol, and
every symbol that it reaches matches some text. -/

namespace PhraseGrammar

variable {κ : Type}

namespace SymbolSet

variable {a b set : SymbolSet} {symbol other : Symbol}

theorem contains_eq_true : set.contains symbol = true ↔ set.bits[symbol.index]? = some true := by
  unfold contains
  cases set.bits[symbol.index]? with
  | none => exact ⟨nofun, nofun⟩
  | some bit => exact ⟨fun h => congrArg some h, fun h => Option.some.inj h⟩

theorem lt_size_of_contains (h : set.contains symbol = true) : symbol.index < set.size :=
  (List.getElem?_eq_some_iff.mp (contains_eq_true.mp h)).1

theorem contains_complement :
    set.complement.contains symbol = true ↔
      symbol.index < set.size ∧ set.contains symbol = false := by
  unfold complement contains size
  rw [List.getElem?_map]
  cases found : set.bits[symbol.index]? with
  | none =>
    have outside := List.getElem?_eq_none_iff.mp found
    exact ⟨nofun, fun h => absurd h.1 (Nat.not_lt.mpr outside)⟩
  | some bit =>
    have inside := (List.getElem?_eq_some_iff.mp found).1
    rw [Option.map_some, Option.getD_some, Option.getD_some, Bool.not_eq_true',
      and_iff_right inside]

theorem contains_inter :
    (a.inter b).contains symbol = true ↔ a.contains symbol = true ∧ b.contains symbol = true := by
  simp only [contains_eq_true, inter, List.getElem?_zipWith_eq_some, Bool.and_eq_true]
  constructor
  · rintro ⟨x, y, mine, yours, rfl, rfl⟩
    exact ⟨mine, yours⟩
  · rintro ⟨mine, yours⟩
    exact ⟨true, true, mine, yours, rfl, rfl⟩

theorem contains_diff :
    (a.diff b).contains symbol = true ↔
      a.contains symbol = true ∧ symbol.index < b.size ∧ b.contains symbol = false := by
  have lacks : symbol.index < b.size ∧ b.contains symbol = false ↔
      b.bits[symbol.index]? = some false := by
    unfold contains size
    cases found : b.bits[symbol.index]? with
    | none =>
      have outside := List.getElem?_eq_none_iff.mp found
      exact ⟨fun h => absurd h.1 (Nat.not_lt.mpr outside), nofun⟩
    | some bit =>
      have inside := (List.getElem?_eq_some_iff.mp found).1
      exact ⟨fun h => congrArg some h.2, fun h => ⟨inside, Option.some.inj h⟩⟩
  rw [lacks]
  simp only [contains_eq_true, diff, List.getElem?_zipWith_eq_some, Bool.and_eq_true,
    Bool.not_eq_true']
  constructor
  · rintro ⟨x, y, mine, yours, rfl, rfl⟩
    exact ⟨mine, yours⟩
  · rintro ⟨mine, yours⟩
    exact ⟨true, false, mine, yours, rfl, rfl⟩

theorem size_filled (size : Nat) (bit : Bool) : (filled size bit).size = size :=
  List.length_replicate

theorem contains_filled (size : Nat) (bit : Bool) (symbol : Symbol) :
    (filled size bit).contains symbol = (decide (symbol.index < size) && bit) := by
  by_cases inside : symbol.index < size
  · simp only [filled, contains, List.getElem?_replicate_of_lt inside, Option.getD_some, inside,
      decide_true, Bool.true_and]
  · simp only [filled, contains, List.getElem?_replicate, inside, if_false, Option.getD_none,
      decide_false, Bool.false_and]

theorem ascending_members (set : SymbolSet) :
    set.members.Pairwise fun a b => a.index < b.index :=
  .filter _ (List.pairwise_map.mpr List.pairwise_lt_range)

theorem of_contains_put (h : (set.put symbol true).contains other = true) :
    other = symbol ∨ set.contains other = true := by
  by_cases same : symbol.index = other.index
  · exact .inl (congrArg Symbol.mk same.symm)
  · rw [contains_eq_true, put, List.getElem?_set_ne same] at h
    exact .inr (contains_eq_true.mpr h)

theorem contains_put (inside : symbol.index < set.size) :
    (set.put symbol true).contains other = true ↔ other = symbol ∨ set.contains other = true := by
  refine ⟨of_contains_put, ?_⟩
  rintro (rfl | mem)
  · rw [contains_eq_true, put, List.getElem?_set_self inside]
  · by_cases same : symbol.index = other.index
    · rw [contains_eq_true, put, ← same, List.getElem?_set_self inside]
    · rw [contains_eq_true, put, List.getElem?_set_ne same]
      exact contains_eq_true.mp mem

theorem contains_union (same : a.size = b.size) :
    (a.union b).contains symbol = true ↔ a.contains symbol = true ∨ b.contains symbol = true := by
  simp only [contains_eq_true, union, List.getElem?_zipWith_eq_some, Bool.or_eq_true]
  constructor
  · rintro ⟨x, y, mine, yours, rfl | rfl⟩
    · exact .inl mine
    · exact .inr yours
  · rintro (mine | yours)
    · have inside : symbol.index < b.bits.length :=
        Nat.lt_of_lt_of_eq (List.getElem?_eq_some_iff.mp mine).1 same
      exact ⟨true, b.bits[symbol.index], mine, List.getElem?_eq_getElem inside, .inl rfl⟩
    · have inside : symbol.index < a.bits.length :=
        Nat.lt_of_lt_of_eq (List.getElem?_eq_some_iff.mp yours).1 same.symm
      exact ⟨a.bits[symbol.index], true, List.getElem?_eq_getElem inside, yours, .inr rfl⟩

theorem size_put (set : SymbolSet) (symbol : Symbol) (bit : Bool) :
    (set.put symbol bit).size = set.size :=
  List.length_set ..

theorem size_putAll (set : SymbolSet) (symbols : List Symbol) :
    (set.putAll symbols).size = set.size :=
  List.foldlRecOn (motive := fun now : SymbolSet => now.size = set.size) symbols _ rfl
    fun _ same _ _ => (size_put ..).trans same

theorem contains_putAll {symbols : List Symbol}
    (inside : ∀ symbol ∈ symbols, symbol.index < set.size) :
    (set.putAll symbols).contains symbol = true ↔
      symbol ∈ symbols ∨ set.contains symbol = true := by
  unfold putAll
  induction symbols generalizing set with
  | nil => exact (or_iff_right List.not_mem_nil).symm
  | cons first rest ih =>
    obtain ⟨head, tail⟩ := List.forall_mem_cons.mp inside
    rw [List.foldl_cons, ih ((set.size_put first true).symm ▸ tail), contains_put head,
      List.mem_cons, ← or_assoc, or_comm (a := symbol ∈ rest)]

theorem size_union (same : a.size = b.size) : (a.union b).size = a.size := by
  unfold size at same ⊢
  rw [union, List.length_zipWith, same, Nat.min_self]

theorem size_complement (set : SymbolSet) : set.complement.size = set.size :=
  List.length_map _

theorem size_diff (a b : SymbolSet) : (a.diff b).size = min a.size b.size :=
  List.length_zipWith

theorem size_inter (a b : SymbolSet) : (a.inter b).size = min a.size b.size :=
  List.length_zipWith

theorem eq_of_contains (size : a.size = b.size)
    (same : ∀ symbol, a.contains symbol = b.contains symbol) : a = b := by
  refine congrArg SymbolSet.mk (List.ext_getElem size fun index here there => ?_)
  have bits := same ⟨index⟩
  rwa [contains, contains, List.getElem?_eq_getElem here, List.getElem?_eq_getElem there,
    Option.getD_some, Option.getD_some] at bits

theorem size_ofTest (size : Nat) (test : Symbol → Bool) : (ofTest size test).size = size := by
  unfold SymbolSet.size
  rw [ofTest, List.length_map, List.length_range]

end SymbolSet

namespace SymbolRelation

variable {relation : SymbolRelation} {size : Nat}

structure IsSquare (size : Nat) (relation : SymbolRelation) : Prop where
  count : relation.rows.length = size
  row : ∀ row ∈ relation.rows, row.size = size

theorem IsSquare.joinAt (h : relation.IsSquare size) (middle : Symbol) :
    (relation.joinAt middle).IsSquare size where
  count := (List.length_map _).trans h.count
  row joined mem := by
    obtain ⟨row, old, rfl⟩ := List.mem_map.mp mem
    split
    case isTrue through =>
      -- The row that is joined is there, since the middle is a member of another row.
      have known : middle.index < relation.rows.length := by
        rw [h.count, ← h.row row old]
        exact SymbolSet.lt_size_of_contains through
      have onward : relation.row middle ∈ relation.rows := by
        rw [SymbolRelation.row, List.getElem?_eq_getElem known]
        exact List.getElem_mem known
      rw [SymbolSet.size_union ((h.row row old).trans (h.row _ onward).symm)]
      exact h.row row old
    case isFalse => exact h.row row old

theorem IsSquare.transitive (h : relation.IsSquare size) : relation.transitive.IsSquare size :=
  List.foldlRecOn _ SymbolRelation.joinAt h fun _ held middle _ => held.joinAt middle

theorem IsSquare.reflexive (h : relation.IsSquare size) : relation.reflexive.IsSquare size where
  count := by rw [SymbolRelation.reflexive, List.length_map, List.length_zipIdx, h.count]
  row closed mem := by
    obtain ⟨⟨row, index⟩, there, rfl⟩ := List.mem_map.mp mem
    rw [SymbolSet.size_put]
    exact h.row row (List.fst_mem_of_mem_zipIdx there)

end SymbolRelation

namespace Grammar

variable {grammar : Grammar κ} {symbol : Symbol}

theorem isSquare_childRelation (grammar : Grammar κ) :
    grammar.childRelation.IsSquare grammar.size where
  count := by rw [childRelation, symbols, List.length_map, List.length_map, List.length_range]
  row row mem := by
    obtain ⟨parent, -, rfl⟩ := List.mem_map.mp mem
    exact SymbolSet.size_ofTest ..

theorem isSquare_reach (grammar : Grammar κ) : grammar.reach.IsSquare grammar.size :=
  grammar.isSquare_childRelation.transitive.reflexive

theorem size_reachable (grammar : Grammar κ) : grammar.reachable.size = grammar.size := by
  rw [reachable, SymbolSet.size_putAll, SymbolSet.size_filled]

end Grammar

theorem Search.meet_induction {P : SymbolSet → Prop} {search : Search} {demand : Demand}
    (h : P search.found)
    (put : demand.needs.all search.found.contains = true →
      P (search.found.put demand.symbol true)) :
    P (search.meet demand).found := by
  unfold meet
  split
  case isTrue needed =>
    unfold enter
    split
    · exact put needed
    · exact h
  case isFalse => exact h

namespace Demands

variable {demands : Demands}

theorem mem_all_of_mem_needing {symbol : Symbol} {demand : Demand}
    (mem : demand ∈ demands.needing symbol) : demand ∈ demands.all := by
  obtain ⟨need, -, found⟩ := List.mem_filterMap.mp mem
  exact List.mem_of_getElem? found

section Induction

variable {P : SymbolSet → Prop} (put : ∀ {set : SymbolSet} {demand : Demand},
  demand ∈ demands.all → demand.needs.all set.contains = true → P set →
    P (set.put demand.symbol true))

include put

theorem foldl_meet_induction {some : List Demand} (part : ∀ demand ∈ some, demand ∈ demands.all)
    {search : Search} (h : P search.found) : P (some.foldl Search.meet search).found :=
  List.foldlRecOn (motive := fun now : Search => P now.found) some Search.meet h
    fun _ held demand mem => Search.meet_induction held fun needed =>
      put (part demand mem) needed held

/-- What holds of a set, and is kept when a symbol comes in that demands nothing else, holds of all
that a search finds. -/
theorem search_induction {search : Search} (h : P search.found) : P (demands.search search) := by
  fun_induction Demands.search demands search with
  | case1 found => exact h
  | case2 found symbol pending ih =>
    exact ih (foldl_meet_induction put (fun _ => mem_all_of_mem_needing) h)

end Induction

end Demands

namespace Grammar

variable {grammar : Grammar κ} {symbol : Symbol}

theorem mem_all_demands {demand : Demand} :
    demand ∈ grammar.demands.all ↔ ∃ rule, .phrase rule ∈ grammar.rulesOf demand.symbol ∧
      rule.neededSymbols = demand.needs := by
  obtain ⟨symbol, needs⟩ := demand
  simp only [demands, Demands.ofList, List.mem_map, Prod.exists, mem_phraseRules, Demand.mk.injEq]
  constructor
  · rintro ⟨_, rule, mem, rfl, same⟩
    exact ⟨rule, mem, same⟩
  · rintro ⟨rule, mem, same⟩
    exact ⟨symbol, rule, mem, rfl, same⟩

/-- What holds of a set, and is kept when the symbol of a rule comes in whose needed children are
there, holds of the closure. -/
theorem closure_induction {P : SymbolSet → Prop} {set : SymbolSet} (h : P set)
    (put : ∀ {set : SymbolSet} {symbol : Symbol} {rule : PhraseRule κ},
      .phrase rule ∈ grammar.rulesOf symbol →
      (∀ child ∈ rule.neededSymbols, set.contains child = true) → P set →
      P (set.put symbol true)) : P (grammar.closure set) := by
  have demanded : ∀ {set : SymbolSet} {demand : Demand}, demand ∈ grammar.demands.all →
      demand.needs.all set.contains = true → P set → P (set.put demand.symbol true) := by
    intro set demand mem needed held
    obtain ⟨rule, present, same⟩ := mem_all_demands.mp mem
    exact put present (same ▸ List.all_eq_true.mp needed) held
  exact Demands.search_induction demanded
    (Demands.foldl_meet_induction demanded (fun _ => List.mem_of_mem_filter) h)

theorem size_closure (grammar : Grammar κ) (set : SymbolSet) :
    (grammar.closure set).size = set.size :=
  closure_induction (P := fun now => now.size = set.size) rfl
    fun _ _ held => (SymbolSet.size_put ..).trans held

theorem size_productive (grammar : Grammar κ) : grammar.productive.size = grammar.size :=
  (grammar.size_closure _).trans (SymbolSet.size_ofTest ..)

theorem of_productive (h : grammar.productive.contains symbol = true) :
    grammar.matchesEmpty symbol = true ∨ grammar.rulesOf symbol ≠ [] := by
  have all : ∀ symbol, grammar.productive.contains symbol = true →
      grammar.matchesEmpty symbol = true ∨ grammar.rulesOf symbol ≠ [] := by
    refine closure_induction (P := fun set => ∀ symbol, set.contains symbol = true →
      grammar.matchesEmpty symbol = true ∨ grammar.rulesOf symbol ≠ []) ?_ ?_
    · intro symbol mem
      rw [immediate, SymbolSet.contains_ofTest, Bool.and_eq_true, Bool.or_eq_true] at mem
      refine mem.2.imp_right fun word => ?_
      obtain ⟨rule, there, -⟩ := List.any_eq_true.mp word
      exact List.ne_nil_of_mem there
    · intro set symbol rule present _ held other mem
      rcases SymbolSet.of_contains_put mem with rfl | mem
      · exact .inr (List.ne_nil_of_mem present)
      · exact held other mem
  exact all symbol h

theorem requireUsed_ok : grammar.requireUsed = .ok () ↔
    grammar.unused.unreachable = [] ∧ grammar.unused.unproductive = [] ∧
      grammar.unused.meanings = [] ∧ grammar.unused.categories = [] := by
  have empty : grammar.requireUsed = .ok () ↔ grammar.unused.isEmpty = true := by
    simp only [requireUsed]
    generalize grammar.unused = unused
    by_cases none : unused.isEmpty = true
    · exact ⟨fun _ => none, fun _ => if_pos none⟩
    · rw [if_neg none]
      exact ⟨nofun, fun h => absurd h none⟩
  simp only [empty, Unused.isEmpty, Bool.and_eq_true, List.isEmpty_iff, and_assoc]

theorem names_eq_nil {set : SymbolSet} :
    set.members.map grammar.nameOf = [] ↔ ∀ symbol, set.contains symbol = false := by
  rw [List.map_eq_nil_iff, List.eq_nil_iff_forall_not_mem]
  simp only [SymbolSet.mem_members, Bool.not_eq_true]

theorem unreachable_eq_nil :
    grammar.unused.unreachable = [] ↔
      ∀ symbol, (grammar.reachable.complement.diff grammar.reserved).contains symbol = false := by
  simp only [unused]
  exact names_eq_nil

theorem unproductive_eq_nil :
    grammar.unused.unproductive = [] ↔
      ∀ symbol, ((grammar.productive.complement.diff grammar.reserved).inter
        grammar.reachable).contains symbol = false := by
  simp only [unused]
  exact names_eq_nil

theorem contains_reserved :
    grammar.reserved.contains symbol = true ↔
      symbol.index < grammar.size ∧ (symbol = .start ∨ symbol = .empty) := by
  rw [reserved, SymbolSet.contains_ofTest, Bool.and_eq_true, decide_eq_true_eq, Bool.or_eq_true,
    decide_eq_true_eq, decide_eq_true_eq]

variable (used : grammar.requireUsed = .ok ()) (known : symbol.index < grammar.size)
  (notStart : symbol ≠ .start) (notEmpty : symbol ≠ .empty)

include used known notStart notEmpty

theorem reachable_of_requireUsed : grammar.reachable.contains symbol = true := by
  have free : grammar.reserved.contains symbol = false := by
    rw [← Bool.not_eq_true, contains_reserved]
    exact fun h => h.2.elim notStart notEmpty
  have none := unreachable_eq_nil.mp (requireUsed_ok.mp used).1 symbol
  rw [← Bool.not_eq_true, SymbolSet.contains_diff, SymbolSet.contains_complement,
    size_reachable, reserved, SymbolSet.size_ofTest, ← reserved] at none
  rw [← Bool.not_eq_false]
  exact fun unreachable => none ⟨⟨known, unreachable⟩, known, free⟩

theorem productive_of_requireUsed : grammar.productive.contains symbol = true := by
  have free : grammar.reserved.contains symbol = false := by
    rw [← Bool.not_eq_true, contains_reserved]
    exact fun h => h.2.elim notStart notEmpty
  have none := unproductive_eq_nil.mp (requireUsed_ok.mp used).2.1 symbol
  rw [← Bool.not_eq_true, SymbolSet.contains_inter, SymbolSet.contains_diff,
    SymbolSet.contains_complement, size_productive, reserved, SymbolSet.size_ofTest,
    ← reserved] at none
  have reached := reachable_of_requireUsed used known notStart notEmpty
  rw [← Bool.not_eq_false]
  exact fun barren => none ⟨⟨⟨known, barren⟩, known, free⟩, reached⟩

theorem inhabited_of_requireUsed :
    grammar.matchesEmpty symbol = true ∨ grammar.rulesOf symbol ≠ [] :=
  of_productive (productive_of_requireUsed used known notStart notEmpty)

end Grammar

end PhraseGrammar
