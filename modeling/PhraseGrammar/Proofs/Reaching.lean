import Mathlib.Logic.Relation
import PhraseGrammar.Proofs.Auditing
import PhraseGrammar.Proofs.Consistency

/-! What the search for reachable symbols finds: a symbol reaches another exactly when a chain of
children leads from the one to the other. -/

namespace PhraseGrammar

variable {κ : Type}

namespace SymbolRelation

variable {relation : SymbolRelation} {size : Nat} {middle a b : Symbol}

def Holds (relation : SymbolRelation) (a b : Symbol) : Prop :=
  relation.relates a b = true

theorem holds_iff : relation.Holds a b ↔ ∃ row, relation.rows[a.index]? = some row ∧
    row.contains b = true := by
  unfold Holds relates row
  cases relation.rows[a.index]? with
  | none => exact ⟨nofun, nofun⟩
  | some row => exact ⟨fun mem => ⟨row, rfl, mem⟩, fun ⟨_, same, mem⟩ => Option.some.inj same ▸ mem⟩

theorem IsSquare.lt_of_holds (h : relation.IsSquare size) (holds : relation.Holds a b) :
    a.index < size ∧ b.index < size := by
  obtain ⟨row, found, mem⟩ := holds_iff.mp holds
  obtain ⟨inside, rfl⟩ := List.getElem?_eq_some_iff.mp found
  refine ⟨h.count ▸ inside, ?_⟩
  rw [← h.row _ (List.getElem_mem inside)]
  exact SymbolSet.lt_size_of_contains mem

theorem IsSquare.holds_joinAt (h : relation.IsSquare size) :
    (relation.joinAt middle).Holds a b ↔
      relation.Holds a b ∨ relation.Holds a middle ∧ relation.Holds middle b := by
  rw [holds_iff, holds_iff, holds_iff, SymbolRelation.joinAt, List.getElem?_map]
  cases found : relation.rows[a.index]? with
  | none =>
    constructor
    · rintro ⟨_, same, -⟩
      cases same
    · rintro (⟨_, same, -⟩ | ⟨⟨_, same, -⟩, -⟩)
      · cases same
      · cases same
  | some row =>
    simp only [Option.map_some, Option.some.injEq, exists_eq_left']
    split
    case isTrue through =>
      have old := h.row row (List.mem_of_getElem? found)
      have known : middle.index < relation.rows.length := by
        rw [h.count, ← old]
        exact SymbolSet.lt_size_of_contains through
      have onward : (relation.row middle).size = size := by
        rw [SymbolRelation.row, List.getElem?_eq_getElem known]
        exact h.row _ (List.getElem_mem known)
      rw [SymbolSet.contains_union (old.trans onward.symm), and_iff_right through]
      exact Iff.rfl
    case isFalse apart =>
      exact ⟨.inl, fun reached => reached.resolve_right fun onward => apart onward.1⟩

/-- Two steps that meet at a symbol make one. -/
def JoinsAt (relation : SymbolRelation) (middle : Symbol) : Prop :=
  ∀ a b, relation.Holds a middle → relation.Holds middle b → relation.Holds a b

theorem IsSquare.joinsAt_joinAt (h : relation.IsSquare size) (middle : Symbol) :
    (relation.joinAt middle).JoinsAt middle := by
  intro a b before after
  rw [h.holds_joinAt] at before after ⊢
  exact .inr ⟨before.elim id And.left, after.elim id And.right⟩

theorem IsSquare.joinsAt_of_joinsAt (h : relation.IsSquare size) {other : Symbol}
    (joins : relation.JoinsAt other) : (relation.joinAt middle).JoinsAt other := by
  intro a b before after
  rw [h.holds_joinAt] at before after ⊢
  rcases before with before | ⟨enter, before⟩
  · rcases after with after | ⟨after, leave⟩
    · exact .inl (joins a b before after)
    · exact .inr ⟨joins a middle before after, leave⟩
  · rcases after with after | ⟨-, leave⟩
    · exact .inr ⟨enter, joins middle b before after⟩
    · exact .inr ⟨enter, leave⟩

/-- What holds of a relation and is kept at every join holds of the joined one. -/
theorem transitive_induction {P : SymbolRelation → Prop} (h : P relation)
    (join : ∀ {relation : SymbolRelation} (middle : Symbol), P relation →
      P (relation.joinAt middle)) : P relation.transitive :=
  List.foldlRecOn _ SymbolRelation.joinAt h fun _ held middle _ => join middle held

/-- After all joins, two steps make one wherever they meet. -/
theorem IsSquare.joinsAt_transitive (h : relation.IsSquare size) (middle : Symbol) :
    relation.transitive.JoinsAt middle := by
  have folds : ∀ (middles : List Symbol) {relation : SymbolRelation}, relation.IsSquare size →
      (middle ∈ middles ∨ relation.JoinsAt middle) →
        (middles.foldl SymbolRelation.joinAt relation).JoinsAt middle := by
    intro middles
    induction middles with
    | nil => exact fun _ joins => joins.resolve_left List.not_mem_nil
    | cons first rest ih =>
      intro relation square joins
      refine ih (square.joinAt first) ?_
      rcases joins with mem | joins
      · rcases List.mem_cons.mp mem with rfl | mem
        · exact .inr (square.joinsAt_joinAt middle)
        · exact .inl mem
      · exact .inr (square.joinsAt_of_joinsAt joins)
  intro a b before after
  refine folds _ h (.inl ?_) a b before after
  have known := (h.transitive.lt_of_holds before).2
  exact List.mem_map.mpr ⟨middle.index, List.mem_range.mpr (h.count ▸ known), rfl⟩

theorem IsSquare.holds_transitive (h : relation.IsSquare size) :
    relation.transitive.Holds a b ↔ Relation.TransGen relation.Holds a b := by
  constructor
  · have paths : relation.transitive.IsSquare size ∧ ∀ a b, relation.transitive.Holds a b →
        Relation.TransGen relation.Holds a b := by
      refine transitive_induction (P := fun joined => joined.IsSquare size ∧
        ∀ a b, joined.Holds a b → Relation.TransGen relation.Holds a b)
        ⟨h, fun _ _ => .single⟩ fun middle ⟨square, path⟩ => ⟨square.joinAt middle, ?_⟩
      intro a b holds
      rcases square.holds_joinAt.mp holds with holds | ⟨before, after⟩
      · exact path a b holds
      · exact (path a middle before).trans (path middle b after)
    exact paths.2 a b
  · have wider : relation.transitive.IsSquare size ∧ ∀ a b, relation.Holds a b →
        relation.transitive.Holds a b :=
      transitive_induction (P := fun joined => joined.IsSquare size ∧
        ∀ a b, relation.Holds a b → joined.Holds a b) ⟨h, fun _ _ => id⟩
        fun middle ⟨square, wide⟩ => ⟨square.joinAt middle, fun a b holds =>
          square.holds_joinAt.mpr (.inl (wide a b holds))⟩
    intro path
    induction path with
    | single step => exact wider.2 _ _ step
    | @tail between last _ step ih => exact h.joinsAt_transitive between _ _ ih (wider.2 _ _ step)

theorem IsSquare.holds_reflexive (h : relation.IsSquare size) :
    relation.reflexive.Holds a b ↔ a = b ∧ a.index < size ∨ relation.Holds a b := by
  rw [holds_iff, holds_iff, SymbolRelation.reflexive, List.getElem?_map, List.getElem?_zipIdx,
    ← h.count]
  cases found : relation.rows[a.index]? with
  | none =>
    have outside := List.getElem?_eq_none_iff.mp found
    constructor
    · rintro ⟨_, same, -⟩
      cases same
    · rintro (⟨-, inside⟩ | ⟨_, same, -⟩)
      · exact absurd inside (Nat.not_lt.mpr outside)
      · cases same
  | some row =>
    have inside := (List.getElem?_eq_some_iff.mp found).1
    have known : a.index < row.size := by
      rw [h.row row (List.mem_of_getElem? found)]
      exact h.count ▸ inside
    simp only [Option.map_some, Option.some.injEq, exists_eq_left', Nat.zero_add]
    rw [SymbolSet.contains_put known, and_iff_left inside, eq_comm (a := a)]

end SymbolRelation

namespace Grammar

variable {grammar : Grammar κ} {a b symbol : Symbol}

def HasChild (grammar : Grammar κ) (parent child : Symbol) : Prop :=
  child ∈ grammar.childrenOf parent

theorem mem_childrenOf {parent child : Symbol} :
    child ∈ grammar.childrenOf parent ↔ child ∈ grammar.vanishedOf parent ∨
      ∃ rule, .phrase rule ∈ grammar.rulesOf parent ∧ child ∈ rule.symbols := by
  rw [childrenOf, List.mem_append, List.mem_flatMap]
  refine or_congr_right ⟨?_, fun ⟨rule, mem, child⟩ => ⟨_, mem, child⟩⟩
  rintro ⟨word | rule, mem, child⟩
  · exact absurd child List.not_mem_nil
  · exact ⟨rule, mem, child⟩

theorem holds_childRelation :
    grammar.childRelation.Holds a b ↔
      a.index < grammar.size ∧ b.index < grammar.size ∧ grammar.HasChild a b := by
  rw [SymbolRelation.holds_iff, childRelation, symbols, List.map_map, List.getElem?_map]
  by_cases inside : a.index < grammar.size
  · rw [List.getElem?_range inside]
    simp only [Option.map_some, Option.some.injEq, exists_eq_left', Function.comp_apply,
      SymbolSet.contains_ofTest, Bool.and_eq_true, decide_eq_true_eq, List.contains_iff_mem,
      inside, true_and, HasChild]
  · rw [List.getElem?_eq_none (by rw [List.length_range]; exact Nat.le_of_not_lt inside)]
    constructor
    · rintro ⟨_, same, -⟩
      cases same
    · exact fun h => absurd h.1 inside

theorem IsSound.lt_of_hasChild (h : grammar.IsSound) (child : grammar.HasChild a b) :
    a.index < grammar.size ∧ b.index < grammar.size := by
  rcases mem_childrenOf.mp child with gone | ⟨rule, mem, child⟩
  · unfold vanishedOf at gone
    cases found : grammar.entryOf? a with
    | none =>
      rw [found] at gone
      exact absurd gone List.not_mem_nil
    | some entry =>
      rw [found] at gone
      exact ⟨entryOf?_isSome.mp (found ▸ rfl), ((h.entry found).vanished b gone).1⟩
  · exact ⟨lt_size_of_mem_rulesOf mem, PhraseRule.IsSound.children (h.rule mem) b child⟩

/-- A symbol of the grammar reaches itself and whatever a chain of children leads to. -/
theorem IsSound.holds_reach (h : grammar.IsSound) :
    grammar.reach.Holds a b ↔
      a.index < grammar.size ∧ Relation.ReflTransGen grammar.HasChild a b := by
  have square := grammar.isSquare_childRelation
  have edges : grammar.childRelation.Holds = grammar.HasChild := by
    funext a b
    rw [holds_childRelation, ← and_assoc, and_iff_right_iff_imp.mpr h.lt_of_hasChild]
  rw [reach, square.transitive.holds_reflexive, square.holds_transitive, edges,
    Relation.reflTransGen_iff_eq_or_transGen, and_or_left, and_comm, eq_comm (a := a)]
  refine or_congr_right ⟨fun path => ⟨?_, path⟩, And.right⟩
  obtain ⟨next, step, -⟩ := Relation.TransGen.head'_iff.mp path
  exact (h.lt_of_hasChild step).1

theorem reachable_contains_iff :
    grammar.reachable.contains symbol = true ↔ grammar.reach.Holds .start symbol := by
  have row : ∀ symbol ∈ (grammar.reach.row .start).members,
      symbol.index < (SymbolSet.filled grammar.size false).size := by
    intro symbol mem
    rw [SymbolSet.size_filled]
    exact (grammar.isSquare_reach.lt_of_holds (SymbolSet.mem_members.mp mem)).2
  rw [reachable, SymbolSet.contains_putAll row, SymbolSet.contains_filled, Bool.and_false,
    SymbolSet.mem_members]
  exact or_iff_left Bool.false_ne_true

theorem IsSound.reachable_contains (h : grammar.IsSound) :
    grammar.reachable.contains symbol = true ↔
      Relation.ReflTransGen grammar.HasChild .start symbol :=
  reachable_contains_iff.trans (h.holds_reach.trans (and_iff_right h.start_lt))

/-- One step down from a symbol: to a child of one of its rules, or to one that vanished from
them. -/
inductive StepsTo (grammar : Grammar κ) (parent child : Symbol) : Prop
  | child {rule : PhraseRule κ} : .phrase rule ∈ grammar.rulesOf parent → child ∈ rule.symbols →
      grammar.StepsTo parent child
  | vanished : child ∈ grammar.vanishedOf parent → grammar.StepsTo parent child

theorem hasChild_eq_stepsTo (grammar : Grammar κ) : grammar.HasChild = grammar.StepsTo := by
  funext parent child
  refine propext (mem_childrenOf.trans ⟨?_, ?_⟩)
  · rintro (gone | ⟨rule, mem, child⟩)
    · exact .vanished gone
    · exact .child mem child
  · rintro (⟨mem, child⟩ | gone)
    · exact .inr ⟨_, mem, child⟩
    · exact .inl gone

/-- Of every run, a symbol of the grammar is found to reach exactly those to which steps down lead
from it, itself among them. Its row lists them in ascending order, and the reachable symbols are
those in the row of the start symbol. -/
theorem run_reach_exact [Cost κ] (operations : List (Operation κ)) :
    (∀ a b, (run operations).reach.relates a b = true ↔
      a.index < (run operations).size ∧ Relation.ReflTransGen (run operations).StepsTo a b) ∧
    (∀ a, ((run operations).reach.row a).members.Pairwise (fun b c => b.index < c.index) ∧
      ∀ b, b ∈ ((run operations).reach.row a).members ↔
        a.index < (run operations).size ∧ Relation.ReflTransGen (run operations).StepsTo a b) ∧
    ∀ symbol, (run operations).reachable.contains symbol = true ↔
      symbol ∈ ((run operations).reach.row .start).members := by
  have reaches : ∀ a b, (run operations).reach.relates a b = true ↔
      a.index < (run operations).size ∧ Relation.ReflTransGen (run operations).StepsTo a b := by
    intro a b
    rw [← hasChild_eq_stepsTo]
    exact (IsSound.run operations).holds_reach
  refine ⟨reaches, fun a => ⟨SymbolSet.ascending_members _, fun b => ?_⟩, fun symbol => ?_⟩
  · exact SymbolSet.mem_members.trans (reaches a b)
  · exact reachable_contains_iff.trans SymbolSet.mem_members.symm

end Grammar

end PhraseGrammar
