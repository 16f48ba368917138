import Mathlib.Logic.Relation
import PhraseGrammar.Cost.Exact
import PhraseGrammar.Proofs.Building
import PhraseGrammar.Proofs.Orders

/-! Composed meanings are canonical. A commutative function keeps its arguments in ascending order,
and no two meanings tie; so of all trees that differ in the order of such arguments only one is ever
composed. -/

namespace PhraseGrammar

open Std

variable {κ : Type}

def Meaning.Ascending (meanings : List Meaning) : Prop :=
  meanings.Pairwise fun a b => (Ord.compare a b).isLE = true

instance (meanings : List Meaning) : Decidable (Meaning.Ascending meanings) :=
  inferInstanceAs (Decidable (List.Pairwise _ meanings))

namespace Signatures

variable {signatures grown : Signatures κ} {signature : Signature κ} {name : String}
  {args xs ys : List Meaning} {meaning function a b : Meaning}

theorem arrange_perm (signature : Signature κ) (args : List Meaning) :
    (arrange signature args).Perm args := by
  unfold arrange
  split
  · exact List.mergeSort_perm args _
  · exact .refl args

theorem ascending_arrange (commutative : signature.commutative = true) (args : List Meaning) :
    Meaning.Ascending (arrange signature args) := by
  rw [arrange, if_pos commutative]
  refine List.pairwise_mergeSort (fun a b c => ?_) (fun a b => ?_) args
  · exact TransOrd.isLE_trans
  · rw [Bool.or_eq_true, OrientedOrd.eq_swap (a := b)]
    cases Ord.compare a b
    · exact .inl rfl
    · exact .inl rfl
    · exact .inr rfl

theorem arrange_eq_self (ascending : signature.commutative = true → Meaning.Ascending args) :
    arrange signature args = args := by
  unfold arrange
  split
  case isTrue commutative => exact List.mergeSort_of_pairwise (ascending commutative)
  case isFalse => rfl

theorem arrange_eq_of_perm (commutative : signature.commutative = true) (perm : xs.Perm ys)
    (ascending : Meaning.Ascending ys) : arrange signature xs = ys :=
  List.Perm.eq_of_pairwise
    (fun _ _ _ _ ab ba => LawfulEqOrd.eq_of_compare (OrientedCmp.isLE_antisymm ab ba))
    (ascending_arrange commutative xs) ascending ((arrange_perm signature xs).trans perm)

/-- The order in which arguments are given to a commutative function leaves no trace, and nothing
else of them is lost. -/
theorem arrange_eq_iff_perm (commutative : signature.commutative = true) :
    arrange signature xs = arrange signature ys ↔ xs.Perm ys := by
  constructor
  · intro same
    exact (arrange_perm signature xs).symm.trans (same ▸ arrange_perm signature ys)
  · intro perm
    exact arrange_eq_of_perm commutative (perm.trans (arrange_perm signature ys).symm)
      (ascending_arrange commutative ys)

inductive Grows [Cost κ] : Signatures κ → Signatures κ → Prop
  | function {signatures grown : Signatures κ} {name : String} {cost : κ} {least greatest : Nat}
      {commutative : Bool} {meaning : Meaning} :
      signatures.declareFunction name cost least greatest commutative = .ok (grown, meaning) →
      Grows signatures grown
  | argument {signatures grown : Signatures κ} {name : String} {cost : κ} {meaning : Meaning} :
      signatures.declareArgument name cost = .ok (grown, meaning) → Grows signatures grown

def KeptBy (signatures grown : Signatures κ) : Prop :=
  ∀ name signature, signatures.get? name = some signature → grown.get? name = some signature

theorem KeptBy.refl (signatures : Signatures κ) : signatures.KeptBy signatures :=
  fun _ _ found => found

theorem KeptBy.trans {later : Signatures κ} (first : signatures.KeptBy grown)
    (second : grown.KeptBy later) : signatures.KeptBy later :=
  fun name signature found => second name signature (first name signature found)

theorem keptBy_insert (fresh : signatures.contains name = false) (signature : Signature κ) :
    signatures.KeptBy (Table.insert signatures name signature) := by
  intro other old found
  have apart : other ≠ name := by
    rintro rfl
    rw [Table.contains_eq_isSome, found] at fresh
    cases fresh
  rw [Table.get?_insert, if_neg apart, found]

theorem Grows.keptBy [Cost κ] (h : Grows signatures grown) : signatures.KeptBy grown := by
  cases h with
  | function declared =>
    obtain ⟨fresh, rfl⟩ := declareFunction_ok declared
    exact keptBy_insert fresh _
  | argument declared =>
    obtain ⟨fresh, rfl⟩ := declareArgument_ok declared
    exact keptBy_insert fresh _

theorem keptBy_of_grows [Cost κ] (h : Relation.ReflTransGen Grows signatures grown) :
    signatures.KeptBy grown := by
  induction h with
  | refl => exact .refl signatures
  | tail _ last ih => exact ih.trans last.keptBy

theorem function?_eq_some :
    signatures.function? name = some signature ↔
      signatures.get? name = some signature ∧ signature.isArgument = false := by
  rw [function?, Option.filter_eq_some_iff, Bool.not_eq_true']

theorem KeptBy.function? (h : signatures.KeptBy grown)
    (found : signatures.function? name = some signature) :
    grown.function? name = some signature := by
  obtain ⟨there, function⟩ := function?_eq_some.mp found
  exact function?_eq_some.mpr ⟨h name signature there, function⟩

/-- A composition that is accepted is accepted when more is declared, and gives the same. -/
theorem KeptBy.compose (kept : signatures.KeptBy grown)
    (h : signatures.compose function args = .ok meaning) :
    grown.compose function args = .ok meaning := by
  obtain ⟨name, signature, waiting, found, rest⟩ := compose_eq_ok.mp h
  exact compose_eq_ok.mpr ⟨name, signature, waiting, kept.function? found, rest⟩

/-- The trees that are made of declared arguments, of entities, of functions that wait for
arguments and of accepted compositions. A tree that is made stays so when more is declared. -/
inductive Makes [Cost κ] : Signatures κ → Meaning → Prop
  | argument {signatures : Signatures κ} {name : String} {signature : Signature κ} :
      signatures.get? name = some signature → signature.isArgument = true →
      Makes signatures (.argument name)
  | entity {signatures : Signatures κ} (category : String) : Makes signatures (.entity category)
  | waiting {signatures : Signatures κ} (name : String) : Makes signatures (.apply name [])
  | compose {signatures : Signatures κ} {function meaning : Meaning} {args : List Meaning} :
      (∀ arg ∈ args, Makes signatures arg) → signatures.compose function args = .ok meaning →
      Makes signatures meaning
  | later {signatures grown : Signatures κ} {meaning : Meaning} :
      Makes signatures meaning → Grows signatures grown → Makes grown meaning

def Takes (signatures : Signatures κ) (name : String) (args : List Meaning) : Prop :=
  ∃ signature, signatures.function? name = some signature ∧ signature.least ≤ args.length ∧
    args.length ≤ signature.greatest ∧
    (signature.commutative = true → Meaning.Ascending args)

/-- Every function in a tree takes the arguments that it has; it may still wait for them. -/
inductive Admits (signatures : Signatures κ) : Meaning → Prop
  | waiting (name : String) : Admits signatures (.apply name [])
  | apply {name : String} {args : List Meaning} : signatures.Takes name args →
      (∀ arg ∈ args, Admits signatures arg) → Admits signatures (.apply name args)
  | argument (name : String) : Admits signatures (.argument name)
  | entity (category : String) : Admits signatures (.entity category)

theorem Takes.mono (kept : signatures.KeptBy grown) (h : signatures.Takes name args) :
    grown.Takes name args := by
  obtain ⟨signature, found, bounds⟩ := h
  exact ⟨signature, kept.function? found, bounds⟩

namespace Admits

theorem mono (kept : signatures.KeptBy grown) (h : signatures.Admits meaning) :
    grown.Admits meaning := by
  induction h with
  | waiting name => exact .waiting name
  | apply takes _ ih => exact .apply (takes.mono kept) ih
  | argument name => exact .argument name
  | entity category => exact .entity category

theorem compose (all : ∀ arg ∈ args, signatures.Admits arg)
    (h : signatures.compose function args = .ok meaning) : signatures.Admits meaning := by
  obtain ⟨name, signature, -, found, least, greatest, rfl⟩ := compose_eq_ok.mp h
  have perm := arrange_perm signature args
  refine .apply ⟨signature, found, ?_, ?_, fun commutative => ?_⟩ fun arg mem => ?_
  · exact perm.length_eq ▸ least
  · exact perm.length_eq ▸ greatest
  · exact ascending_arrange commutative args
  · exact all arg (perm.mem_iff.mp mem)

end Admits

theorem Makes.admits [Cost κ] (h : signatures.Makes meaning) : signatures.Admits meaning := by
  induction h with
  | argument => exact .argument _
  | entity category => exact .entity category
  | waiting name => exact .waiting name
  | compose _ composed ih => exact .compose ih composed
  | later _ grows ih => exact ih.mono grows.keptBy

inductive Permutes (signatures : Signatures κ) : Meaning → Meaning → Prop
  | here {name : String} {signature : Signature κ} {xs ys : List Meaning} :
      signatures.function? name = some signature → signature.commutative = true → xs.Perm ys →
      Permutes signatures (.apply name xs) (.apply name ys)
  | inside {name : String} {before after : List Meaning} {x y : Meaning} :
      Permutes signatures x y →
      Permutes signatures (.apply name (before ++ x :: after)) (.apply name (before ++ y :: after))

/-- One tree is another one with the arguments of any number of commutative functions permuted. -/
abbrev Rearranges (signatures : Signatures κ) : Meaning → Meaning → Prop :=
  Relation.ReflTransGen signatures.Permutes

def arrangeFor (signatures : Signatures κ) (name : String) (args : List Meaning) : List Meaning :=
  ((signatures.function? name).map fun signature => arrange signature args).getD args

mutual

/-- The tree with the arguments of all commutative functions in ascending order. -/
def arranged (signatures : Signatures κ) : Meaning → Meaning
  | .apply name args => .apply name (signatures.arrangeFor name (arrangedAll signatures args))
  | .argument name => .argument name
  | .entity category => .entity category

def arrangedAll (signatures : Signatures κ) : List Meaning → List Meaning
  | [] => []
  | x :: xs => arranged signatures x :: arrangedAll signatures xs

end

theorem arrangedAll_eq_map (signatures : Signatures κ) (args : List Meaning) :
    signatures.arrangedAll args = args.map signatures.arranged := by
  induction args with
  | nil => rfl
  | cons x xs ih => rw [arrangedAll, ih, List.map_cons]

theorem Permutes.arranged_eq (h : signatures.Permutes a b) :
    signatures.arranged a = signatures.arranged b := by
  induction h with
  | here found commutative perm =>
    have inner := perm.map signatures.arranged
    simp only [arranged, arrangedAll_eq_map, arrangeFor, found, Option.map_some, Option.getD_some]
    rw [(arrange_eq_iff_perm commutative).mpr inner]
  | inside _ ih => simp only [arranged, arrangedAll_eq_map, List.map_append, List.map_cons, ih]

theorem Rearranges.arranged_eq (h : signatures.Rearranges a b) :
    signatures.arranged a = signatures.arranged b := by
  induction h with
  | refl => rfl
  | tail _ last ih => exact ih.trans last.arranged_eq

theorem Admits.arranged_eq_self (h : signatures.Admits meaning) :
    signatures.arranged meaning = meaning := by
  induction h with
  | waiting name =>
    rw [arranged, arrangedAll, arrangeFor]
    cases signatures.function? name with
    | none => rfl
    | some signature =>
      rw [Option.map_some, Option.getD_some, arrange_eq_self fun _ => List.Pairwise.nil]
  | @apply name args takes _ ih =>
    obtain ⟨signature, found, -, -, ascending⟩ := takes
    have inner : args.map signatures.arranged = args :=
      (List.map_congr_left ih).trans (List.map_id args)
    rw [arranged, arrangedAll_eq_map, inner, arrangeFor, found, Option.map_some, Option.getD_some,
      arrange_eq_self ascending]
  | argument name => rfl
  | entity category => rfl

/-- Two compositions with one function are equal when the arguments are: up to their order for a
commutative function, and as they stand for any other. -/
theorem composed_eq_iff {x y : Meaning} (first : signatures.compose function xs = .ok x)
    (second : signatures.compose function ys = .ok y) :
    ∃ name signature, function = .apply name [] ∧ signatures.function? name = some signature ∧
      (x = y ↔ if signature.commutative then xs.Perm ys else xs = ys) := by
  obtain ⟨name, signature, rfl, found, -, -, rfl⟩ := compose_eq_ok.mp first
  obtain ⟨_, _, same, found', -, -, rfl⟩ := compose_eq_ok.mp second
  obtain ⟨rfl, -⟩ := Meaning.apply.inj same
  obtain rfl := Option.some.inj (found.symm.trans found')
  refine ⟨name, signature, rfl, found, ?_⟩
  rw [Meaning.apply.injEq, and_iff_right rfl]
  split
  case isTrue commutative => exact arrange_eq_iff_perm commutative
  case isFalse ordered => rw [arrange, arrange, if_neg ordered, if_neg ordered]

/-- Trees that are made of declared parts and of compositions are canonical: rearranged ones are
equal. So two compositions with one function, the second perhaps when more is declared, are equal
just when their arguments are, up to order if the function is commutative. -/
theorem makes_canonical [Cost κ] (signatures : Signatures κ) :
    (∀ a b, signatures.Makes a → signatures.Makes b → (signatures.Rearranges a b ↔ a = b)) ∧
      ∀ grown function xs ys x y, Relation.ReflTransGen Grows signatures grown →
        signatures.compose function xs = .ok x → grown.compose function ys = .ok y →
        ∃ name signature, function = .apply name [] ∧ grown.function? name = some signature ∧
          (x = y ↔ if signature.commutative then xs.Perm ys else xs = ys) := by
  refine ⟨fun a b made made' => ⟨fun rearranged => ?_, ?_⟩, ?_⟩
  · rw [← made.admits.arranged_eq_self, rearranged.arranged_eq, made'.admits.arranged_eq_self]
  · rintro rfl
    exact .refl
  · intro grown function xs ys x y grows first second
    exact composed_eq_iff ((keptBy_of_grows grows).compose first) second

def unions : Signatures ℚ≥0 :=
  Table.ofList [("union", ⟨0, 1, 2, true, false⟩), ("before", ⟨0, 2, 2, false, false⟩),
    ("a", ⟨0, 0, 0, false, true⟩), ("b", ⟨0, 0, 0, false, true⟩)]

theorem compose_unions {signatures : Signatures ℚ≥0} (kept : unions.KeptBy signatures)
    {args : List Meaning} (perm : args.Perm [.argument "a", .argument "b"]) :
    signatures.compose (.apply "union" []) args =
      .ok (.apply "union" [.argument "a", .argument "b"]) := by
  have found : unions.function? "union" = some ⟨0, 1, 2, true, false⟩ := by decide +kernel
  refine compose_eq_ok.mpr ⟨"union", _, rfl, kept.function? found, ?_, ?_, ?_⟩
  · exact perm.length_eq ▸ (by decide)
  · exact perm.length_eq ▸ (by decide)
  · rw [arrange_eq_of_perm rfl perm (by decide)]

/-- A third argument is declared between two unions of the other ones, which are equal. What comes
before a union is no rearrangement of what comes after it. -/
theorem unions_canonical :
    (∃ grown name signature, unions.declareArgument "c" 0 = .ok (grown, .argument "c") ∧
      unions.compose (.apply "union" []) [.argument "b", .argument "a"] =
        .ok (.apply "union" [.argument "a", .argument "b"]) ∧
      grown.compose (.apply "union" []) [.argument "a", .argument "b"] =
        .ok (.apply "union" [.argument "a", .argument "b"]) ∧
      grown.function? name = some signature ∧
      if signature.commutative then
        [Meaning.argument "b", .argument "a"].Perm [.argument "a", .argument "b"]
      else [Meaning.argument "b", .argument "a"] = [.argument "a", .argument "b"]) ∧
    ¬ unions.Rearranges
      (.apply "before" [.argument "a", .apply "union" [.argument "a", .argument "b"]])
      (.apply "before" [.apply "union" [.argument "a", .argument "b"], .argument "a"]) := by
  obtain ⟨canonical, composed⟩ := makes_canonical unions
  constructor
  · have declared : unions.declareArgument "c" 0 =
        .ok (Table.insert unions "c" ⟨0, 0, 0, false, true⟩, .argument "c") := by decide +kernel
    have grows : Grows unions (Table.insert unions "c" ⟨0, 0, 0, false, true⟩) := .argument declared
    have first := compose_unions (.refl unions) (.swap (Meaning.argument "a") (.argument "b") [])
    have second := compose_unions grows.keptBy (.refl _)
    obtain ⟨name, signature, -, found, same⟩ := composed _ _ _ _ _ _ (.single grows) first second
    exact ⟨_, name, signature, declared, first, second, found, same.mp rfl⟩
  · have arguments : ∀ name ∈ ["a", "b"], unions.Makes (.argument name) := by
      intro name mem
      have found : unions.get? name = some ⟨0, 0, 0, false, true⟩ := by
        revert name
        decide +kernel
      exact .argument found rfl
    have a := arguments "a" (by decide)
    have union : unions.Makes (.apply "union" [.argument "a", .argument "b"]) := by
      refine .compose ?_ (compose_unions (.refl unions) (.refl _))
      exact List.forall_mem_cons.mpr ⟨a, List.forall_mem_singleton.mpr (arguments "b" (by decide))⟩
    have before : unions.Makes
        (.apply "before" [.argument "a", .apply "union" [.argument "a", .argument "b"]]) := by
      have composed : unions.compose (.apply "before" [])
          [.argument "a", .apply "union" [.argument "a", .argument "b"]] = .ok _ := rfl
      exact .compose (List.forall_mem_cons.mpr ⟨a, List.forall_mem_singleton.mpr union⟩) composed
    have after : unions.Makes
        (.apply "before" [.apply "union" [.argument "a", .argument "b"], .argument "a"]) := by
      have composed : unions.compose (.apply "before" [])
          [.apply "union" [.argument "a", .argument "b"], .argument "a"] = .ok _ := rfl
      exact .compose (List.forall_mem_cons.mpr ⟨union, List.forall_mem_singleton.mpr a⟩) composed
    rw [canonical _ _ before after]
    decide +kernel

end Signatures

end PhraseGrammar
