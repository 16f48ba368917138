import PhraseGrammar.Proofs.Inheritance

/-! What grammars charge. Every cost in a grammar is zero, a cost that an author may declare, or a
sum of such costs; of sums no more is assumed than that they grow with what is summed. -/

namespace PhraseGrammar

open Std

variable {κ : Type}

def NoDearer [Ord κ] (a b : κ) : Prop :=
  (Ord.compare a b).isLE = true

namespace NoDearer

variable [Ord κ] [TransOrd κ] {a b c : κ}

theorem refl (a : κ) : NoDearer a a :=
  ReflOrd.isLE_rfl

theorem trans (ab : NoDearer a b) (bc : NoDearer b c) : NoDearer a c :=
  TransOrd.isLE_trans ab bc

theorem total (a b : κ) : NoDearer a b ∨ NoDearer b a := by
  unfold NoDearer
  rw [OrientedOrd.eq_swap (a := b)]
  cases Ord.compare a b
  · exact .inl rfl
  · exact .inl rfl
  · exact .inr rfl

theorem exists_least {α : Type} (cost : α → κ) {xs : List α} (some : xs ≠ []) :
    ∃ least ∈ xs, ∀ x ∈ xs, NoDearer (cost least) (cost x) := by
  induction xs with
  | nil => exact absurd rfl some
  | cons x xs ih =>
    by_cases none : xs = []
    · subst none
      exact ⟨x, List.mem_cons_self, List.forall_mem_singleton.mpr (refl _)⟩
    · obtain ⟨least, mem, below⟩ := ih none
      rcases total (cost x) (cost least) with head | tail
      · refine ⟨x, List.mem_cons_self, List.forall_mem_cons.mpr ⟨refl _, fun y mem => ?_⟩⟩
        exact head.trans (below y mem)
      · exact ⟨least, List.mem_cons_of_mem _ mem, List.forall_mem_cons.mpr ⟨tail, below⟩⟩

end NoDearer

variable [Cost κ]

theorem Filler.noDearer_of_isLE {a b : Filler κ} (h : (a.compare b).isLE = true) :
    NoDearer a.cost b.cost := by
  unfold Filler.compare compareLex compareOn at h
  unfold NoDearer
  cases order : Ord.compare a.cost b.cost with
  | lt => rfl
  | eq => rfl
  | gt =>
    rw [order] at h
    cases h

theorem Filler.noDearer_of_ne_lt [TransOrd κ] {a b : Filler κ} (h : a.compare b ≠ .lt) :
    NoDearer b.cost a.cost :=
  noDearer_of_isLE (compare_isLE_iff.mpr h)

/-- Costs that grammars come to. -/
inductive IsCharge : κ → Prop
  | zero : IsCharge 0
  | declared {cost : κ} : Cost.isAcceptable cost = true → IsCharge cost
  | add {a b : κ} : IsCharge a → IsCharge b → IsCharge (a + b)

/-- A sum of charges is no less than either of them, and grows with both. -/
structure SumsGrow (κ : Type) [Cost κ] : Prop where
  left : ∀ {a b : κ}, IsCharge a → IsCharge b → NoDearer a (a + b)
  right : ∀ {a b : κ}, IsCharge a → IsCharge b → NoDearer b (a + b)
  both : ∀ {a b c d : κ}, IsCharge a → IsCharge b → IsCharge c → IsCharge d →
    NoDearer a b → NoDearer c d → NoDearer (a + c) (b + d)

section Sums

variable {start other : κ} {costs others : List κ}

theorem IsCharge.foldl (first : IsCharge start) (all : ∀ cost ∈ costs, IsCharge cost) :
    IsCharge (costs.foldl (· + ·) start) :=
  List.foldlRecOn costs (· + ·) first fun _ held cost mem => held.add (all cost mem)

variable [TransOrd κ]

theorem SumsGrow.start_foldl (sums : SumsGrow κ) (first : IsCharge start)
    (all : ∀ cost ∈ costs, IsCharge cost) : NoDearer start (costs.foldl (· + ·) start) := by
  induction costs generalizing start with
  | nil => exact .refl start
  | cons cost rest ih =>
    obtain ⟨head, tail⟩ := List.forall_mem_cons.mp all
    exact (sums.left first head).trans (ih (first.add head) tail)

theorem SumsGrow.mem_foldl (sums : SumsGrow κ) (first : IsCharge start)
    (all : ∀ cost ∈ costs, IsCharge cost) :
    ∀ cost ∈ costs, NoDearer cost (costs.foldl (· + ·) start) := by
  induction costs generalizing start with
  | nil => exact fun _ mem => absurd mem List.not_mem_nil
  | cons cost rest ih =>
    obtain ⟨head, tail⟩ := List.forall_mem_cons.mp all
    refine List.forall_mem_cons.mpr ⟨?_, ih (first.add head) tail⟩
    exact (sums.right first head).trans (sums.start_foldl (first.add head) tail)

omit [TransOrd κ] in
theorem SumsGrow.foldl (sums : SumsGrow κ) (first : IsCharge start) (first' : IsCharge other)
    (least : NoDearer start other) (all : ∀ cost ∈ costs, IsCharge cost)
    (all' : ∀ cost ∈ others, IsCharge cost) (pairs : List.Forall₂ NoDearer costs others) :
    NoDearer (costs.foldl (· + ·) start) (others.foldl (· + ·) other) := by
  induction pairs generalizing start other with
  | nil => exact least
  | cons pair _ ih =>
    obtain ⟨head, tail⟩ := List.forall_mem_cons.mp all
    obtain ⟨head', tail'⟩ := List.forall_mem_cons.mp all'
    exact ih (first.add head) (first'.add head')
      (sums.both first first' head head' least pair) tail tail'

end Sums

namespace PhraseRule

variable {rule : PhraseRule κ} {costs others : List κ}

/-- The costs of the children, and nothing for the child that is left out: it is paid for
already. -/
def withGap (rule : PhraseRule κ) (costs : List κ) : List κ :=
  match rule.elided with
  | none => costs
  | some elided => costs.insertIdx (min elided.position costs.length) 0

/-- What a rule charges when its children are left out at some costs. -/
def charge (rule : PhraseRule κ) (costs : List κ) : κ :=
  (rule.withGap costs).foldl (· + ·) rule.cost

theorem mem_withGap {cost : κ} (mem : cost ∈ rule.withGap costs) : cost ∈ costs ∨ cost = 0 := by
  unfold withGap at mem
  split at mem
  · exact .inl mem
  · exact ((List.mem_insertIdx (Nat.min_le_right _ _)).mp mem).symm

theorem mem_withGap_of_mem {cost : κ} (mem : cost ∈ costs) : cost ∈ rule.withGap costs := by
  unfold withGap
  split
  · exact mem
  · exact (List.mem_insertIdx (Nat.min_le_right _ _)).mpr (.inr mem)

theorem forall₂_insertIdx {α β : Type} {R : α → β → Prop} {xs : List α} {ys : List β} {x : α}
    {y : β} (pairs : List.Forall₂ R xs ys) (pair : R x y) (i : Nat) :
    List.Forall₂ R (xs.insertIdx i x) (ys.insertIdx i y) := by
  induction i generalizing xs ys with
  | zero => exact .cons pair pairs
  | succ i ih =>
    cases pairs with
    | nil => exact .nil
    | cons head tail => exact .cons head (ih tail)

theorem cost_withElided (parts : List (Filler κ)) :
    (rule.withElided parts).foldl (fun cost part => cost + part.cost) rule.cost =
      rule.charge (parts.map (·.cost)) := by
  have gap : (rule.withElided parts).map (·.cost) = rule.withGap (parts.map (·.cost)) := by
    unfold withElided withGap
    cases rule.elided with
    | none => rfl
    | some elided => rw [List.map_insertIdx, List.length_map]
  rw [charge, ← gap, List.foldl_map]

theorem isCharge_charge (own : IsCharge rule.cost) (all : ∀ cost ∈ costs, IsCharge cost) :
    IsCharge (rule.charge costs) := by
  refine own.foldl fun cost mem => ?_
  rcases mem_withGap mem with mem | rfl
  · exact all cost mem
  · exact .zero

variable [TransOrd κ]

theorem noDearer_charge (sums : SumsGrow κ) (own : IsCharge rule.cost)
    (all : ∀ cost ∈ costs, IsCharge cost) : ∀ cost ∈ costs, NoDearer cost (rule.charge costs) := by
  intro cost mem
  refine sums.mem_foldl own (fun cost mem => ?_) cost (mem_withGap_of_mem mem)
  rcases mem_withGap mem with mem | rfl
  · exact all cost mem
  · exact .zero

/-- A rule charges no more when its children do. -/
theorem charge_mono (sums : SumsGrow κ) (own : IsCharge rule.cost)
    (all : ∀ cost ∈ costs, IsCharge cost) (all' : ∀ cost ∈ others, IsCharge cost)
    (pairs : List.Forall₂ NoDearer costs others) :
    NoDearer (rule.charge costs) (rule.charge others) := by
  have charges : ∀ {costs : List κ}, (∀ cost ∈ costs, IsCharge cost) →
      ∀ cost ∈ rule.withGap costs, IsCharge cost := by
    intro costs all cost mem
    rcases mem_withGap mem with mem | rfl
    · exact all cost mem
    · exact .zero
  refine sums.foldl own own (.refl _) (charges all) (charges all') ?_
  unfold withGap
  cases rule.elided with
  | none => exact pairs
  | some elided =>
    rw [pairs.length_eq]
    exact forall₂_insertIdx pairs (.refl 0) _

end PhraseRule

structure PhraseRule.Charges (rule : PhraseRule κ) : Prop where
  own : IsCharge rule.cost
  insertion : ∀ cost ∈ rule.insertionCost, IsCharge cost
  transposition : ∀ cost ∈ rule.transpositionCost, IsCharge cost

def Rule.Charges : Rule κ → Prop
  | .word rule => IsCharge rule.penalty ∧ ∀ cost ∈ rule.insertionCost, IsCharge cost
  | .phrase rule => rule.Charges

def Filler.Charges (filler : Filler κ) : Prop :=
  IsCharge filler.cost

theorem Rule.charges_of_check {grammar : Grammar κ} {name : String} {rule : Rule κ}
    (h : grammar.checkRule name rule = .ok ()) : rule.Charges := by
  cases rule with
  | word rule =>
    obtain ⟨-, penalty, insertion, -⟩ := WordRule.check_ok.mp h
    exact ⟨.declared penalty, fun cost mem => .declared (insertion cost mem)⟩
  | phrase rule =>
    obtain ⟨-, -, own, transposition, -, insertion, -⟩ := PhraseRule.check_ok.mp h
    exact ⟨.declared own, fun cost mem => .declared (insertion cost mem),
      fun cost mem => .declared (transposition cost mem)⟩

omit [Cost κ] in
theorem Slot.cost_quiet (slot : Slot) (filler : Filler κ) :
    (slot.quiet filler).cost = filler.cost := by
  unfold quiet
  split <;> rfl

theorem isCharge_gone {rule : PhraseRule κ} {vanishing : Fillers κ} (own : IsCharge rule.cost)
    (all : ∀ child ∈ rule.vanishingChildren vanishing, child.filler.Charges) :
    IsCharge ((rule.vanishingChildren vanishing).foldl
      (fun cost child => cost + child.filler.cost) rule.cost) :=
  List.foldlRecOn (motive := IsCharge) _ _ own fun _ held child mem => held.add (all child mem)

/-- All that derivation makes of rules and fillers charges sums of what they charge. -/
theorem hereditary_charges (signatures : Signatures κ) :
    Hereditary signatures Rule.Charges Filler.Charges where
  nothing := .zero
  quiet slot filler h := by
    rw [Filler.Charges, Slot.cost_quiet]
    exact h
  word {rule filler} h made := by
    obtain ⟨cost, given, rfl⟩ := Option.map_eq_some_iff.mp made
    exact (h.2 cost given).add h.1
  declared {rule item filler} h made := by
    obtain ⟨cost, given, rfl⟩ := Option.map_eq_some_iff.mp made
    exact (h.insertion cost given).add h.own
  composed {rule parts meanings} h all reduced := by
    rw [Filler.Charges, PhraseRule.cost_withElided]
    exact PhraseRule.isCharge_charge h.own (List.forall_mem_map.mpr all)
  remainder h all := ⟨isCharge_gone h.own all, h.insertion, nofun⟩
  zeroFiller h all := isCharge_gone h.own all
  eliding pair place filler h charges := ⟨h.own.add charges, nofun, nofun⟩
  swapping pair cost h declared := ⟨h.own.add (h.transposition cost declared), nofun, nofun⟩

/-- After every run all costs of rules and fillers are charges. -/
theorem Grammar.run_charges (operations : List (Operation κ)) :
    (run operations).Obeys Rule.Charges Filler.Charges := by
  refine run_induction (P := fun _ => True)
    (Q := fun grammar => grammar.Obeys Rule.Charges Filler.Charges) .new
    (fun held step => held.step Rule.charges_of_check step)
    (fun _ {_} held => held.derive (hereditary_charges _)) fun operation _ => ?_
  exact operation.supplies_true

end PhraseGrammar
