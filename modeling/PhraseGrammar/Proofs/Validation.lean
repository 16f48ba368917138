import PhraseGrammar.Grammar.Build

/-! What the checks of rules accept. Each check is pinned by the condition under which it
passes. -/

namespace PhraseGrammar

variable {κ : Type}

namespace Check

variable {ε α β : Type}

theorem bind_ok {x : Except ε α} {f : α → Except ε β} {b : β} :
    (x >>= f) = .ok b ↔ ∃ a, x = .ok a ∧ f a = .ok b := by
  cases x with
  | error e => exact ⟨nofun, fun ⟨_, h, _⟩ => nomatch h⟩
  | ok a => exact ⟨fun h => ⟨a, rfl, h⟩, fun ⟨_, rfl, h⟩ => h⟩

theorem then_ok {x : Except ε PUnit} {f : PUnit → Except ε β} {b : β} :
    (x >>= f) = .ok b ↔ x = .ok () ∧ f () = .ok b := by
  rw [bind_ok]
  exact ⟨fun ⟨(), h⟩ => h, fun h => ⟨(), h⟩⟩

theorem unless_ok {c : Prop} [Decidable c] {e : ε} {f : PUnit → Except ε β}
    {x : Except ε β} {b : β} :
    (if c then x else (throw e : Except ε PUnit) >>= f) = .ok b ↔ c ∧ x = .ok b := by
  by_cases h : c
  · simp only [h, if_true, true_and]
  · simp only [h, if_false, false_and, iff_false]
    exact nofun

theorem when_ok {c : Prop} [Decidable c] {e : ε} {f : PUnit → Except ε β}
    {x : Except ε β} {b : β} :
    (if c then (throw e : Except ε PUnit) >>= f else x) = .ok b ↔ ¬ c ∧ x = .ok b := by
  by_cases h : c
  · simp only [h, if_true, not_true, false_and, iff_false]
    exact nofun
  · simp only [h, if_false, not_false_eq_true, true_and]

theorem last_ok {c : Prop} [Decidable c] {e : ε} :
    (if c then throw e else pure () : Except ε PUnit) = .ok () ↔ ¬ c := by
  by_cases h : c
  · simp only [h, if_true, not_true, iff_false]
    exact nofun
  · simp only [h, if_false, not_false_eq_true, iff_true]
    rfl

theorem throw_ne_ok {e : ε} {b : β} : (throw e : Except ε β) ≠ .ok b := nofun

theorem forM_ok {f : α → Except ε PUnit} :
    (xs : List α) → (xs.forM f = .ok () ↔ ∀ x ∈ xs, f x = .ok ())
  | [] => ⟨fun _ => nofun, fun _ => rfl⟩
  | x :: xs => by
    change (f x >>= fun _ => xs.forM f) = .ok () ↔ _
    rw [then_ok, forM_ok xs, List.forall_mem_cons]

end Check

open Check

theorem requireCost_ok [Cost κ] {what : Declaration} {kind : CostKind} {cost : κ} :
    requireCost what kind cost = .ok () ↔ Cost.isAcceptable cost = true := by
  unfold requireCost
  by_cases h : Cost.isAcceptable cost = true
  · simp only [h, if_true]
  · simp only [h, if_false, reduceCtorEq, Bool.false_eq_true]

theorem requireCost?_ok [Cost κ] {what : Declaration} {kind : CostKind} {cost : Option κ} :
    requireCost? what kind cost = .ok () ↔ ∀ c ∈ cost, Cost.isAcceptable c = true := by
  cases cost with
  | none => exact ⟨fun _ => nofun, fun _ => rfl⟩
  | some c =>
    rw [requireCost?, requireCost_ok]
    exact ⟨fun h _ same => Option.some.inj same ▸ h, fun h => h c rfl⟩

namespace Grammar

theorem entryOf?_isSome {grammar : Grammar κ} {symbol : Symbol} :
    (grammar.entryOf? symbol).isSome ↔ symbol.index < grammar.size := by
  rw [entryOf?, isSome_getElem?]
  exact .rfl

theorem requireEntry_ok {grammar : Grammar κ} {symbol : Symbol} {entry : Entry κ} :
    grammar.requireEntry symbol = .ok entry ↔ grammar.entryOf? symbol = some entry := by
  unfold requireEntry
  cases grammar.entryOf? symbol with
  | none => exact ⟨nofun, nofun⟩
  | some found => simp only [Except.ok.injEq, Option.some.injEq]

theorem discard_requireEntry_ok {grammar : Grammar κ} {symbol : Symbol} :
    discard (grammar.requireEntry symbol) = .ok () ↔ symbol.index < grammar.size := by
  rw [← entryOf?_isSome]
  unfold requireEntry
  cases grammar.entryOf? symbol with
  | none => exact ⟨nofun, nofun⟩
  | some found => exact ⟨fun _ => rfl, fun _ => rfl⟩

end Grammar

section Rules

variable [Cost κ]

theorem WordRule.check_ok {rule : WordRule κ} {name : String} :
    rule.check name = .ok () ↔
      isToken rule.literal = true ∧ Cost.isAcceptable rule.penalty = true ∧
      (∀ cost ∈ rule.insertionCost, Cost.isAcceptable cost = true) ∧
      ¬ (rule.insertionCost.isSome ∧ (rule.category.isSome ∨ rule.range.isSome)) ∧
      ∀ range ∈ rule.range, range.least ≤ range.greatest := by
  unfold WordRule.check
  simp only [unless_ok, then_ok, when_ok, requireCost_ok, requireCost?_ok, Bool.and_eq_true,
    Bool.or_eq_true]
  cases rule.range with
  | none => exact and_congr_right' (and_congr_right' (and_congr_right' (and_congr_right'
      ⟨fun _ => nofun, fun _ => rfl⟩)))
  | some range =>
    simp only [last_ok, Int.not_lt, Option.mem_some_iff, forall_eq']

theorem PhraseRule.check_ok {grammar : Grammar κ} {rule : PhraseRule κ} {name : String} :
    rule.check grammar name = .ok () ↔
      (rule.slots.length = 1 ∨ rule.slots.length = 2) ∧
      (∀ symbol ∈ rule.symbols, symbol.index < grammar.size) ∧
      Cost.isAcceptable rule.cost = true ∧
      (∀ cost ∈ rule.transpositionCost, Cost.isAcceptable cost = true) ∧
      ¬ (rule.transpositionCost.isSome ∧ rule.slots.length ≠ 2) ∧
      (∀ cost ∈ rule.insertionCost, Cost.isAcceptable cost = true) ∧
      ∀ position ∈ rule.requiredPositions, position < rule.slots.length := by
  unfold PhraseRule.check
  simp only [unless_ok, then_ok, when_ok, requireCost_ok, requireCost?_ok, Bool.and_eq_true,
    forM_ok, Grammar.discard_requireEntry_ok, decide_eq_true_eq]
  have positions : (∀ position ∈ rule.requiredPositions, position < rule.slots.length) ↔
      rule.requiredPositions.find? (rule.slots.length ≤ ·) = none := by
    simp only [List.find?_eq_none, decide_eq_true_eq, Nat.not_le]
  rw [positions]
  cases rule.requiredPositions.find? (rule.slots.length ≤ ·) with
  | none => simp only [pure, Except.pure]
  | some position => simp only [reduceCtorEq, throw_ne_ok]

def Rule.Apart (rules : List (Rule κ)) : Prop :=
  rules.Pairwise fun a b => a.side ≠ b.side

namespace Grammar

variable {grammar : Grammar κ} {name : String}

theorem validate_ok {rule : Rule κ} {others : List (Rule κ)} :
    grammar.validate name rule others = .ok () ↔
      grammar.checkRule name rule = .ok () ∧ ∀ other ∈ others, other.side ≠ rule.side := by
  unfold validate
  simp only [then_ok, last_ok, List.any_eq_true, decide_eq_true_eq, not_exists, not_and, ne_eq]

/-- Rules are accepted when each passes its check, and no right-hand side is there twice. -/
theorem validateAll_ok {accepted rest rules : List (Rule κ)} :
    grammar.validateAll name accepted rest = .ok rules ↔
      rules = accepted ++ rest ∧ (∀ rule ∈ rest, grammar.checkRule name rule = .ok ()) ∧
      Rule.Apart rest ∧ ∀ a ∈ accepted, ∀ b ∈ rest, a.side ≠ b.side := by
  induction rest generalizing accepted with
  | nil =>
    rw [validateAll, Except.ok.injEq, List.append_nil]
    constructor
    · intro h
      exact ⟨h.symm, fun _ hr => absurd hr List.not_mem_nil, .nil,
        fun _ _ _ hb => absurd hb List.not_mem_nil⟩
    · intro h
      exact h.1.symm
  | cons rule rest ih =>
    rw [validateAll, then_ok, validate_ok, ih, List.append_assoc, List.singleton_append]
    constructor
    · rintro ⟨⟨checked, fresh⟩, same, restChecked, restApart, apart⟩
      have head : ∀ b ∈ rest, rule.side ≠ b.side :=
        fun b hb => apart rule (List.mem_append_right _ (List.mem_singleton_self rule)) b hb
      refine ⟨same, List.forall_mem_cons.mpr ⟨checked, restChecked⟩,
        List.pairwise_cons.mpr ⟨head, restApart⟩, fun a ha => ?_⟩
      exact List.forall_mem_cons.mpr ⟨fresh a ha, apart a (List.mem_append_left _ ha)⟩
    · rintro ⟨same, checks, restApart, apart⟩
      obtain ⟨checked, restChecked⟩ := List.forall_mem_cons.mp checks
      obtain ⟨head, restApart⟩ := List.pairwise_cons.mp restApart
      refine ⟨⟨checked, fun a ha => apart a ha rule List.mem_cons_self⟩, same, restChecked,
        restApart, fun a ha b hb => ?_⟩
      rcases List.mem_append.mp ha with ha | ha
      · exact apart a ha b (List.mem_cons_of_mem _ hb)
      · rw [List.mem_singleton.mp ha]
        exact head b hb

end Grammar

end Rules

end PhraseGrammar
