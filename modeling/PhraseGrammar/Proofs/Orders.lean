import PhraseGrammar.Cost.Float
import PhraseGrammar.Derivation.Fillers

/-! The orders of wordings, meanings, fillers and costs are linear: they are transitive, and no two
things tie. Texts and trees are spelled as lists of strings, whose order is known. Of fillers that
are offered the best one stays. -/

namespace PhraseGrammar

open Std

section Key

variable {α β : Type} {cmp : α → α → Ordering} {cmp' : β → β → Ordering} (key : α → β)

theorem transCmp_of_key [TransCmp cmp'] (same : ∀ a b, cmp a b = cmp' (key a) (key b)) :
    TransCmp cmp where
  eq_swap {a b} := by
    rw [same, same]
    exact OrientedCmp.eq_swap
  isLE_trans {a b c} ab bc := by
    rw [same] at ab bc ⊢
    exact TransCmp.isLE_trans ab bc

theorem lawfulEqCmp_of_key [LawfulEqCmp cmp'] (same : ∀ a b, cmp a b = cmp' (key a) (key b))
    (injective : ∀ a b, key a = key b → a = b) : LawfulEqCmp cmp where
  compare_self {a} := by
    rw [same]
    exact ReflCmp.compare_self
  eq_of_compare {a b} h := by
    rw [same] at h
    exact injective a b (LawfulEqCmp.eq_of_compare h)

end Key

theorem compare_cons_cons {α : Type} [Ord α] (x y : α) (xs ys : List α) :
    compare (x :: xs) (y :: ys) = (compare x y).then (compare xs ys) :=
  List.compareLex_cons_cons

namespace Wording

/-- A mark for the kind, and all texts. -/
def spelling : Wording → List String
  | .fixed text => ["0", text]
  | .verb forms => ["1", forms.oneSg, forms.threeSg, forms.pl, forms.past]
  | .pronoun forms => ["2", forms.nom, forms.obj]

theorem compare_eq_spelling (a b : Wording) :
    Ord.compare a b = Ord.compare a.spelling b.spelling := by
  cases a <;> cases b <;>
    simp only [spelling, compare_cons_cons, ReflOrd.compare_self, Ordering.then_eq,
      Ordering.eq_then] <;> rfl

theorem spelling_injective (a b : Wording) (h : a.spelling = b.spelling) : a = b := by
  rcases a with text | ⟨oneSg, threeSg, pl, past⟩ | ⟨nom, obj⟩ <;>
    rcases b with text' | ⟨oneSg', threeSg', pl', past'⟩ | ⟨nom', obj'⟩ <;>
    simp [spelling] at h ⊢ <;> exact h

instance : TransOrd Wording := transCmp_of_key spelling compare_eq_spelling

instance : LawfulEqOrd Wording :=
  lawfulEqCmp_of_key spelling compare_eq_spelling spelling_injective

end Wording

namespace Meaning

mutual

/-- A mark for the kind, the name, and the spellings of all arguments up to a mark for the end. -/
def spelling : Meaning → List String
  | .apply f args => "1" :: f :: spellingAll args
  | .argument name => ["2", name]
  | .entity category => ["3", category]

def spellingAll : List Meaning → List String
  | [] => ["0"]
  | x :: xs => spelling x ++ spellingAll xs

end

mutual

theorem compare_spelling (x y : Meaning) (u v : List String) :
    Ord.compare (x.spelling ++ u) (y.spelling ++ v) = (x.compare y).then (Ord.compare u v) := by
  match x, y with
  | .apply f xs, .apply g ys =>
    simp only [spelling, List.cons_append, compare_cons_cons, ReflOrd.compare_self,
      compare_spellingAll xs ys, compare, Ordering.then_assoc, Ordering.eq_then]
  | .apply _ _, .argument _ => rfl
  | .apply _ _, .entity _ => rfl
  | .argument _, .apply _ _ => rfl
  | .argument a, .argument b =>
    simp only [spelling, List.cons_append, List.nil_append, compare_cons_cons,
      ReflOrd.compare_self, compare, Ordering.eq_then]
  | .argument _, .entity _ => rfl
  | .entity _, .apply _ _ => rfl
  | .entity _, .argument _ => rfl
  | .entity a, .entity b =>
    simp only [spelling, List.cons_append, List.nil_append, compare_cons_cons,
      ReflOrd.compare_self, compare, Ordering.eq_then]

theorem compare_spellingAll (xs ys : List Meaning) (u v : List String) :
    Ord.compare (spellingAll xs ++ u) (spellingAll ys ++ v) =
      (compareAll xs ys).then (Ord.compare u v) := by
  match xs, ys with
  | [], [] =>
    simp only [spellingAll, List.cons_append, List.nil_append, compare_cons_cons,
      ReflOrd.compare_self, compareAll, Ordering.eq_then]
  | [], y :: _ => cases y <;> rfl
  | x :: _, [] => cases x <;> rfl
  | x :: xs, y :: ys =>
    simp only [spellingAll, List.append_assoc, compare_spelling x y, compare_spellingAll xs ys,
      compareAll, Ordering.then_assoc]

end

mutual

theorem eq_of_compare (x y : Meaning) (h : x.compare y = .eq) : x = y := by
  match x, y with
  | .apply f xs, .apply g ys =>
    rw [compare, Ordering.then_eq_eq] at h
    rw [LawfulEqOrd.eq_of_compare h.1, eq_of_compareAll xs ys h.2]
  | .apply _ _, .argument _ => exact nomatch h
  | .apply _ _, .entity _ => exact nomatch h
  | .argument _, .apply _ _ => exact nomatch h
  | .argument a, .argument b => exact congrArg _ (LawfulEqOrd.eq_of_compare h)
  | .argument _, .entity _ => exact nomatch h
  | .entity _, .apply _ _ => exact nomatch h
  | .entity _, .argument _ => exact nomatch h
  | .entity a, .entity b => exact congrArg _ (LawfulEqOrd.eq_of_compare h)

theorem eq_of_compareAll (xs ys : List Meaning) (h : compareAll xs ys = .eq) : xs = ys := by
  match xs, ys with
  | [], [] => rfl
  | [], _ :: _ => exact nomatch h
  | _ :: _, [] => exact nomatch h
  | x :: xs, y :: ys =>
    rw [compareAll, Ordering.then_eq_eq] at h
    rw [eq_of_compare x y h.1, eq_of_compareAll xs ys h.2]

end

theorem compare_eq_spelling (x y : Meaning) :
    Ord.compare x y = Ord.compare x.spelling y.spelling := by
  have same := compare_spelling x y [] []
  rw [List.append_nil, List.append_nil, ReflOrd.compare_self, Ordering.then_eq] at same
  exact same.symm

instance : TransOrd Meaning := transCmp_of_key spelling compare_eq_spelling

instance : LawfulEqOrd Meaning where
  compare_self {x} := by
    rw [compare_eq_spelling]
    exact ReflOrd.compare_self
  eq_of_compare {x y} h := eq_of_compare x y h

end Meaning

theorem floatRank_injective (x y : Float) (h : floatRank x = floatRank y) : x = y := by
  have places : x.toBits.toNat = y.toBits.toNat := by
    simp only [floatRank] at h
    split at h <;> split at h <;> omega
  have bits : x.toModel.toBits = y.toModel.toBits := UInt64.toNat_inj.mp places
  obtain ⟨⟨a, _⟩⟩ := x
  obtain ⟨⟨b, _⟩⟩ := y
  obtain rfl : a = b := bits
  rfl

instance instTransOrdFloat : TransOrd Float := inferInstanceAs (TransCmp (compareOn floatRank))

instance instLawfulEqOrdFloat : LawfulEqOrd Float where
  compare_self {x} := ReflOrd.compare_self (a := floatRank x)
  eq_of_compare {x y} h := floatRank_injective x y (LawfulEqOrd.eq_of_compare h)

section Filler

variable {κ : Type} [Cost κ]

instance [TransOrd κ] : TransOrd (Filler κ) :=
  inferInstanceAs (TransCmp (compareLex (compareOn Filler.cost)
    (compareLex (compareOn fun filler => filler.text.length)
      (compareLex (compareOn Filler.text) (compareOn Filler.meanings)))))

theorem Filler.compare_eq_eq [LawfulEqOrd κ] {a b : Filler κ} : a.compare b = .eq ↔ a = b := by
  have parts : a.compare b = .eq ↔ a.cost = b.cost ∧ a.text.length = b.text.length ∧
      a.text = b.text ∧ a.meanings = b.meanings := by
    unfold Filler.compare
    simp only [compareLex, compareOn, Ordering.then_eq_eq, Std.compare_eq_iff_eq]
  rw [parts]
  constructor
  · rintro ⟨cost, -, text, meanings⟩
    cases a
    cases b
    simp only [Filler.mk.injEq]
    exact ⟨cost, text, meanings⟩
  · rintro rfl
    exact ⟨rfl, rfl, rfl, rfl⟩

instance [LawfulEqOrd κ] : LawfulEqOrd (Filler κ) where
  compare_self := Filler.compare_eq_eq.mpr rfl
  eq_of_compare := Filler.compare_eq_eq.mp

instance [TransOrd κ] : TransCmp (Filler.compare (κ := κ)) :=
  inferInstanceAs (TransOrd (Filler κ))

/-- A filler comes before all that do not come before it. -/
theorem Filler.compare_isLE_iff [TransOrd κ] {a b : Filler κ} :
    (a.compare b).isLE = true ↔ b.compare a ≠ .lt := by
  have swapped : a.compare b = (b.compare a).swap := OrientedCmp.eq_swap
  rw [swapped, Ordering.isLE_swap]
  exact Ordering.isGE_iff_ne_lt

end Filler

namespace Filler

variable {κ : Type} [Cost κ] {fillers : List (Filler κ)} {start : Option (Filler κ)}
  {a b c : Filler κ}

theorem offer_cases (start : Option (Filler κ)) (first : Filler κ) :
    (offer start first = some first ∧ ∀ current ∈ start, first.compare current = .lt) ∨
      ∃ current ∈ start, offer start first = some current ∧ first.compare current ≠ .lt := by
  unfold offer beats
  cases start with
  | none => exact .inl ⟨rfl, nofun⟩
  | some current =>
    by_cases less : first.compare current = .lt
    · refine .inl ⟨by simp only [less, beq_self_eq_true, if_true], ?_⟩
      rintro _ ⟨⟩
      exact less
    · exact .inr ⟨current, rfl, if_neg (by rwa [beq_iff_eq]), less⟩

theorem mem_foldl_offer {best : Filler κ} (mem : best ∈ fillers.foldl offer start) :
    best ∈ start ∨ best ∈ fillers := by
  induction fillers generalizing start with
  | nil => exact .inl mem
  | cons first rest ih =>
    rcases ih mem with here | there
    · rcases offer_cases start first with ⟨taken, -⟩ | ⟨current, known, left, -⟩
      · rw [taken] at here
        exact .inr (List.mem_cons.mpr (.inl (Option.some.inj here).symm))
      · rw [left] at here
        obtain rfl := Option.some.inj here
        exact .inl known
    · exact .inr (List.mem_cons_of_mem _ there)

theorem isSome_foldl_offer (fillers : List (Filler κ)) (start : Option (Filler κ)) :
    (fillers.foldl offer start).isSome = true ↔ start.isSome = true ∨ fillers ≠ [] := by
  induction fillers generalizing start with
  | nil => exact ⟨.inl, fun h => h.elim id (absurd rfl)⟩
  | cons first rest ih =>
    have some : (offer start first).isSome = true := by
      rcases offer_cases start first with ⟨taken, -⟩ | ⟨current, -, left, -⟩
      · rw [taken]
        rfl
      · rw [left]
        rfl
    rw [List.foldl_cons, ih]
    exact ⟨fun _ => .inr (List.cons_ne_nil _ _), fun _ => .inl some⟩

theorem compare_ne_lt_self [TransOrd κ] (a : Filler κ) : a.compare a ≠ .lt :=
  compare_isLE_iff.mp ReflCmp.isLE_rfl

theorem compare_ne_lt_trans [TransOrd κ] (ab : a.compare b ≠ .lt) (bc : b.compare c ≠ .lt) :
    a.compare c ≠ .lt := by
  rw [← compare_isLE_iff] at ab bc ⊢
  exact TransCmp.isLE_trans bc ab

theorem compare_lt_of_ne [TransOrd κ] [LawfulEqOrd κ] (h : a.compare b ≠ .lt) (other : a ≠ b) :
    b.compare a = .lt := by
  have gt : Ord.compare a b = .gt := by
    cases order : Ord.compare a b with
    | lt => exact absurd order h
    | eq => exact absurd (LawfulEqOrd.eq_of_compare order) other
    | gt => rfl
  have lt : Ord.compare b a = .lt := OrientedCmp.lt_of_gt gt
  exact lt

theorem exists_mem_offer [TransOrd κ] {first : Filler κ}
    (mem : a ∈ start ∨ a = first) : ∃ best ∈ offer start first, a.compare best ≠ .lt := by
  rcases offer_cases start first with ⟨taken, less⟩ | ⟨current, known, left, least⟩
  · refine ⟨first, taken, ?_⟩
    rcases mem with old | rfl
    · exact OrientedCmp.not_lt_of_lt (less a old)
    · exact compare_ne_lt_self a
  · refine ⟨current, left, ?_⟩
    rcases mem with old | rfl
    · rw [Option.mem_unique old known]
      exact compare_ne_lt_self current
    · exact least

/-- Of several fillers one stays that none of them beats. -/
theorem exists_mem_foldl_offer [TransOrd κ] (mem : a ∈ start ∨ a ∈ fillers) :
    ∃ best ∈ fillers.foldl offer start, a.compare best ≠ .lt := by
  induction fillers generalizing start a with
  | nil => exact ⟨a, mem.resolve_right List.not_mem_nil, compare_ne_lt_self a⟩
  | cons first rest ih =>
    rw [List.mem_cons, ← or_assoc] at mem
    rcases mem with early | later
    · obtain ⟨left, there, held⟩ := exists_mem_offer early
      obtain ⟨best, mem, least⟩ := ih (.inl there)
      exact ⟨best, mem, compare_ne_lt_trans held least⟩
    · exact ih (.inr later)

end Filler

instance : TransOrd VerbForm := inferInstanceAs (TransCmp (compareOn VerbForm.ctorIdx))
instance : TransOrd PersonNumber := inferInstanceAs (TransCmp (compareOn PersonNumber.ctorIdx))
instance : TransOrd PronounCase := inferInstanceAs (TransCmp (compareOn PronounCase.ctorIdx))
instance : TransOrd Tense := inferInstanceAs (TransCmp (compareOn Tense.ctorIdx))

instance : LawfulEqOrd VerbForm where
  compare_self {a} := by cases a <;> rfl
  eq_of_compare {a b} h := by cases a <;> cases b <;> first | rfl | exact nomatch h

instance : LawfulEqOrd PersonNumber where
  compare_self {a} := by cases a <;> rfl
  eq_of_compare {a b} h := by cases a <;> cases b <;> first | rfl | exact nomatch h

instance : LawfulEqOrd PronounCase where
  compare_self {a} := by cases a <;> rfl
  eq_of_compare {a b} h := by cases a <;> cases b <;> first | rfl | exact nomatch h

instance : LawfulEqOrd Tense where
  compare_self {a} := by cases a <;> rfl
  eq_of_compare {a b} h := by cases a <;> cases b <;> first | rfl | exact nomatch h

instance : TransOrd Agreement :=
  inferInstanceAs (TransCmp (compareLex (compareOn Agreement.form)
    (compareLex (compareOn Agreement.person)
      (compareLex (compareOn Agreement.pronounCase) (compareOn Agreement.tense)))))

instance : LawfulEqOrd Agreement where
  compare_self {a} := ReflOrd.compare_self
  eq_of_compare {a b} h := by
    have parts : a.form = b.form ∧ a.person = b.person ∧ a.pronounCase = b.pronounCase ∧
        a.tense = b.tense := by
      change compareLex _ _ a b = .eq at h
      simpa only [compareLex, compareOn, Ordering.then_eq_eq, Std.compare_eq_iff_eq] using h
    cases a
    cases b
    simpa only [Agreement.mk.injEq] using parts

instance : TransCmp Slot.compareMarks :=
  inferInstanceAs (TransCmp (compareLex (compareOn Slot.optional)
    (compareLex (compareOn Slot.required) (compareOn Slot.silent))))

theorem Slot.eq_of_compareMarks {a b : Slot} (h : a.compareMarks b = .eq)
    (symbol : a.symbol = b.symbol) : a = b := by
  have parts : a.optional = b.optional ∧ a.required = b.required ∧ a.silent = b.silent := by
    simpa only [Slot.compareMarks, compareLex, compareOn, Ordering.then_eq_eq,
      Std.compare_eq_iff_eq] using h
  cases a
  cases b
  simp only [Slot.mk.injEq]
  exact ⟨symbol, parts⟩

theorem slots_eq_of_compareMarks {xs ys : List Slot}
    (h : List.compareLex Slot.compareMarks xs ys = .eq)
    (symbols : xs.map (·.symbol) = ys.map (·.symbol)) : xs = ys := by
  induction xs generalizing ys with
  | nil => exact (List.map_eq_nil_iff.mp symbols.symm).symm
  | cons x xs ih =>
    obtain ⟨y, rest, rfl, symbol, more⟩ := List.map_eq_cons_iff.mp symbols.symm
    rw [List.compareLex_cons_cons, Ordering.then_eq_eq] at h
    rw [Slot.eq_of_compareMarks h.1 symbol.symm, ih h.2 more.symm]

namespace PhraseRule

variable {κ : Type} [Cost κ]

structure IsEliding (rule : PhraseRule κ) : Prop where
  origin : rule.origin = .insertion
  elided : rule.elided.isSome = true
  unabridged : rule.unabridged = false
  transpositionCost : rule.transpositionCost = none
  insertionCost : rule.insertionCost = none

/-- The order of rules, with the fillers of elided children compared as they are. -/
def compareFully (nameOf : Symbol → String) : PhraseRule κ → PhraseRule κ → Ordering :=
  compareLex (compareOn PhraseRule.cost) <|
    compareLex (compareOn fun rule => rule.elided.map (·.filler)) <|
    compareLex (compareOn PhraseRule.meaning) <|
    compareLex (compareOn PhraseRule.text) <|
    compareLex (compareOn PhraseRule.agreement) <|
    compareLex (fun a b => List.compareLex Slot.compareMarks a.slots b.slots) <|
    compareLex (compareOn PhraseRule.requiredPositions) <|
    compareLex (compareOn fun rule => rule.elided.map (·.position))
      (compareOn fun rule => rule.elided.map fun elided => nameOf elided.symbol)

theorem compare_eq_compareFully (nameOf : Symbol → String) {a b : PhraseRule κ}
    (ha : a.elided.isSome = true) (hb : b.elided.isSome = true) :
    a.compare nameOf b = a.compareFully nameOf b := by
  obtain ⟨x, hx⟩ := Option.isSome_iff_exists.mp ha
  obtain ⟨y, hy⟩ := Option.isSome_iff_exists.mp hb
  have fillers : compareElided a.elided b.elided =
      Ord.compare (a.elided.map (·.filler)) (b.elided.map (·.filler)) := by
    rw [hx, hy]
    rfl
  simp only [PhraseRule.compare, compareFully, compareLex, fillers, compareOn]

variable [TransOrd κ]

instance : TransCmp fun a b : PhraseRule κ =>
    List.compareLex Slot.compareMarks a.slots b.slots :=
  transCmp_of_key PhraseRule.slots fun _ _ => rfl

instance (nameOf : Symbol → String) : TransCmp (compareFully (κ := κ) nameOf) := by
  unfold compareFully
  infer_instance

omit [TransOrd κ] in
/-- Two insertion rules with the same children do not tie. -/
theorem IsEliding.eq_of_compare [LawfulEqOrd κ] {nameOf : Symbol → String} {a b : PhraseRule κ}
    (ha : a.IsEliding) (hb : b.IsEliding) (symbols : a.symbols = b.symbols)
    (names : ∀ x ∈ a.elided, ∀ y ∈ b.elided,
      nameOf x.symbol = nameOf y.symbol → x.symbol = y.symbol)
    (h : a.compare nameOf b = .eq) : a = b := by
  rw [compare_eq_compareFully nameOf ha.elided hb.elided] at h
  have parts : a.cost = b.cost ∧ a.elided.map (·.filler) = b.elided.map (·.filler) ∧
      a.meaning = b.meaning ∧ a.text = b.text ∧ a.agreement = b.agreement ∧
      List.compareLex Slot.compareMarks a.slots b.slots = .eq ∧
      a.requiredPositions = b.requiredPositions ∧
      a.elided.map (·.position) = b.elided.map (·.position) ∧
      (a.elided.map fun elided => nameOf elided.symbol) =
        b.elided.map fun elided => nameOf elided.symbol := by
    simpa only [compareFully, compareLex, compareOn, Ordering.then_eq_eq, Std.compare_eq_iff_eq]
      using h
  obtain ⟨cost, fillers, meaning, text, agreement, marks, positions, places, named⟩ := parts
  have slots := slots_eq_of_compareMarks marks symbols
  obtain ⟨x, hx⟩ := Option.isSome_iff_exists.mp ha.elided
  obtain ⟨y, hy⟩ := Option.isSome_iff_exists.mp hb.elided
  have elided : a.elided = b.elided := by
    rw [hx, hy, Option.map_some, Option.map_some, Option.some.injEq] at fillers places named
    have symbol := names x hx y hy named
    rw [hx, hy]
    cases x
    cases y
    simp only [Option.some.injEq, Elided.mk.injEq]
    exact ⟨places, symbol, fillers⟩
  have origin := ha.origin.trans hb.origin.symm
  have unabridged := ha.unabridged.trans hb.unabridged.symm
  have transposition := ha.transpositionCost.trans hb.transpositionCost.symm
  have insertion := ha.insertionCost.trans hb.insertionCost.symm
  cases a
  cases b
  simp only [PhraseRule.mk.injEq]
  exact ⟨slots, cost, meaning, text, agreement, transposition, insertion, unabridged, positions,
    origin, elided⟩

end PhraseRule

end PhraseGrammar
