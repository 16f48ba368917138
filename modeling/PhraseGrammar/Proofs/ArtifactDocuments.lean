import PhraseGrammar.Cost.Float
import PhraseGrammar.Proofs.Recovering
import PhraseGrammar.Proofs.WrittenCosts

/-! Documents give back the artifacts that were written in them. -/

namespace PhraseGrammar

open Reader

variable {κ : Type}

def IntRange.quantities (range : IntRange) : List (Quantity κ) :=
  [.bound range.least, .bound range.greatest]

def ArtifactElided.quantities (elided : ArtifactElided κ) : List (Quantity κ) :=
  [.count elided.position, .cost elided.filler.cost]

def ArtifactRule.quantities (rule : ArtifactRule κ) : List (Quantity κ) :=
  [.cost rule.cost] ++
  rule.insertionCost.toList.map .cost ++
  rule.transpositionCost.toList.map .cost ++
  rule.elided.toList.flatMap ArtifactElided.quantities ++
  rule.optionalPositions.map .count ++
  rule.silentPositions.map .count ++
  rule.range.toList.flatMap IntRange.quantities

def Signature.quantities (signature : Signature κ) : List (Quantity κ) :=
  [.cost signature.cost, .count signature.least, .count signature.greatest]

def Artifact.quantities (artifact : Artifact κ) : List (Quantity κ) :=
  artifact.rules.entries.flatMap (fun entry => entry.2.flatMap ArtifactRule.quantities) ++
  artifact.signatures.entries.flatMap fun entry => entry.2.quantities

variable [WrittenCost κ]

section

variable {names : List String} {members : List (String × Json)}

theorem exactTexts?_record :
    exactTexts? names (Json.record members) =
      if members.length = names.length then
        names.mapM fun name => (members.lookup name).bind Json.text?
      else none := by
  simp only [exactTexts?, Json.record, named_map_some, Option.bind_eq_bind, Option.bind_some]

end

theorem verbForms?_toJson (forms : VerbForms) :
    verbForms? (Wording.verb forms).toJson = some forms := by
  simp [verbForms?, Wording.toJson, exactTexts?_record, Table.lookup_cons_eq_ite, Json.text,
    Json.text?]

theorem pronounForms?_toJson (forms : PronounForms) :
    pronounForms? (Wording.pronoun forms).toJson = some forms := by
  simp [pronounForms?, Wording.toJson, exactTexts?_record, Table.lookup_cons_eq_ite, Json.text,
    Json.text?]

theorem verbForms?_pronoun_toJson (forms : PronounForms) :
    verbForms? (Wording.pronoun forms).toJson = none := by
  simp [verbForms?, Wording.toJson, exactTexts?_record]

theorem wording_toJson {x : Wording} (inflected : ∀ shown, x ≠ .fixed shown) (below : Nat) :
    wording (below + 1) x.toJson =
      ((verbForms? x.toJson).map .verb).or ((pronounForms? x.toJson).map .pronoun) := by
  cases x with
  | fixed shown => exact absurd rfl (inflected shown)
  | verb | pronoun => exact wording.eq_2 _ _ nofun

theorem depth_wording (x : Wording) : x.toJson.depth ≤ 1 := by
  cases x <;> simp [Wording.toJson]

theorem recovers_wording : Recovers (κ := κ) wording Wording.toJson Unquantified where
  plain x := by
    cases x with
    | fixed shown => exact .string shown
    | verb forms | pronoun forms =>
      refine Json.isPlain_record fun member mem => ?_
      simp only [List.mem_cons, List.not_mem_nil, or_false] at mem
      rcases mem with rfl | rfl | rfl | rfl <;> exact .string _
  reads {level x} _ _ deep := by
    cases x with
    | fixed shown => rfl
    | verb forms =>
      obtain ⟨below, rfl, -⟩ := Json.exists_level_of_record deep
      rw [wording_toJson (x := .verb forms) nofun, verbForms?_toJson]
      rfl
    | pronoun forms =>
      obtain ⟨below, rfl, -⟩ := Json.exists_level_of_record deep
      rw [wording_toJson (x := .pronoun forms) nofun, verbForms?_pronoun_toJson,
        pronounForms?_toJson]
      rfl
  writable {level value x} h := by
    refine ⟨trivial, ?_⟩
    unfold wording at h
    split at h
    · obtain ⟨shown, -, rfl⟩ := Option.map_eq_some_iff.mp h
      exact Nat.zero_le _
    · exact Nat.le_trans (depth_wording x) (Nat.succ_le_succ (Nat.zero_le _))
    · nomatch h
  rejectsNull level := by cases level <;> rfl

theorem Meaning.toJsonAll_eq_map (xs : List Meaning) :
    Meaning.toJsonAll xs = xs.map Meaning.toJson := by
  induction xs with
  | nil => rfl
  | cons x xs ih => rw [Meaning.toJsonAll, ih, List.map_cons]

theorem fields?_apply (f : String) (items : List Json) :
    fields? ["function", "args"]
        (Json.record [("function", Json.text f), ("args", .array items)]) =
      some [("function", Json.text f), ("args", .array items)] :=
  fields?_record (List.Sublist.refl _) (by decide)

theorem meaning_apply (level : Nat) (f : String) (items : List Json) :
    meaning (level + 3) (Json.record [("apply",
        Json.record [("function", Json.text f), ("args", .array items)])]) =
      (items.mapM (meaning level)).map (.apply f) := by
  refine (meaning.eq_3 level _).trans ?_
  rw [fields?_apply]
  simp [Table.lookup_cons_eq_ite, Reader.required, text, Json.text, Json.text?]

theorem meaning_toJson {level : Nat} {x : Meaning} (deep : x.toJson.depth ≤ level) :
    meaning level x.toJson = some x := by
  induction level using Nat.strongRecOn generalizing x with
  | ind level ih =>
    cases x with
    | argument name | entity name =>
      obtain ⟨below, rfl, -⟩ := Json.exists_level_of_record deep
      rfl
    | apply f args =>
      rw [Meaning.toJson, Meaning.toJsonAll_eq_map] at deep ⊢
      obtain ⟨outer, rfl, inOuter⟩ := Json.exists_level_of_record deep
      obtain ⟨inner, rfl, inInner⟩ := Json.exists_level_of_record (inOuter _ (.head _))
      obtain ⟨below, rfl, within⟩ :=
        Json.exists_level_of_array (inInner ("args", _) (.tail _ (.head _)))
      rw [List.forall_mem_map] at within
      rw [meaning_apply, mapM_map_eq_some fun x mem => ih below (by omega) (within x mem)]
      rfl

theorem depth_toJson_of_meaning {level : Nat} {value : Json} {x : Meaning}
    (h : meaning level value = some x) : x.toJson.depth ≤ level := by
  induction level using Nat.strongRecOn generalizing value x with
  | ind level ih =>
    unfold meaning at h
    split at h
    case h_1 | h_2 =>
      obtain ⟨name, -, rfl⟩ := Option.map_eq_some_iff.mp h
      simp [Meaning.toJson]
    case h_3 below value =>
      simp only [Option.bind_eq_bind, Option.bind_eq_some_iff] at h
      obtain ⟨fields, -, f, -, h⟩ := h
      split at h
      · obtain ⟨args, found, rfl⟩ := Option.map_eq_some_iff.mp h
        have within : ∀ x ∈ args, x.toJson.depth ≤ below := fun x mem => by
          obtain ⟨item, -, here⟩ := exists_of_mem_mapM found x mem
          exact ih below (by omega) here
        rw [Meaning.toJson, Meaning.toJsonAll_eq_map]
        simpa using within
      · nomatch h
    case h_4 => nomatch h

mutual

theorem isPlain_meaning : (x : Meaning) → x.toJson.IsPlain
  | .apply f args => by
    have inner : ∀ member ∈ [("function", Json.text f), ("args", .array (Meaning.toJsonAll args))],
        member.2.IsPlain :=
      List.forall_mem_cons.mpr ⟨.string f,
        List.forall_mem_singleton.mpr (.array (isPlain_meanings args))⟩
    exact Json.isPlain_record (List.forall_mem_singleton.mpr (Json.isPlain_record inner))
  | .argument name | .entity name =>
    Json.isPlain_record (List.forall_mem_singleton.mpr (.string name))

theorem isPlain_meanings : (xs : List Meaning) → ∀ y ∈ Meaning.toJsonAll xs, y.IsPlain
  | [] => nofun
  | x :: xs => List.forall_mem_cons.mpr ⟨isPlain_meaning x, isPlain_meanings xs⟩

end

theorem recovers_meaning : Recovers (κ := κ) meaning Meaning.toJson Unquantified where
  plain := isPlain_meaning
  reads _ _ deep := meaning_toJson deep
  writable h := ⟨trivial, depth_toJson_of_meaning h⟩
  rejectsNull level := meaning.eq_4 level .null nofun nofun nofun

theorem recovers_range :
    Recovers range IntRange.toJson (fun P x => ∀ q ∈ x.quantities (κ := κ), P q) :=
  (recovers_bound.two recovers_bound (by decide) IntRange.mk (·.least) (·.greatest)
    (fun _ => rfl) fun _ _ => ⟨rfl, rfl⟩).congr
    fun _ _ => by simp [IntRange.quantities]

theorem recovers_entity : Recovers (κ := κ) entity Entity.toJson Unquantified :=
  (recovers_text.two recovers_text.list (by decide) Entity.mk (·.display) (·.names)
    (fun _ => rfl) fun _ _ => ⟨rfl, rfl⟩).congr
    fun _ _ => iff_of_true ⟨trivial, fun _ _ => trivial⟩ trivial

theorem recovers_category : Recovers (κ := κ) category Category.toJson Unquantified :=
  (recovers_text.two recovers_entity.list (by decide) Category.mk (·.symbol) (·.entities)
    (fun _ => rfl) fun _ _ => ⟨rfl, rfl⟩).congr
    fun _ _ => iff_of_true ⟨trivial, fun _ _ => trivial⟩ trivial

variable [LawfulWrittenCost κ]

theorem recovers_elided :
    Recovers (κ := κ) elided ArtifactElided.toJson (fun P x => ∀ q ∈ x.quantities, P q) where
  plain x := by
    refine Json.isPlain_record ?_
    simp only [List.forall_mem_append, Json.forall_mem_always, Json.forall_mem_whenAny]
    exact ⟨⟨⟨⟨recovers_natural (κ := κ).plain _, .string _⟩, recovers_cost.plain _⟩,
      fun _ => recovers_wording (κ := κ).list.plain _⟩,
      fun _ => recovers_meaning (κ := κ).list.plain _⟩
  reads {level x} written back deep := by
    simp only [ArtifactElided.toJson, List.append_assoc] at deep ⊢
    refine reads_record ?inOrder (by decide) deep fun below fields same within => ?_
    case inOrder =>
      repeat' apply Json.names_append
      all_goals simp only [Json.names_always, Json.names_whenAny]
    simp only [ArtifactElided.quantities, List.forall_mem_cons] at written back
    have position : required natural below fields "index" = some x.position :=
      recovers_natural.required within (by simp [same, List.lookup_append]) written.1 back.1
    have symbol : required text below fields "symbol" = some x.symbol :=
      recovers_text (κ := κ).required within (by simp [same, List.lookup_append]) trivial trivial
    have cost : required cost below fields "cost" = some x.filler.cost :=
      recovers_cost.required within (by simp [same, List.lookup_append]) written.2.1 back.2.1
    have texts : optional (list wording) [] below fields "text" = some x.filler.text :=
      recovers_wording (κ := κ).optionalList within (by simp [same, List.lookup_append])
        (fun _ _ => trivial) fun _ _ => trivial
    have meanings : optional (list meaning) [] below fields "semantics" = some x.filler.meanings :=
      recovers_meaning (κ := κ).optionalList within (by simp [same, List.lookup_append])
        (fun _ _ => trivial) fun _ _ => trivial
    simp only [position, symbol, cost, texts, meanings, Option.bind_eq_bind, Option.bind_some,
      Option.pure_def]
  writable {level value x} h := by
    obtain ⟨below, fields, rfl, found⟩ := exists_of_record h
    simp only [Option.bind_eq_bind, Option.bind_eq_some_iff, Option.pure_def,
      Option.some.injEq] at found
    obtain ⟨position, foundPosition, _, -, price, foundCost, texts, foundTexts, meanings,
      foundMeanings, rfl⟩ := found
    have position := recovers_natural (κ := κ).of_required foundPosition
    have price := recovers_cost.of_required foundCost
    have texts := recovers_wording (κ := κ).of_optionalList foundTexts
    have meanings := recovers_meaning (κ := κ).of_optionalList foundMeanings
    constructor
    · simp [ArtifactElided.quantities, position.1, price.1]
    · rw [ArtifactElided.toJson, Json.depth_record_le]
      simp only [List.forall_mem_append, Json.forall_mem_always, Json.forall_mem_whenAny]
      refine ⟨⟨⟨⟨?_, ?_⟩, ?_⟩, texts.2⟩, meanings.2⟩ <;> simp
  rejectsNull := record_null

theorem recovers_signature :
    Recovers (κ := κ) signature Signature.toJson (fun P x => ∀ q ∈ x.quantities, P q) where
  plain x := by
    refine Json.isPlain_record ?_
    simp only [List.forall_mem_append, Json.forall_mem_always, Json.forall_mem_whenSet]
    exact ⟨⟨⟨⟨recovers_cost.plain _, recovers_natural (κ := κ).plain _⟩,
      recovers_natural (κ := κ).plain _⟩, fun _ => .bool _⟩, fun _ => .bool _⟩
  reads {level x} written back deep := by
    simp only [Signature.toJson, List.append_assoc] at deep ⊢
    refine reads_record ?inOrder (by decide) deep fun below fields same within => ?_
    case inOrder =>
      repeat' apply Json.names_append
      all_goals simp only [Json.names_always, Json.names_whenSet]
    simp only [Signature.quantities, List.forall_mem_cons] at written back
    have cost : required cost below fields "cost" = some x.cost :=
      recovers_cost.required within (by simp [same, List.lookup_append]) written.1 back.1
    have least : optional natural 0 below fields "minParams" = some x.least :=
      recovers_natural.optional within (.inl (by simp [same, List.lookup_append])) written.2.1
        back.2.1
    have greatest : optional natural 0 below fields "maxParams" = some x.greatest :=
      recovers_natural.optional within (.inl (by simp [same, List.lookup_append])) written.2.2.1
        back.2.2.1
    have commutative : optional flag false below fields "commutative" = some x.commutative :=
      optional_flag (by simp [same, List.lookup_append])
    have isArgument : optional flag false below fields "isArg" = some x.isArgument :=
      optional_flag (by simp [same, List.lookup_append])
    simp only [cost, least, greatest, commutative, isArgument, Option.bind_eq_bind,
      Option.bind_some, Option.pure_def]
  writable {level value x} h := by
    obtain ⟨below, fields, rfl, found⟩ := exists_of_record h
    simp only [Option.bind_eq_bind, Option.bind_eq_some_iff, Option.pure_def,
      Option.some.injEq] at found
    obtain ⟨cost, foundCost, least, foundLeast, greatest, foundGreatest, _, -, _, -, rfl⟩ := found
    have cost := recovers_cost.of_required foundCost
    have small : ∀ {n : Nat} {name : String}, optional natural 0 below fields name = some n →
        n < Numeral.wordCount := fun found =>
      (recovers_natural (κ := κ).of_optional found).elim (fun none => none ▸ by decide) (·.1)
    constructor
    · simp only [Signature.quantities, List.forall_mem_cons]
      exact ⟨cost.1, small foundLeast, small foundGreatest, List.forall_mem_nil _⟩
    · rw [Signature.toJson, Json.depth_record_le]
      simp only [List.forall_mem_append, Json.forall_mem_always, Json.forall_mem_whenSet]
      simp
  rejectsNull := record_null

theorem spelled_tense (x : Tense) : Tense.names.ofWord? (Tense.names.wordOf x) = some x := by
  cases x <;> rfl

theorem spelled_form (x : VerbForm) :
    VerbForm.names.ofWord? (VerbForm.names.wordOf x) = some x := by
  cases x <;> rfl

theorem spelled_person (x : PersonNumber) :
    PersonNumber.names.ofWord? (PersonNumber.names.wordOf x) = some x := by
  cases x <;> rfl

theorem spelled_case (x : PronounCase) :
    PronounCase.names.ofWord? (PronounCase.names.wordOf x) = some x := by
  cases x <;> rfl

theorem spelled_origin (x : Origin) : Origin.names.ofWord? (Origin.names.wordOf x) = some x := by
  cases x <;> rfl

omit [WrittenCost κ] [LawfulWrittenCost κ] in
theorem agreement_of_lookup {level : Nat} {fields : List (String × Json)} {x : Agreement}
    (form : fields.lookup "grammaticalForm" = x.form.map (Json.ofName VerbForm.names))
    (person : fields.lookup "personNumber" = x.person.map (Json.ofName PersonNumber.names))
    (pronounCase : fields.lookup "grammaticalCase" =
      x.pronounCase.map (Json.ofName PronounCase.names))
    (tense : fields.lookup "acceptedTense" = x.tense.map (Json.ofName Tense.names)) :
    agreement level fields = some x := by
  simp only [agreement, maybe_word (fun y _ => spelled_form y) form,
    maybe_word (fun y _ => spelled_person y) person,
    maybe_word (fun y _ => spelled_case y) pronounCase,
    maybe_word (fun y _ => spelled_tense y) tense, Option.bind_eq_bind, Option.bind_some,
    Option.pure_def]

theorem isPlain_rule (x : ArtifactRule κ) : x.toJson.IsPlain := by
  refine Json.isPlain_record ?_
  simp only [List.forall_mem_append, Json.forall_mem_always, Json.forall_mem_whenSet,
    Json.forall_mem_whenAny, Json.forall_mem_whenSome, Json.forall_mem_unless, and_assoc]
  have costs : ∀ c : κ, (Json.ofCost c).IsPlain := recovers_cost.plain
  have naturals := (recovers_natural (κ := κ)).list.plain
  exact ⟨fun _ => .bool _, recovers_text (κ := κ).list.plain _, costs _,
    fun _ => recovers_wording (κ := κ).list.plain _, fun _ _ => .string _, fun _ _ => costs _,
    fun _ _ => isPlain_meaning _, fun _ _ => .string _, fun _ _ => .string _,
    fun _ _ => .string _, fun _ _ => .string _, fun _ _ => costs _, fun _ => .string _,
    fun _ _ => recovers_elided.plain _, fun _ => naturals _, fun _ => naturals _,
    fun _ _ => .string _, fun _ _ => recovers_range (κ := κ).plain _⟩

theorem rule_toJson {level : Nat} {x : ArtifactRule κ}
    (written : ∀ q ∈ x.quantities, q.IsWritable) (back : ∀ q ∈ x.quantities, q.ReadsBack)
    (deep : x.toJson.depth ≤ level) : rule level x.toJson = some x := by
  simp only [ArtifactRule.toJson, List.append_assoc] at deep ⊢
  refine reads_record ?inOrder (by decide) deep fun below fields same within => ?_
  case inOrder =>
    repeat' apply Json.names_append
    all_goals simp only [Json.names_always, Json.names_whenSome, Json.names_whenAny,
      Json.names_whenSet, Json.names_unless]
  simp only [ArtifactRule.quantities, List.forall_mem_append, List.forall_mem_singleton,
    List.forall_mem_map, List.forall_mem_flatMap, Option.mem_toList, and_assoc] at written back
  obtain ⟨costWritten, insertionWritten, transpositionWritten, elidedWritten, optionalWritten,
    silentWritten, rangeWritten⟩ := written
  obtain ⟨costBack, insertionBack, transpositionBack, elidedBack, optionalBack, silentBack,
    rangeBack⟩ := back
  have isWord : optional flag false below fields "isTerminal" = some x.isWord :=
    optional_flag (by simp [same, List.lookup_append])
  have side : required (list text) below fields "rhs" = some x.side :=
    recovers_text (κ := κ).list.required within (by simp [same, List.lookup_append]; rfl)
      (fun _ _ => trivial) fun _ _ => trivial
  have price : required cost below fields "cost" = some x.cost :=
    recovers_cost.required within (by simp [same, List.lookup_append]) costWritten costBack
  have texts : optional (list wording) [] below fields "text" = some x.text :=
    recovers_wording (κ := κ).optionalList within (by simp [same, List.lookup_append])
      (fun _ _ => trivial) fun _ _ => trivial
  have tense : maybe (word Tense.names) below fields "tense" = some x.tense :=
    maybe_word (fun y _ => spelled_tense y) (by simp [same, List.lookup_append])
  have insertionCost : maybe cost below fields "insertionCost" = some x.insertionCost :=
    recovers_cost.maybe within (by simp [same, List.lookup_append]) insertionWritten insertionBack
  have meanings : maybe meaning below fields "semantic" = some x.meaning :=
    recovers_meaning (κ := κ).maybe within (by simp [same, List.lookup_append])
      (fun _ _ => trivial) fun _ _ => trivial
  have shape : agreement below fields = some x.agreement :=
    agreement_of_lookup (by simp [same, List.lookup_append])
      (by simp [same, List.lookup_append]) (by simp [same, List.lookup_append])
      (by simp [same, List.lookup_append])
  have transpositionCost : maybe cost below fields "transpositionCost" =
      some x.transpositionCost :=
    recovers_cost.maybe within (by simp [same, List.lookup_append]) transpositionWritten
      transpositionBack
  have origin : optional (word Origin.names) .authored below fields "origin" =
      some x.origin :=
    optional_word (spelled_origin _) (by simp [same, List.lookup_append])
  have insertion : maybe elided below fields "insertion" = some x.elided :=
    recovers_elided.maybe within (by simp [same, List.lookup_append]) elidedWritten elidedBack
  have optionalPositions : optional (list natural) [] below fields "optionalIndexes" =
      some x.optionalPositions :=
    recovers_natural.optionalList within (by simp [same, List.lookup_append]) optionalWritten
      optionalBack
  have silentPositions : optional (list natural) [] below fields "noTextIndexes" =
      some x.silentPositions :=
    recovers_natural.optionalList within (by simp [same, List.lookup_append]) silentWritten
      silentBack
  have category : maybe text below fields "entity" = some x.category :=
    recovers_text (κ := κ).maybe within (by simp [same, List.lookup_append])
      (fun _ _ => trivial) fun _ _ => trivial
  have bounds : maybe range below fields "intRange" = some x.range :=
    recovers_range.maybe within (by simp [same, List.lookup_append]) rangeWritten rangeBack
  simp only [isWord, side, price, texts, tense, insertionCost, meanings, shape, transpositionCost,
    origin, insertion, optionalPositions, silentPositions, category, bounds, Option.bind_eq_bind,
    Option.bind_some, Option.pure_def]

theorem writable_of_rule {level : Nat} {value : Json} {x : ArtifactRule κ}
    (h : rule level value = some x) :
    (∀ q ∈ x.quantities, q.IsWritable) ∧ x.toJson.depth ≤ level := by
  obtain ⟨below, fields, rfl, found⟩ := exists_of_record h
  obtain ⟨_, -, found⟩ := Option.bind_eq_some_iff.mp found
  obtain ⟨side, foundSide, found⟩ := Option.bind_eq_some_iff.mp found
  obtain ⟨price, foundCost, found⟩ := Option.bind_eq_some_iff.mp found
  obtain ⟨texts, foundTexts, found⟩ := Option.bind_eq_some_iff.mp found
  obtain ⟨_, -, found⟩ := Option.bind_eq_some_iff.mp found
  obtain ⟨insertionCost, foundInsertion, found⟩ := Option.bind_eq_some_iff.mp found
  obtain ⟨shown, foundMeaning, found⟩ := Option.bind_eq_some_iff.mp found
  obtain ⟨_, -, found⟩ := Option.bind_eq_some_iff.mp found
  obtain ⟨transpositionCost, foundTransposition, found⟩ := Option.bind_eq_some_iff.mp found
  obtain ⟨_, -, found⟩ := Option.bind_eq_some_iff.mp found
  obtain ⟨left, foundElided, found⟩ := Option.bind_eq_some_iff.mp found
  obtain ⟨optionalPositions, foundOptional, found⟩ := Option.bind_eq_some_iff.mp found
  obtain ⟨silentPositions, foundSilent, found⟩ := Option.bind_eq_some_iff.mp found
  obtain ⟨_, -, found⟩ := Option.bind_eq_some_iff.mp found
  obtain ⟨bounds, foundRange, found⟩ := Option.bind_eq_some_iff.mp found
  obtain rfl := Option.some.inj found
  have side := recovers_text (κ := κ).list.of_required foundSide
  have price := recovers_cost.of_required foundCost
  have texts := recovers_wording (κ := κ).of_optionalList foundTexts
  have insertionCost := recovers_cost.of_maybe foundInsertion
  have shown := recovers_meaning (κ := κ).of_maybe foundMeaning
  have transpositionCost := recovers_cost.of_maybe foundTransposition
  have left := recovers_elided.of_maybe foundElided
  have optionalPositions := recovers_natural (κ := κ).of_optionalList foundOptional
  have silentPositions := recovers_natural (κ := κ).of_optionalList foundSilent
  have bounds := recovers_range (κ := κ).of_maybe foundRange
  constructor
  · simp only [ArtifactRule.quantities, List.forall_mem_append, List.forall_mem_singleton,
      List.forall_mem_map, List.forall_mem_flatMap, Option.mem_toList, and_assoc]
    exact ⟨price.1, fun c mem => (insertionCost c mem).1,
      fun c mem => (transpositionCost c mem).1, fun y mem => (left y mem).1,
      optionalPositions.1, silentPositions.1, fun y mem => (bounds y mem).1⟩
  · rw [ArtifactRule.toJson, Json.depth_record_le]
    simp only [List.forall_mem_append, Json.forall_mem_always, Json.forall_mem_whenSet,
      Json.forall_mem_whenAny, Json.forall_mem_whenSome, Json.forall_mem_unless, and_assoc]
    exact ⟨fun _ => Nat.zero_le _, side.2, price.2, texts.2, fun _ _ => Nat.zero_le _,
      fun c mem => (insertionCost c mem).2, fun y mem => (shown y mem).2,
      fun _ _ => Nat.zero_le _, fun _ _ => Nat.zero_le _, fun _ _ => Nat.zero_le _,
      fun _ _ => Nat.zero_le _, fun c mem => (transpositionCost c mem).2,
      fun _ => Nat.zero_le _, fun y mem => (left y mem).2, optionalPositions.2,
      silentPositions.2, fun _ _ => Nat.zero_le _, fun y mem => (bounds y mem).2⟩

theorem recovers_rule :
    Recovers (κ := κ) rule ArtifactRule.toJson (fun P x => ∀ q ∈ x.quantities, P q) where
  plain := isPlain_rule
  reads := rule_toJson
  writable := writable_of_rule
  rejectsNull := record_null

section

omit [WrittenCost κ] [LawfulWrittenCost κ]

variable {α : Type} {encode : α → Json} {level : Nat}

theorem depth_empty (made : Table α) (deep : (Json.ofTable encode made).depth ≤ level) {β : Type}
    (other : β → Json) : (Json.ofTable other .empty).depth ≤ level := by
  obtain ⟨below, rfl, -⟩ := Json.exists_level_of_record deep
  exact Json.depth_record_le.mpr nofun

end

theorem recovers_artifact :
    Recovers (κ := κ) artifact Artifact.toJson (fun P x => ∀ q ∈ x.quantities, P q) where
  plain x := by
    refine Json.isPlain_record ?_
    simp only [List.forall_mem_cons]
    exact ⟨.string _, recovers_rule.list.table.plain _, recovers_signature.table.plain _,
      recovers_category (κ := κ).table.plain _, nofun⟩
  reads {level x} written back deep := by
    refine reads_record (List.Sublist.refl _) (by decide) deep fun below fields same within => ?_
    simp only [Artifact.quantities, List.forall_mem_append, List.forall_mem_flatMap] at written back
    have start : required text below fields "startSymbol" = some x.start :=
      recovers_text (κ := κ).required within (by simp [same]) trivial trivial
    have rules : required (table (list rule)) below fields "grammar" = some x.rules :=
      recovers_rule.list.table.required within (by simp [same, Table.lookup_cons_eq_ite])
        written.1 back.1
    have signatures : optional (table signature) .empty below fields "semantics" =
        some x.signatures :=
      recovers_signature.table.optional within
        (.inl (by simp [same, Table.lookup_cons_eq_ite])) written.2 back.2
    have categories : optional (table category) .empty below fields "entities" =
        some x.categories :=
      recovers_category (κ := κ).table.optional within
        (.inl (by simp [same, Table.lookup_cons_eq_ite])) (fun _ _ => trivial) fun _ _ => trivial
    simp only [start, rules, signatures, categories, Option.bind_eq_bind, Option.bind_some,
      Option.pure_def]
  writable {level value x} h := by
    obtain ⟨below, fields, rfl, found⟩ := exists_of_record h
    simp only [Option.bind_eq_bind, Option.bind_eq_some_iff, Option.pure_def,
      Option.some.injEq] at found
    obtain ⟨start, -, rules, foundRules, signatures, foundSignatures, categories,
      foundCategories, rfl⟩ := found
    have rules := recovers_rule.list.table.of_required foundRules
    have signatures := recovers_signature.table.of_optional foundSignatures
    have categories := recovers_category (κ := κ).table.of_optional foundCategories
    constructor
    · simp only [Artifact.quantities, List.forall_mem_append, List.forall_mem_flatMap]
      exact ⟨rules.1, signatures.elim (fun none => none ▸ nofun) (·.1)⟩
    · rw [Artifact.toJson, Json.depth_record_le]
      simp only [List.forall_mem_cons]
      exact ⟨Nat.zero_le _, rules.2,
        signatures.elim (fun none => none ▸ depth_empty _ rules.2 _) (·.2),
        categories.elim (fun none => none ▸ depth_empty _ rules.2 _) (·.2), nofun⟩
  rejectsNull := record_null

namespace Artifact

variable {artifact : Artifact κ} {text : String}

omit [LawfulWrittenCost κ] in
theorem read_eq_ok :
    read text = .ok artifact ↔
      (Json.parse? text).bind (Reader.artifact levels) = some artifact := by
  unfold read
  split <;> simp [*]

/-- An artifact whose numbers can be written is read back from what is written. -/
theorem read_write_of_writable (layout : JsonLayout)
    (writable : ∀ q ∈ artifact.quantities, q.IsWritable)
    (back : ∀ q ∈ artifact.quantities, q.ReadsBack)
    (deep : artifact.toJson.depth ≤ levels) :
    read (artifact.write layout) = .ok artifact := by
  rw [read_eq_ok, write, Json.parse?_render (recovers_artifact.plain artifact)]
  exact recovers_artifact.reads writable back deep

/-- What was read can be written, and is no deeper than a reader goes. -/
theorem writable_of_read (h : read text = .ok artifact) :
    (∀ q ∈ artifact.quantities, q.IsWritable) ∧ artifact.toJson.depth ≤ levels := by
  obtain ⟨value, -, found⟩ := Option.bind_eq_some_iff.mp (read_eq_ok.mp h)
  exact recovers_artifact.writable found

end Artifact

instance : LawfulWrittenCost Float where
  isDecimal := isDecimal_documentNumeral?
  isSome := isSome_documentNumeral?_of_toFloat?

namespace Quantity

/-- A count is a word and an end of a range a signed word, as machine numbers are; a cost is
finite. -/
def IsFinite : Quantity Float → Prop
  | .count n => n < Numeral.wordCount
  | .bound k => -(Numeral.wordCount : Int) ≤ 2 * k ∧ 2 * k < Numeral.wordCount
  | .cost c => c.isFinite = true

instance : DecidablePred IsFinite
  | .count n => inferInstanceAs (Decidable (n < Numeral.wordCount))
  | .bound k => inferInstanceAs (Decidable (_ ∧ 2 * k < (Numeral.wordCount : Int)))
  | .cost c => inferInstanceAs (Decidable (c.isFinite = true))

theorem IsFinite.isWritable {q : Quantity Float} (finite : q.IsFinite) : q.IsWritable := by
  cases q with
  | count n | bound k => exact finite
  | cost c => exact (isSome_documentNumeral? c).trans finite

end Quantity

/-- An artifact of finite numbers is read back from its document, whatever the layout, if it nests
no more than 127 levels; one that was read from a text is read back always. The numerals of the
costs are supposed to be read exactly: the shortest digits of a number lie nearest to it, but the
reader rounds more than once. -/
theorem Artifact.read_write (layout : JsonLayout) :
    (∀ artifact : Artifact Float, (∀ q ∈ artifact.quantities, q.IsFinite) →
      artifact.toJson.depth ≤ 127 → (∀ q ∈ artifact.quantities, q.ReadsBack) →
      read (artifact.write layout) = .ok artifact) ∧
    ∀ (text : String) (artifact : Artifact Float), read text = .ok artifact →
      (∀ q ∈ artifact.quantities, q.ReadsBack) →
      read (artifact.write layout) = .ok artifact := by
  constructor
  case left =>
    intro artifact finite deep back
    exact read_write_of_writable layout (fun q mem => (finite q mem).isWritable) back deep
  case right =>
    intro text artifact h back
    obtain ⟨writable, deep⟩ := writable_of_read h
    exact read_write_of_writable layout writable back deep

/-- The shortest digits of this cost make more than 53 bits, which the reader rounds first. -/
example : ¬(Quantity.cost (9.007460463498479 : Float)).ReadsBack := by decide +kernel

namespace Artifact

def plainRule : ArtifactRule Float where
  isWord := false
  side := ["a"]
  cost := 0.1
  text := []
  tense := none
  insertionCost := none
  meaning := none
  agreement := .none
  transpositionCost := none
  origin := .authored
  elided := none
  optionalPositions := []
  silentPositions := []
  category := none
  range := none

def plain : Artifact Float := ⟨"[start]", .ofList [("[start]", [plainRule])], .empty, .empty⟩

/-- Records may be lists of their fields, and a letter or a number has many spellings. -/
def plainText : String :=
  "[\"[start]\", \x7b\"[start]\": [[false, [\"\\u0061\"], 1e-1]]\x7d]"

def richRule : ArtifactRule Float :=
  { plainRule with
    side := ["[verb]", "\t\"é\""]
    text := [.verb ⟨"am", "is", "are", "was"⟩, .fixed "\\"]
    insertionCost := some 2.5
    meaning := some (.apply "f" [.argument "a", .entity "b"])
    agreement := { Agreement.none with person := some .threeSg, tense := some .past }
    origin := .insertion
    elided := some ⟨1, "[verb]", { cost := 1, text := [.pronoun ⟨"I", "me"⟩], meanings := [] }⟩
    optionalPositions := [0]
    range := some ⟨-1, 7⟩ }

def rich : Artifact Float :=
  ⟨"[start]", .ofList [("[start]", [richRule])], .ofList [("f", ⟨1e-7, 1, 2, true, false⟩)],
    .ofList [("b", ⟨"[b]", [⟨"B", ["b", "c"]⟩]⟩)]⟩

theorem rich_read_write :
    read (rich.write .indented) = .ok rich ∧
      read plainText = .ok plain ∧ read (plain.write .compact) = .ok plain := by
  have found : read plainText = .ok plain := read_eq_ok.mpr (by decide +kernel)
  exact ⟨(read_write .indented).1 rich (by decide +kernel) (by decide +kernel) (by decide +kernel),
    found, (read_write .compact).2 plainText plain found (by decide +kernel)⟩

end Artifact

end PhraseGrammar
