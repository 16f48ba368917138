import PhraseGrammar.Artifact.Decoder
import PhraseGrammar.Artifact.Encoder
import PhraseGrammar.Proofs.JsonTexts
import PhraseGrammar.Proofs.ListedTables

/-! Readers that recover what was written. A reader enters no more levels than it is given, and what
it finds can be written within the same levels, so a value that was read once is read again. -/

namespace PhraseGrammar

namespace Json

mutual

/-- How many arrays and objects are nested in a value. -/
def depth : Json → Nat
  | .array items => depthOfItems items + 1
  | .object members => depthOfMembers members + 1
  | .null | .bool _ | .number _ | .string _ => 0

def depthOfItems : List Json → Nat
  | [] => 0
  | x :: xs => max (depth x) (depthOfItems xs)

def depthOfMembers : List (Option String × Json) → Nat
  | [] => 0
  | (_, x) :: rest => max (depth x) (depthOfMembers rest)

end

theorem depthOfItems_le {items : List Json} {level : Nat} :
    depthOfItems items ≤ level ↔ ∀ x ∈ items, x.depth ≤ level := by
  induction items with
  | nil => simp [depthOfItems]
  | cons x xs ih => rw [depthOfItems, Nat.max_le, ih, List.forall_mem_cons]

theorem depthOfMembers_le {members : List (Option String × Json)} {level : Nat} :
    depthOfMembers members ≤ level ↔ ∀ member ∈ members, member.2.depth ≤ level := by
  induction members with
  | nil => simp [depthOfMembers]
  | cons member rest ih =>
    obtain ⟨name, x⟩ := member
    rw [depthOfMembers, Nat.max_le, ih, List.forall_mem_cons]

@[simp] theorem depth_array_le {items : List Json} {level : Nat} :
    (Json.array items).depth ≤ level + 1 ↔ ∀ x ∈ items, x.depth ≤ level := by
  rw [depth, Nat.add_le_add_iff_right, depthOfItems_le]

@[simp] theorem depth_record_le {members : List (String × Json)} {level : Nat} :
    (record members).depth ≤ level + 1 ↔ ∀ member ∈ members, member.2.depth ≤ level := by
  rw [record, depth, Nat.add_le_add_iff_right, depthOfMembers_le, List.forall_mem_map]

@[simp] theorem depth_text (s : String) : (Json.text s).depth = 0 := rfl

@[simp] theorem depth_bool (b : Bool) : (Json.bool b).depth = 0 := rfl

@[simp] theorem depth_ofNat (n : Nat) : (ofNat n).depth = 0 := rfl

@[simp] theorem depth_ofInt (k : Int) : (ofInt k).depth = 0 := rfl

@[simp] theorem depth_ofName {α : Type} [DecidableEq α] (names : Names α) (x : α) :
    (ofName names x).depth = 0 := rfl

@[simp] theorem depth_ofCost {κ : Type} [WrittenCost κ] (c : κ) : (ofCost c).depth = 0 := by
  unfold ofCost
  split <;> rfl

theorem exists_level_of_array {items : List Json} {level : Nat}
    (deep : (Json.array items).depth ≤ level) :
    ∃ below, level = below + 1 ∧ ∀ x ∈ items, x.depth ≤ below := by
  cases level with
  | zero => rw [depth] at deep; exact absurd deep (Nat.not_succ_le_zero _)
  | succ below => exact ⟨below, rfl, depth_array_le.mp deep⟩

theorem exists_level_of_record {members : List (String × Json)} {level : Nat}
    (deep : (record members).depth ≤ level) :
    ∃ below, level = below + 1 ∧ ∀ member ∈ members, member.2.depth ≤ below := by
  cases level with
  | zero => rw [record, depth] at deep; exact absurd deep (Nat.not_succ_le_zero _)
  | succ below => exact ⟨below, rfl, depth_record_le.mp deep⟩

theorem isPlain_record {members : List (String × Json)}
    (plain : ∀ member ∈ members, member.2.IsPlain) : (record members).IsPlain := by
  refine .object (List.forall_mem_map.mpr fun _ _ => rfl) (List.forall_mem_map.mpr plain)

section

variable {α : Type} {name key : String} {encode : α → Json}

@[simp] theorem lookup_always {value : Json} :
    (always name value).lookup key = if key = name then some value else none := by
  rw [always, Table.lookup_cons_eq_ite]
  rfl

@[simp] theorem lookup_whenSome {x : Option α} :
    (whenSome name encode x).lookup key = if key = name then x.map encode else none := by
  cases x with
  | none => exact (ite_self none).symm
  | some x => rw [whenSome, Table.lookup_cons_eq_ite]; rfl

def listed (encode : α → Json) (xs : List α) : Option Json :=
  if xs.isEmpty then none else some (.array (xs.map encode))

@[simp] theorem lookup_whenAny {xs : List α} :
    (whenAny name encode xs).lookup key = if key = name then listed encode xs else none := by
  cases xs with
  | nil => exact (ite_self none).symm
  | cons x xs => rw [whenAny, Table.lookup_cons_eq_ite]; rfl

@[simp] theorem lookup_whenSet {flag : Bool} :
    (whenSet name flag).lookup key =
      if key = name then (if flag then some (.bool true) else none) else none := by
  cases flag with
  | false => exact (ite_self none).symm
  | true => rw [whenSet, Table.lookup_cons_eq_ite]; rfl

@[simp] theorem names_always {value : Json} :
    ((always name value).map (·.1)).Sublist [name] :=
  .refl _

@[simp] theorem names_whenSome {x : Option α} :
    ((whenSome name encode x).map (·.1)).Sublist [name] := by
  cases x with
  | none => exact List.nil_sublist _
  | some x => exact .refl _

@[simp] theorem names_whenAny {xs : List α} :
    ((whenAny name encode xs).map (·.1)).Sublist [name] := by
  cases xs with
  | nil => exact List.nil_sublist _
  | cons x xs => exact .refl _

@[simp] theorem names_whenSet {flag : Bool} :
    ((whenSet name flag).map (·.1)).Sublist [name] := by
  cases flag with
  | false => exact List.nil_sublist _
  | true => exact .refl _

@[simp] theorem lookup_unless {absent : Prop} [Decidable absent] {value : Json} :
    (if absent then [] else always name value).lookup key =
      if key = name then (if absent then none else some value) else none := by
  split
  · exact (ite_self none).symm
  · exact lookup_always

@[simp] theorem names_unless {absent : Prop} [Decidable absent] {value : Json} :
    ((if absent then [] else always name value).map (·.1)).Sublist [name] := by
  split
  · exact List.nil_sublist _
  · exact names_always

theorem names_append {names : List String} {xs ys : List (String × Json)}
    (first : (xs.map (·.1)).Sublist [name]) (rest : (ys.map (·.1)).Sublist names) :
    ((xs ++ ys).map (·.1)).Sublist (name :: names) := by
  rw [List.map_append]
  exact first.append rest

variable {p : String × Json → Prop}

@[simp] theorem forall_mem_always {value : Json} :
    (∀ member ∈ always name value, p member) ↔ p (name, value) :=
  List.forall_mem_singleton

@[simp] theorem forall_mem_whenSome {x : Option α} :
    (∀ member ∈ whenSome name encode x, p member) ↔ ∀ y ∈ x, p (name, encode y) := by
  cases x with
  | none => exact iff_of_true nofun nofun
  | some x => simp [whenSome]

@[simp] theorem forall_mem_whenAny {xs : List α} :
    (∀ member ∈ whenAny name encode xs, p member) ↔
      (xs ≠ [] → p (name, .array (xs.map encode))) := by
  cases xs with
  | nil => exact iff_of_true nofun fun none => absurd rfl none
  | cons x xs => simp [whenAny]

@[simp] theorem forall_mem_whenSet {flag : Bool} :
    (∀ member ∈ whenSet name flag, p member) ↔ (flag = true → p (name, .bool true)) := by
  cases flag with
  | false => exact iff_of_true nofun nofun
  | true => simp [whenSet]

@[simp] theorem forall_mem_unless {absent : Prop} [Decidable absent] {value : Json} :
    (∀ member ∈ (if absent then [] else always name value), p member) ↔
      (¬absent → p (name, value)) := by
  split
  case isTrue absent => exact iff_of_true nofun fun present => absurd absent present
  case isFalse present => exact forall_mem_always.trans ⟨fun h _ => h, fun h => h present⟩

end

end Json

/-- A number in an artifact: a count, an end of a range or a cost. -/
inductive Quantity (κ : Type)
  | count (n : Nat)
  | bound (k : Int)
  | cost (c : κ)

/-- Costs that are read can be written again, in decimal digits. -/
class LawfulWrittenCost (κ : Type) [WrittenCost κ] : Prop where
  isDecimal {c : κ} {n : Numeral} : WrittenCost.numeral? c = some n → n.IsDecimal
  isSome {c : κ} {n : Numeral} : WrittenCost.ofNumeral? n = some c →
    (WrittenCost.numeral? c).isSome = true

variable {κ α : Type} [WrittenCost κ]

namespace Quantity

/-- Counts are words, ends of ranges are signed words, and a cost has a numeral. -/
def IsWritable : Quantity κ → Prop
  | .count n => n < Numeral.wordCount
  | .bound k => -(Numeral.wordCount : Int) ≤ 2 * k ∧ 2 * k < Numeral.wordCount
  | .cost c => (WrittenCost.numeral? c).isSome = true

/-- The numeral of a cost, if it has one, is read as the cost. -/
def ReadsBack : Quantity κ → Prop
  | .count _ | .bound _ => True
  | .cost c => ∀ numeral ∈ WrittenCost.numeral? c, WrittenCost.ofNumeral? numeral = some c

instance [DecidableEq κ] : DecidablePred (ReadsBack (κ := κ))
  | .count _ | .bound _ => isTrue trivial
  | .cost c =>
    inferInstanceAs (Decidable (∀ numeral ∈ WrittenCost.numeral? c,
      WrittenCost.ofNumeral? numeral = some c))

end Quantity

/-- The reader recovers what the encoder wrote. The values hold quantities, which the predicate
quantifies over. -/
structure Reader.Recovers (read : Reader α) (encode : α → Json)
    (Holds : (Quantity κ → Prop) → α → Prop) : Prop where
  plain (x : α) : (encode x).IsPlain
  reads {level : Nat} {x : α} : Holds Quantity.IsWritable x → Holds Quantity.ReadsBack x →
    (encode x).depth ≤ level → read level (encode x) = some x
  writable {level : Nat} {value : Json} {x : α} : read level value = some x →
    Holds Quantity.IsWritable x ∧ (encode x).depth ≤ level
  rejectsNull (level : Nat) : read level .null = none

namespace Reader

def Unquantified (_ : Quantity κ → Prop) (_ : α) : Prop := True

theorem recovers_text : Recovers (κ := κ) text Json.text Unquantified where
  plain x := .string x
  reads _ _ _ := rfl
  writable _ := ⟨trivial, Nat.zero_le _⟩
  rejectsNull _ := rfl

theorem exists_of_number {read : Numeral → Option α} {level : Nat} {value : Json} {x : α}
    (h : number read level value = some x) : ∃ numeral, read numeral = some x := by
  unfold number at h
  split at h
  · exact ⟨_, h⟩
  · nomatch h

theorem toInt?_ofNat (n : Nat) : (Numeral.ofNat n).toInt? = some (n : Int) := by
  simp [Numeral.toInt?, Numeral.ofNat]

theorem toInt?_ofInt (k : Int) : (Numeral.ofInt k).toInt? = some k := by
  cases k with
  | ofNat n => simp [Numeral.toInt?, Numeral.ofInt]
  | negSucc n => simp [Numeral.toInt?, Numeral.ofInt, Int.negSucc_eq]

theorem recovers_natural : Recovers (κ := κ) natural Json.ofNat (fun P n => P (.count n)) where
  plain n := .number (Numeral.isDecimal_ofNat n)
  reads {_ n} small _ _ := by
    have small : n < Numeral.wordCount := small
    simp only [natural, number, Json.ofNat, Numeral.toWord?, toInt?_ofNat]
    exact if_pos small
  writable {_ _ n} h := by
    obtain ⟨numeral, h⟩ := exists_of_number h
    unfold Numeral.toWord? at h
    split at h
    · split at h
      case isTrue small => exact ⟨Option.some.inj h ▸ small, Nat.zero_le _⟩
      case isFalse => nomatch h
    · nomatch h
  rejectsNull _ := rfl

theorem recovers_bound :
    Recovers (κ := κ) (number Numeral.toSignedWord?) Json.ofInt (fun P k => P (.bound k)) where
  plain k := .number (Numeral.isDecimal_ofInt k)
  reads {_ k} fits _ _ := by
    simp only [number, Json.ofInt, Numeral.toSignedWord?, toInt?_ofInt]
    exact if_pos fits
  writable {_ _ k} h := by
    obtain ⟨numeral, h⟩ := exists_of_number h
    unfold Numeral.toSignedWord? at h
    split at h
    · split at h
      case isTrue fits => exact ⟨Option.some.inj h ▸ fits, Nat.zero_le _⟩
      case isFalse => nomatch h
    · nomatch h
  rejectsNull _ := rfl

theorem recovers_cost [LawfulWrittenCost κ] :
    Recovers (κ := κ) cost Json.ofCost (fun P c => P (.cost c)) where
  plain c := by
    unfold Json.ofCost
    split
    · exact .number (LawfulWrittenCost.isDecimal ‹_›)
    · exact .null
  reads {_ c} written back _ := by
    obtain ⟨numeral, found⟩ := Option.isSome_iff_exists.mp written
    simp only [cost, number, Json.ofCost, found]
    exact back numeral found
  writable h := by
    obtain ⟨numeral, h⟩ := exists_of_number h
    exact ⟨LawfulWrittenCost.isSome h, by simp⟩
  rejectsNull _ := rfl

theorem mapM_map_eq_some {β : Type} {encode : α → β} {f : β → Option α} {xs : List α}
    (h : ∀ x ∈ xs, f (encode x) = some x) : (xs.map encode).mapM f = some xs := by
  induction xs with
  | nil => rfl
  | cons x xs ih =>
    simp only [List.map_cons, List.mapM_cons, h x (.head _), ih fun y mem => h y (.tail _ mem)]
    rfl

theorem exists_of_mem_mapM {β : Type} {f : β → Option α} {items : List β} {xs : List α}
    (h : items.mapM f = some xs) : ∀ x ∈ xs, ∃ item ∈ items, f item = some x := by
  induction items generalizing xs with
  | nil => exact Option.some.inj h ▸ nofun
  | cons item items ih =>
    simp only [List.mapM_cons, Option.bind_eq_bind, Option.bind_eq_some_iff, Option.pure_def] at h
    obtain ⟨first, here, rest, others, made⟩ := h
    rw [← Option.some.inj made]
    intro x mem
    rcases List.mem_cons.mp mem with rfl | mem
    · exact ⟨item, .head _, here⟩
    · obtain ⟨item, there, found⟩ := ih others x mem
      exact ⟨item, .tail _ there, found⟩

section

variable {read : Reader α} {encode : α → Json} {Holds : (Quantity κ → Prop) → α → Prop}

theorem exists_of_list {level : Nat} {value : Json} {xs : List α}
    (h : list read level value = some xs) :
    ∃ (below : Nat) (items : List Json), level = below + 1 ∧ items.mapM (read below) = some xs := by
  unfold list at h
  split at h
  · exact ⟨_, _, rfl, h⟩
  · nomatch h

theorem Recovers.list (recovers : Recovers read encode Holds) :
    Recovers (Reader.list read) (fun xs => .array (xs.map encode))
      (fun P xs => ∀ x ∈ xs, Holds P x) where
  plain xs := .array (List.forall_mem_map.mpr fun x _ => recovers.plain x)
  reads {level xs} written back deep := by
    obtain ⟨below, rfl, within⟩ := Json.exists_level_of_array deep
    rw [List.forall_mem_map] at within
    exact mapM_map_eq_some fun x mem =>
      recovers.reads (written x mem) (back x mem) (within x mem)
  writable h := by
    obtain ⟨below, items, rfl, all⟩ := exists_of_list h
    have found := fun x mem =>
      let ⟨_, _, here⟩ := exists_of_mem_mapM all x mem
      recovers.writable here
    refine ⟨fun x mem => (found x mem).1, ?_⟩
    rw [Json.depth_array_le, List.forall_mem_map]
    exact fun x mem => (found x mem).2
  rejectsNull level := by cases level <;> rfl

theorem named_map_some (members : List (String × Json)) :
    named (members.map fun member => (some member.1, member.2)) = some members := by
  unfold named
  exact mapM_map_eq_some fun _ _ => rfl

theorem exists_of_table {level : Nat} {value : Json} {made : Table α}
    (h : table read level value = some made) :
    ∃ below, level = below + 1 ∧
      ∀ entry ∈ made.entries, ∃ value, read below value = some entry.2 := by
  unfold table at h
  split at h
  case h_1 below members =>
    simp only [Option.bind_eq_bind, Option.bind_eq_some_iff, Option.pure_def] at h
    obtain ⟨known, -, entries, found, made⟩ := h
    refine ⟨below, rfl, fun entry mem => ?_⟩
    rw [← Option.some.inj made] at mem
    obtain ⟨member, -, here⟩ := exists_of_mem_mapM found entry (Table.of_mem_ofList mem)
    obtain ⟨x, read, rfl⟩ := Option.map_eq_some_iff.mp here
    exact ⟨member.2, read⟩
  case h_2 => nomatch h

theorem Recovers.table (recovers : Recovers read encode Holds) :
    Recovers (Reader.table read) (Json.ofTable encode)
      (fun P table => ∀ entry ∈ table.entries, Holds P entry.2) where
  plain table := Json.isPlain_record (List.forall_mem_map.mpr fun entry _ => recovers.plain entry.2)
  reads {level made} written back deep := by
    unfold Json.ofTable at deep ⊢
    obtain ⟨below, rfl, within⟩ := Json.exists_level_of_record deep
    rw [List.forall_mem_map] at within
    have entries : (made.entries.map fun entry => (entry.1, encode entry.2)).mapM
        (fun member => (read below member.2).map (member.1, ·)) = some made.entries :=
      mapM_map_eq_some fun entry mem => by
        simp only [recovers.reads (written entry mem) (back entry mem) (within entry mem)]
        rfl
    simp only [Reader.table, Json.record, named_map_some, Option.bind_eq_bind, Option.bind_some,
      entries, Table.ofList_entries, Option.pure_def]
  writable h := by
    obtain ⟨below, rfl, all⟩ := exists_of_table h
    have found := fun entry mem =>
      let ⟨_, here⟩ := all entry mem
      recovers.writable here
    refine ⟨fun entry mem => (found entry mem).1, ?_⟩
    rw [Json.ofTable, Json.depth_record_le, List.forall_mem_map]
    exact fun entry mem => (found entry mem).2
  rejectsNull level := by cases level <;> rfl

end

theorem fields?_record {names : List String} {members : List (String × Json)}
    (inOrder : (members.map (·.1)).Sublist names) (distinct : names.Nodup) :
    fields? names (Json.record members) = some members := by
  have known : members.filter (fun member => names.contains member.1) = members :=
    List.filter_eq_self.mpr fun member mem =>
      List.contains_iff_mem.mpr (inOrder.subset (List.mem_map_of_mem mem))
  simp only [fields?, Json.record, named_map_some, Option.bind_eq_bind, Option.bind_some, known]
  exact if_pos (distinct.sublist inOrder)

theorem reads_record {names : List String} {members : List (String × Json)}
    {read : Nat → List (String × Json) → Option α} {level : Nat} {x : α}
    (inOrder : (members.map (·.1)).Sublist names) (distinct : names.Nodup)
    (deep : (Json.record members).depth ≤ level)
    (h : ∀ below fields, fields = members → (∀ member ∈ fields, member.2.depth ≤ below) →
      read below fields = some x) :
    record names read level (Json.record members) = some x := by
  obtain ⟨below, rfl, within⟩ := Json.exists_level_of_record deep
  rw [record, fields?_record inOrder distinct]
  exact h below members rfl within

theorem exists_of_record {names : List String} {read : Nat → List (String × Json) → Option α}
    {level : Nat} {value : Json} {x : α} (h : record names read level value = some x) :
    ∃ below fields, level = below + 1 ∧ read below fields = some x := by
  unfold record at h
  split at h
  · obtain ⟨fields, -, found⟩ := Option.bind_eq_some_iff.mp h
    exact ⟨_, fields, rfl, found⟩
  · nomatch h

theorem record_null {names : List String} {read : Nat → List (String × Json) → Option α}
    (level : Nat) : record names read level .null = none := by
  cases level <;> rfl

section

variable {level : Nat} {fields : List (String × Json)} {name : String}

theorem optional_flag {flag : Bool}
    (found : fields.lookup name = if flag then some (.bool true) else none) :
    Reader.optional Reader.flag false level fields name = some flag := by
  unfold Reader.optional
  rw [found]
  cases flag <;> rfl

variable [DecidableEq α] {names : Names α}

theorem word_ofName {x : α} (spelled : names.ofWord? (names.wordOf x) = some x) :
    word names level (Json.ofName names x) = some x := by
  simp only [Json.ofName, Json.text, word, spelled]

theorem optional_word {x missing : α}
    (spelled : names.ofWord? (names.wordOf x) = some x)
    (found : fields.lookup name =
      if x = missing then none else some (Json.ofName names x)) :
    optional (word names) missing level fields name = some x := by
  unfold Reader.optional
  rw [found]
  split_ifs with absent
  · exact congrArg some absent.symm
  · exact word_ofName spelled

theorem maybe_word {x : Option α} (spelled : ∀ y ∈ x, names.ofWord? (names.wordOf y) = some y)
    (found : fields.lookup name = x.map (Json.ofName names)) :
    maybe (word names) level fields name = some x := by
  unfold Reader.maybe Reader.optional
  rw [found]
  cases x with
  | none => rfl
  | some x => exact congrArg (Option.map some) (word_ofName (spelled x rfl))

end

namespace Recovers

variable {read : Reader α} {encode : α → Json} {Holds : (Quantity κ → Prop) → α → Prop}
  {level : Nat} {fields : List (String × Json)} {name : String}

theorem read_of_lookup (recovers : Recovers read encode Holds) {x : α}
    (deep : ∀ member ∈ fields, member.2.depth ≤ level)
    (found : fields.lookup name = some (encode x)) (written : Holds Quantity.IsWritable x)
    (back : Holds Quantity.ReadsBack x) : read level (encode x) = some x := by
  obtain ⟨before, after, rfl, -⟩ := List.lookup_eq_some_iff.mp found
  exact recovers.reads written back (deep (name, encode x) (by simp))

theorem required (recovers : Recovers read encode Holds) {x : α}
    (deep : ∀ member ∈ fields, member.2.depth ≤ level)
    (found : fields.lookup name = some (encode x)) (written : Holds Quantity.IsWritable x)
    (back : Holds Quantity.ReadsBack x) :
    Reader.required read level fields name = some x := by
  rw [Reader.required, found, Option.bind_some, recovers.read_of_lookup deep found written back]

theorem of_required (recovers : Recovers read encode Holds) {x : α}
    (h : Reader.required read level fields name = some x) :
    Holds Quantity.IsWritable x ∧ (encode x).depth ≤ level := by
  obtain ⟨value, -, found⟩ := Option.bind_eq_some_iff.mp h
  exact recovers.writable found

theorem optional (recovers : Recovers read encode Holds) {x missing : α}
    (deep : ∀ member ∈ fields, member.2.depth ≤ level)
    (found : fields.lookup name = some (encode x) ∨ fields.lookup name = none ∧ missing = x)
    (written : Holds Quantity.IsWritable x) (back : Holds Quantity.ReadsBack x) :
    Reader.optional read missing level fields name = some x := by
  unfold Reader.optional
  rcases found with found | ⟨absent, rfl⟩
  · rw [found]
    exact recovers.read_of_lookup deep found written back
  · rw [absent]

theorem of_optional (recovers : Recovers read encode Holds) {x missing : α}
    (h : Reader.optional read missing level fields name = some x) :
    x = missing ∨ Holds Quantity.IsWritable x ∧ (encode x).depth ≤ level := by
  unfold Reader.optional at h
  split at h
  · exact .inr (recovers.writable h)
  · exact .inl (Option.some.inj h).symm

theorem maybe (recovers : Recovers read encode Holds) {x : Option α}
    (deep : ∀ member ∈ fields, member.2.depth ≤ level)
    (found : fields.lookup name = x.map encode)
    (written : ∀ y ∈ x, Holds Quantity.IsWritable y)
    (back : ∀ y ∈ x, Holds Quantity.ReadsBack y) :
    Reader.maybe read level fields name = some x := by
  unfold Reader.maybe Reader.optional
  cases x with
  | none => rw [found]; rfl
  | some x =>
    have here := recovers.read_of_lookup deep found (written x rfl) (back x rfl)
    rw [found, Option.map_some]
    unfold nullable
    dsimp only
    split
    case h_1 null => rw [null, recovers.rejectsNull] at here; nomatch here
    case h_2 => rw [here, Option.map_some]

theorem of_maybe (recovers : Recovers read encode Holds) {x : Option α}
    (h : Reader.maybe read level fields name = some x) :
    ∀ y ∈ x, Holds Quantity.IsWritable y ∧ (encode y).depth ≤ level := by
  intro y mem
  unfold Reader.maybe Reader.optional nullable at h
  split at h
  · split at h
    · rw [← Option.some.inj h] at mem
      nomatch mem
    · obtain ⟨z, found, same⟩ := Option.map_eq_some_iff.mp h
      rw [← same] at mem
      exact Option.some.inj mem ▸ recovers.writable found
  · rw [← Option.some.inj h] at mem
    nomatch mem

theorem optionalList (recovers : Recovers read encode Holds) {xs : List α}
    (deep : ∀ member ∈ fields, member.2.depth ≤ level)
    (found : fields.lookup name = Json.listed encode xs)
    (written : ∀ x ∈ xs, Holds Quantity.IsWritable x)
    (back : ∀ x ∈ xs, Holds Quantity.ReadsBack x) :
    Reader.optional (Reader.list read) [] level fields name = some xs := by
  refine recovers.list.optional deep ?_ written back
  cases xs with
  | nil => exact .inr ⟨found, rfl⟩
  | cons x xs => exact .inl found

theorem of_optionalList (recovers : Recovers read encode Holds) {xs : List α}
    (h : Reader.optional (Reader.list read) [] level fields name = some xs) :
    (∀ x ∈ xs, Holds Quantity.IsWritable x) ∧
      (xs ≠ [] → (Json.array (xs.map encode)).depth ≤ level) := by
  rcases recovers.list.of_optional h with rfl | ⟨written, deep⟩
  · exact ⟨nofun, fun none => absurd rfl none⟩
  · exact ⟨written, fun _ => deep⟩

theorem two {β γ : Type} {readFirst : Reader β} {readSecond : Reader γ} {encodeFirst : β → Json}
    {encodeSecond : γ → Json} {HoldsFirst : (Quantity κ → Prop) → β → Prop}
    {HoldsSecond : (Quantity κ → Prop) → γ → Prop}
    (recoversFirst : Recovers readFirst encodeFirst HoldsFirst)
    (recoversSecond : Recovers readSecond encodeSecond HoldsSecond)
    {nameFirst nameSecond : String} (distinct : nameFirst ≠ nameSecond) (make : β → γ → α)
    (first : α → β) (second : α → γ) (made : ∀ x, make (first x) (second x) = x)
    (projected : ∀ y z, first (make y z) = y ∧ second (make y z) = z) :
    Recovers
      (record [nameFirst, nameSecond] fun level fields => do
        return make (← Reader.required readFirst level fields nameFirst)
          (← Reader.required readSecond level fields nameSecond))
      (fun x => Json.record [(nameFirst, encodeFirst (first x)),
        (nameSecond, encodeSecond (second x))])
      (fun P x => HoldsFirst P (first x) ∧ HoldsSecond P (second x)) where
  plain x := Json.isPlain_record <| List.forall_mem_cons.mpr
    ⟨recoversFirst.plain _, List.forall_mem_singleton.mpr (recoversSecond.plain _)⟩
  reads {level x} written back deep := by
    refine reads_record (List.Sublist.refl _) (by simpa using distinct) deep
      fun below fields same within => ?_
    have foundFirst : Reader.required readFirst below fields nameFirst = some (first x) :=
      recoversFirst.required within (by simp [same]) written.1 back.1
    have foundSecond : Reader.required readSecond below fields nameSecond = some (second x) :=
      recoversSecond.required within (by simp [same, Table.lookup_cons_eq_ite, distinct.symm])
        written.2 back.2
    simp only [foundFirst, foundSecond, Option.bind_eq_bind, Option.bind_some, Option.pure_def,
      made]
  writable {level value x} h := by
    obtain ⟨below, fields, rfl, found⟩ := exists_of_record h
    simp only [Option.bind_eq_bind, Option.bind_eq_some_iff, Option.pure_def,
      Option.some.injEq] at found
    obtain ⟨y, foundFirst, z, foundSecond, rfl⟩ := found
    have first := recoversFirst.of_required foundFirst
    have second := recoversSecond.of_required foundSecond
    rw [(projected y z).1, (projected y z).2, Json.depth_record_le]
    exact ⟨⟨first.1, second.1⟩, List.forall_mem_cons.mpr
      ⟨first.2, List.forall_mem_singleton.mpr second.2⟩⟩
  rejectsNull := record_null

theorem congr (recovers : Recovers read encode Holds) {Holds' : (Quantity κ → Prop) → α → Prop}
    (same : ∀ P x, Holds P x ↔ Holds' P x) : Recovers read encode Holds' where
  plain := recovers.plain
  reads written back := recovers.reads ((same _ _).mpr written) ((same _ _).mpr back)
  writable h := (recovers.writable h).imp_left (same _ _).mp
  rejectsNull := recovers.rejectsNull

end Recovers

end Reader

end PhraseGrammar
