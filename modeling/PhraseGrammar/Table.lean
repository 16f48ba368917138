/-! Tables: values under names, each name once, in the order of the names. -/

namespace PhraseGrammar

/-- Values under names that ascend strictly. -/
structure Table (α : Type) where
  entries : List (String × α)
  ascending : entries.Pairwise fun a b => a.1 < b.1

namespace Table

variable {α β : Type}

instance [DecidableEq α] : DecidableEq (Table α)
  | ⟨xs, _⟩, ⟨ys, _⟩ =>
    if h : xs = ys then isTrue (by subst h; rfl) else isFalse (by simpa using h)

def empty : Table α := ⟨[], .nil⟩

instance : Inhabited (Table α) := ⟨empty⟩

def get? (table : Table α) (name : String) : Option α :=
  table.entries.lookup name

def contains (table : Table α) (name : String) : Bool :=
  table.entries.any fun entry => entry.1 == name

def names (table : Table α) : List String :=
  table.entries.map (·.1)

def size (table : Table α) : Nat :=
  table.entries.length

def isEmpty (table : Table α) : Bool :=
  table.entries.isEmpty

/-- Puts a value under a name, before the first greater name; what stood there is replaced. -/
def insertEntry (name : String) (value : α) : List (String × α) → List (String × α)
  | [] => [(name, value)]
  | entry :: rest =>
    if name < entry.1 then (name, value) :: entry :: rest
    else if name = entry.1 then (name, value) :: rest
    else entry :: insertEntry name value rest

theorem mem_insertEntry {name : String} {value : α} {xs : List (String × α)}
    {entry : String × α} (h : entry ∈ insertEntry name value xs) :
    entry = (name, value) ∨ entry ∈ xs := by
  induction xs with
  | nil => simpa [insertEntry] using h
  | cons first rest ih =>
    unfold insertEntry at h
    split at h
    · simpa using h
    · split at h
      · simp only [List.mem_cons] at h ⊢
        exact h.imp_right .inr
      · simp only [List.mem_cons] at h ⊢
        rcases h with h | h
        · exact .inr (.inl h)
        · exact (ih h).imp_right .inr

theorem insertEntry_ascending (name : String) (value : α) {xs : List (String × α)}
    (h : xs.Pairwise fun a b => a.1 < b.1) :
    (insertEntry name value xs).Pairwise fun a b => a.1 < b.1 := by
  induction xs with
  | nil => simp [insertEntry]
  | cons first rest ih =>
    obtain ⟨above, tail⟩ := List.pairwise_cons.mp h
    unfold insertEntry
    split
    case isTrue less =>
      refine List.pairwise_cons.mpr ⟨fun entry mem => ?_, h⟩
      rcases List.mem_cons.mp mem with rfl | mem
      · exact less
      · exact String.lt_trans less (above entry mem)
    case isFalse notLess =>
      split
      case isTrue same =>
        exact List.pairwise_cons.mpr ⟨fun entry mem => same ▸ above entry mem, tail⟩
      case isFalse other =>
        refine List.pairwise_cons.mpr ⟨fun entry mem => ?_, ih tail⟩
        rcases mem_insertEntry mem with rfl | mem
        · refine Decidable.byContradiction fun notMore => other ?_
          exact String.le_antisymm (String.not_lt.mp notMore) (String.not_lt.mp notLess)
        · exact above entry mem

def insert (table : Table α) (name : String) (value : α) : Table α :=
  ⟨insertEntry name value table.entries, insertEntry_ascending name value table.ascending⟩

theorem lookup_cons_eq_ite (key name : String) (value : α) (rest : List (String × α)) :
    ((name, value) :: rest).lookup key = if key = name then some value else rest.lookup key := by
  rw [List.lookup_cons]
  by_cases h : key = name
  · simp [h]
  · simp [beq_eq_false_iff_ne.mpr h, h]

theorem lookup_insertEntry (name : String) (value : α) (xs : List (String × α)) (key : String) :
    (insertEntry name value xs).lookup key = if key = name then some value else xs.lookup key := by
  induction xs with
  | nil => exact lookup_cons_eq_ite key name value []
  | cons first rest ih =>
    obtain ⟨present, old⟩ := first
    unfold insertEntry
    split
    · exact lookup_cons_eq_ite ..
    · split
      case isTrue same =>
        subst same
        simp only [lookup_cons_eq_ite]
        split <;> rfl
      case isFalse other =>
        simp only [lookup_cons_eq_ite, ih]
        by_cases h : key = name
        · subst h
          simp [other]
        · simp [h]

@[simp] theorem get?_empty (key : String) : (empty : Table α).get? key = none := rfl

theorem get?_insert (table : Table α) (name : String) (value : α) (key : String) :
    (table.insert name value).get? key = if key = name then some value else table.get? key :=
  lookup_insertEntry name value table.entries key

theorem contains_eq_isSome (table : Table α) (name : String) :
    table.contains name = (table.get? name).isSome := by
  unfold contains get?
  induction table.entries with
  | nil => rfl
  | cons first rest ih =>
    obtain ⟨present, old⟩ := first
    rw [List.any_cons, ih, lookup_cons_eq_ite]
    by_cases h : name = present
    · simp [h]
    · simp [h, Ne.symm h]

/-- Of several values under one name the last one stays. -/
def ofList (entries : List (String × α)) : Table α :=
  entries.foldl (fun table entry => table.insert entry.1 entry.2) empty

end Table

end PhraseGrammar
