import PhraseGrammar.Table

/-! Tables that are made of lists: what they hold, that a table is made of its own entries, and that
it is told by what it holds. -/

namespace PhraseGrammar.Table

variable {α : Type} {entries : List (String × α)}

theorem of_mem_ofList {entry : String × α} (h : entry ∈ (ofList entries).entries) :
    entry ∈ entries := by
  have kept : ∀ entry ∈ (ofList entries).entries, entry ∈ entries := by
    refine List.foldlRecOn (motive := fun table : Table α => ∀ entry ∈ table.entries,
      entry ∈ entries) entries _ (fun _ mem => absurd mem List.not_mem_nil) ?_
    intro table held last there entry mem
    rcases mem_insertEntry mem with rfl | mem
    · exact there
    · exact held entry mem
  exact kept entry h

theorem contains_insert (table : Table α) (name : String) (value : α) (key : String) :
    (table.insert name value).contains key = true ↔ key = name ∨ table.contains key = true := by
  rw [contains_eq_isSome, contains_eq_isSome, get?_insert]
  by_cases same : key = name
  · rw [if_pos same]
    exact ⟨fun _ => .inl same, fun _ => rfl⟩
  · rw [if_neg same]
    exact ⟨.inr, fun h => h.resolve_left same⟩

theorem contains_ofList {name : String} :
    (ofList entries).contains name = true ↔ name ∈ entries.map (·.1) := by
  have grown : ∀ (rest : List (String × α)) (table : Table α),
      (rest.foldl (fun table entry => table.insert entry.1 entry.2) table).contains name = true ↔
        table.contains name = true ∨ name ∈ rest.map (·.1) := by
    intro rest
    induction rest with
    | nil => exact fun table => ⟨.inl, fun h => h.resolve_right List.not_mem_nil⟩
    | cons entry rest ih =>
      intro table
      rw [List.foldl_cons, ih, contains_insert, List.map_cons, List.mem_cons, or_assoc,
        or_left_comm]
  rw [ofList, grown, or_iff_right (show ¬ (empty : Table α).contains name = true from nofun)]

theorem eq_of_entries {first second : Table α} (same : first.entries = second.entries) :
    first = second := by
  cases first
  cases second
  cases same
  rfl

theorem insertEntry_of_above {name : String} (value : α)
    (above : ∀ entry ∈ entries, entry.1 < name) :
    insertEntry name value entries = entries ++ [(name, value)] := by
  induction entries with
  | nil => rfl
  | cons first rest ih =>
    have less : first.1 < name := above first (.head _)
    have after : ¬name < first.1 := String.lt_asymm less
    have other : name ≠ first.1 := fun same => String.lt_irrefl name (same ▸ less)
    rw [insertEntry, if_neg after, if_neg other, ih fun entry mem => above entry (.tail _ mem)]
    rfl

theorem ofList_entries (table : Table α) : ofList table.entries = table := by
  have grown : ∀ (rest : List (String × α)) (start : Table α),
      (start.entries ++ rest).Pairwise (fun a b => a.1 < b.1) →
      (rest.foldl (fun table entry => table.insert entry.1 entry.2) start).entries =
        start.entries ++ rest := by
    intro rest
    induction rest with
    | nil => exact fun start _ => (List.append_nil _).symm
    | cons entry rest ih =>
      intro start ascending
      have above : ∀ earlier ∈ start.entries, earlier.1 < entry.1 := fun earlier mem =>
        (List.pairwise_append.mp ascending).2.2 earlier mem entry (.head _)
      have inserted : (start.insert entry.1 entry.2).entries = start.entries ++ [entry] :=
        insertEntry_of_above entry.2 above
      have moved : start.entries ++ [entry] ++ rest = start.entries ++ entry :: rest := by
        rw [List.append_assoc, List.singleton_append]
      rw [List.foldl_cons, ih _ (by rwa [inserted, moved]), inserted, moved]
  exact eq_of_entries (grown table.entries empty table.ascending)

theorem insertEntry_perm {name : String} (value : α) (fresh : name ∉ entries.map (·.1)) :
    (insertEntry name value entries).Perm ((name, value) :: entries) := by
  induction entries with
  | nil => exact .refl _
  | cons first rest ih =>
    rw [List.map_cons, List.mem_cons, not_or] at fresh
    unfold insertEntry
    split
    · exact .refl _
    · rw [if_neg fresh.1]
      exact ((ih fresh.2).cons first).trans (.swap ..)

theorem ofList_perm (distinct : (entries.map (·.1)).Nodup) :
    (ofList entries).entries.Perm entries := by
  have grown : ∀ (rest : List (String × α)) (table : Table α),
      ((table.entries ++ rest).map (·.1)).Nodup →
      (rest.foldl (fun table entry => table.insert entry.1 entry.2) table).entries.Perm
        (table.entries ++ rest) := by
    intro rest
    induction rest with
    | nil =>
      intro table _
      rw [List.append_nil]
      exact .refl _
    | cons entry rest ih =>
      intro table distinct
      have moved : (table.entries ++ entry :: rest).Perm (entry :: (table.entries ++ rest)) :=
        List.perm_middle
      have distinct := (moved.map (·.1)).nodup_iff.mp distinct
      have fresh : entry.1 ∉ table.entries.map (·.1) := by
        intro mem
        refine (List.nodup_cons.mp distinct).1 ?_
        rw [List.map_append]
        exact List.mem_append_left _ mem
      have inserted : ((table.insert entry.1 entry.2).entries ++ rest).Perm
          (entry :: (table.entries ++ rest)) := (insertEntry_perm entry.2 fresh).append_right rest
      rw [List.foldl_cons]
      exact (ih _ ((inserted.map (·.1)).nodup_iff.mpr distinct)).trans
        (inserted.trans moved.symm)
  exact grown entries empty distinct

/-- A table is told by what it holds. -/
theorem eq_of_perm {first second : Table α} (same : first.entries.Perm second.entries) :
    first = second := by
  refine eq_of_entries (same.eq_of_pairwise ?_ first.ascending second.ascending)
  intro a b _ _ less more
  exact absurd more (String.lt_asymm less)

theorem get?_eq_some_iff {table : Table α} {name : String} {value : α} :
    table.get? name = some value ↔ (name, value) ∈ table.entries := by
  obtain ⟨entries, ascending⟩ := table
  show entries.lookup name = some value ↔ (name, value) ∈ entries
  induction entries with
  | nil => exact ⟨nofun, nofun⟩
  | cons first rest ih =>
    obtain ⟨above, later⟩ := List.pairwise_cons.mp ascending
    obtain ⟨present, held⟩ := first
    rw [lookup_cons_eq_ite, List.mem_cons, Prod.mk.injEq]
    by_cases same : name = present
    · subst same
      have once : (name, value) ∉ rest := fun mem =>
        String.lt_irrefl name (above (name, value) mem)
      rw [if_pos rfl, Option.some.injEq, or_iff_left once]
      exact ⟨fun same => ⟨rfl, same.symm⟩, fun same => same.2.symm⟩
    · rw [if_neg same, or_iff_right (fun both => same both.1)]
      exact ih later

theorem ext_get? {first second : Table α} (same : ∀ name, first.get? name = second.get? name) :
    first = second := by
  have distinct : ∀ table : Table α, table.entries.Nodup := by
    intro table
    refine table.ascending.imp fun less equal => ?_
    subst equal
    exact String.lt_irrefl _ less
  refine eq_of_perm ((List.perm_ext_iff_of_nodup (distinct first) (distinct second)).mpr ?_)
  rintro ⟨name, value⟩
  rw [← get?_eq_some_iff, ← get?_eq_some_iff, same]

end PhraseGrammar.Table
