import PhraseGrammar.Disk.Basic

/-! What is left of a disk after a file was put in the place of another one. The text passes through
a draft, a neighbour of the file, and whatever file stood there before is gone in the end. -/

namespace PhraseGrammar

namespace Disk

variable {disk other : Disk} {route : Route} {path place : Path} {text : String}

theorem filePlace?_eq_some :
    disk.filePlace? route = some path ↔
      route.ending = .plain ∧ disk.place? route = some path ∧ disk.item? path ≠ some .folder := by
  unfold filePlace?
  split
  next plain => rw [Option.filter_eq_some_iff, decide_eq_true_eq, and_iff_right plain]
  next ends => exact ⟨fun none => (nomatch none), fun found => absurd found.1 ends⟩

theorem filePlace?_congr
    (same : ∀ path, disk.item? path = some .folder ↔ other.item? path = some .folder)
    (route : Route) : disk.filePlace? route = other.filePlace? route := by
  refine Option.ext fun path => ?_
  rw [filePlace?_eq_some, filePlace?_eq_some, place?_congr same, Ne, same]

theorem filePlace?_ne_nil (h : disk.filePlace? route = some path) : path ≠ [] :=
  place?_ne_nil (filePlace?_eq_some.mp h).2.1

theorem item?_remove_self (disk : Disk) (present : path ≠ []) :
    (disk.remove path).item? path = none := by
  rw [item?, if_neg present, remove, List.lookup_eq_none_iff]
  intro entry mem
  have kept : entry.1 ≠ path := of_decide_eq_true (List.mem_filter.mp mem).2
  exact bne_iff_ne.mpr kept.symm

def draftPlace? (disk : Disk) (route : Route) : Option Path :=
  (route.neighbour? ".tmp").bind disk.filePlace?

theorem draftPlace?_ne_nil (h : disk.draftPlace? route = some path) : path ≠ [] := by
  obtain ⟨_, -, found⟩ := Option.bind_eq_some_iff.mp h
  exact filePlace?_ne_nil found

theorem not_folder_of_draftPlace? (h : disk.draftPlace? route = some path) :
    disk.item? path ≠ some .folder := by
  obtain ⟨_, -, found⟩ := Option.bind_eq_some_iff.mp h
  exact (filePlace?_eq_some.mp found).2.2

def withoutDraft (disk : Disk) (draft : Path) (text : String) : Disk :=
  (disk.put draft (.file text)).remove draft

theorem withoutDraft_item?_of_ne (h : path ≠ place) :
    (disk.withoutDraft place text).item? path = disk.item? path := by
  rw [withoutDraft, item?_remove_of_ne _ h, item?_put_of_ne _ h]

/-- A replacement fails at the draft, or when the draft is to be moved, or it succeeds. Either of
the later outcomes takes away the draft. -/
theorem replace_cases (disk : Disk) (route : Route) (text : String) :
    (disk.draftPlace? route = none ∧ disk.replace route text = (disk, false)) ∨
      ∃ draft, disk.draftPlace? route = some draft ∧
        ((disk.filePlace? route = none ∧
            disk.replace route text = (disk.withoutDraft draft text, false)) ∨
          ∃ path, disk.filePlace? route = some path ∧
            disk.replace route text =
              ((disk.withoutDraft draft text).put path (.file text), true)) := by
  cases drafted : disk.draftPlace? route with
  | none =>
    refine .inl ⟨rfl, ?_⟩
    rw [draftPlace?] at drafted
    rw [replace, drafted]
  | some draft =>
    refine .inr ⟨draft, rfl, ?_⟩
    have folders := folder_put_file (not_folder_of_draftPlace? drafted) (draftPlace?_ne_nil drafted)
      text
    have aim := filePlace?_congr folders route
    rw [draftPlace?] at drafted
    cases led : disk.filePlace? route with
    | none =>
      refine .inl ⟨rfl, ?_⟩
      simp only [replace, drafted, aim, led]
      rfl
    | some path =>
      refine .inr ⟨path, rfl, ?_⟩
      simp only [replace, drafted, aim, led]
      rfl

/-- A file that was put in place is read by the same route. -/
theorem read?_of_replace {after : Disk} (h : disk.replace route text = (after, true)) :
    after.read? route = some text := by
  rcases replace_cases disk route text with
    ⟨-, same⟩ | ⟨draft, drafted, ⟨-, same⟩ | ⟨path, led, same⟩⟩
  all_goals
    rw [same] at h
    obtain ⟨rfl, moved⟩ := Prod.mk.inj h
  case inl | inr.inl => cases moved
  case inr.inr =>
    have present := filePlace?_ne_nil led
    have folders : ∀ other, (disk.withoutDraft draft text).item? other = some .folder ↔
        disk.item? other = some .folder := by
      intro other
      by_cases same : other = draft
      · subst same
        rw [withoutDraft, item?_remove_self _ (draftPlace?_ne_nil drafted)]
        exact ⟨fun none => (nomatch none), fun isFolder =>
          absurd isFolder (not_folder_of_draftPlace? drafted)⟩
      · rw [withoutDraft_item?_of_ne same]
    have written : (disk.withoutDraft draft text).write? route text =
        some ((disk.withoutDraft draft text).put path (.file text)) := by
      rw [write?, filePlace?_congr folders, led]
      rfl
    exact read?_of_write? written

end Disk

end PhraseGrammar
