import PhraseGrammar.Disk.Route

/-! A disk: files and folders under one folder, the root. -/

namespace PhraseGrammar

/-- The names on the way from the root to a file or folder. -/
abbrev Path := List String

/-- A name that a file or folder can have: up to 255 bytes, no slash and no NUL, and not one of the
names for steps that stay or go up. -/
def isFileName (name : String) : Bool :=
  name ≠ "" && name ≠ "." && name ≠ Route.up && name.utf8ByteSize ≤ 255 &&
    !name.toList.any fun c => c = '/' || c = '\x00'

inductive DiskItem
  | file (text : String)
  | folder
deriving DecidableEq

/-- What stands at each path. The root is always a folder. -/
structure Disk where
  items : List (Path × DiskItem)
deriving DecidableEq

namespace Disk

def empty : Disk := ⟨[]⟩

def item? (disk : Disk) (path : Path) : Option DiskItem :=
  if path = [] then some .folder else disk.items.lookup path

def put (disk : Disk) (path : Path) (item : DiskItem) : Disk :=
  ⟨(path, item) :: disk.items.filter fun entry => entry.1 ≠ path⟩

def remove (disk : Disk) (path : Path) : Disk :=
  ⟨disk.items.filter fun entry => entry.1 ≠ path⟩

theorem lookup_filter_ne {path other : Path} (h : other ≠ path)
    (items : List (Path × DiskItem)) :
    (items.filter fun entry => entry.1 ≠ path).lookup other = items.lookup other := by
  induction items with
  | nil => rfl
  | cons entry rest ih =>
    obtain ⟨present, item⟩ := entry
    by_cases gone : present = path
    · have apart : (other == present) = false :=
        beq_eq_false_iff_ne.mpr fun hit => h (hit.trans gone)
      rw [List.filter_cons_of_neg (by simpa using gone), ih, List.lookup_cons, apart]
    · rw [List.filter_cons_of_pos (by simpa using gone), List.lookup_cons, List.lookup_cons, ih]

theorem item?_put_of_ne (disk : Disk) {path other : Path} (h : other ≠ path) (item : DiskItem) :
    (disk.put path item).item? other = disk.item? other := by
  have apart : (other == path) = false := beq_eq_false_iff_ne.mpr h
  simp only [item?, put, List.lookup_cons, apart, lookup_filter_ne h]

theorem item?_put_self (disk : Disk) {path : Path} (h : path ≠ []) (item : DiskItem) :
    (disk.put path item).item? path = some item := by
  simp [item?, put, h]

theorem item?_remove_of_ne (disk : Disk) {path other : Path} (h : other ≠ path) :
    (disk.remove path).item? other = disk.item? other := by
  simp only [item?, remove, lookup_filter_ne h]

/-- Follows steps from a folder to a folder. Every name has to be that of a folder, and nothing is
above the root. -/
def folder? (disk : Disk) : Path → List String → Option Path
  | here, [] => some here
  | here, step :: rest =>
    if step = Route.up then
      if here = [] then none else disk.folder? here.dropLast rest
    else if disk.item? (here ++ [step]) = some .folder then disk.folder? (here ++ [step]) rest
    else none

/-- The path to which a route leads, where something may stand already or be put. The last step
is a name; the steps before it lead to a folder. -/
def place? (disk : Disk) (route : Route) : Option Path :=
  match route.astray, route.steps.getLast? with
  | false, some name =>
    if isFileName name then (disk.folder? [] route.steps.dropLast).map (· ++ [name]) else none
  | _, _ => none

def filePlace? (disk : Disk) (route : Route) : Option Path :=
  if route.ending = .plain then
    (disk.place? route).filter fun path => disk.item? path ≠ some .folder
  else none

def folderPlace? (disk : Disk) (route : Route) : Option Path :=
  if route.ending = .dot then none
  else (disk.place? route).filter fun path => disk.item? path = none

def read? (disk : Disk) (route : Route) : Option String :=
  match (disk.filePlace? route).bind disk.item? with
  | some (.file text) => some text
  | _ => none

/-- Writes a file, over a file but not over a folder. -/
def write? (disk : Disk) (route : Route) (text : String) : Option Disk :=
  (disk.filePlace? route).map fun path => disk.put path (.file text)

def makeFolder? (disk : Disk) (route : Route) : Option Disk :=
  (disk.folderPlace? route).map fun path => disk.put path .folder

/-- Writes a neighbour of the file first and moves it into place, so that nobody finds the file
half written. The neighbour is removed when it cannot be moved, and whatever file it was before
is lost. -/
def replace (disk : Disk) (route : Route) (text : String) : Disk × Bool :=
  match (route.neighbour? ".tmp").bind disk.filePlace? with
  | none => (disk, false)
  | some draft =>
    let drafted := disk.put draft (.file text)
    match drafted.filePlace? route with
    | some path => ((drafted.remove draft).put path (.file text), true)
    | none => (drafted.remove draft, false)

def rootNames (disk : Disk) : List String :=
  let names := disk.items.filterMap fun
    | ([name], _) => some name
    | _ => none
  names.mergeSort fun a b => a ≤ b

/-- Where a walk ends depends on nothing but the folders. -/
theorem folder?_congr {disk other : Disk}
    (same : ∀ path, disk.item? path = some .folder ↔ other.item? path = some .folder)
    (here : Path) (steps : List String) : disk.folder? here steps = other.folder? here steps := by
  induction steps generalizing here with
  | nil => rfl
  | cons step rest ih => simp only [folder?, same, ih]

theorem place?_congr {disk other : Disk}
    (same : ∀ path, disk.item? path = some .folder ↔ other.item? path = some .folder)
    (route : Route) : disk.place? route = other.place? route := by
  simp only [place?, folder?_congr same]

theorem place?_ne_nil {disk : Disk} {route : Route} {path : Path}
    (h : disk.place? route = some path) : path ≠ [] := by
  unfold place? at h
  split at h
  · split at h
    · obtain ⟨folder, _, rfl⟩ := Option.map_eq_some_iff.mp h
      simp
    · cases h
  · cases h

theorem folder_put_file {disk : Disk} {place : Path} (free : disk.item? place ≠ some .folder)
    (present : place ≠ []) (text : String) (path : Path) :
    (disk.put place (.file text)).item? path = some .folder ↔ disk.item? path = some .folder := by
  by_cases same : path = place
  · subst same
    simp [item?_put_self disk present, free]
  · rw [item?_put_of_ne disk same]

/-- What was written is read back by the same route. -/
theorem read?_of_write? {disk written : Disk} {route : Route} {text : String}
    (h : disk.write? route text = some written) : written.read? route = some text := by
  obtain ⟨path, found, rfl⟩ := Option.map_eq_some_iff.mp h
  unfold filePlace? at found
  split at found
  next plain =>
    obtain ⟨led, free⟩ := Option.filter_eq_some_iff.mp found
    have present := place?_ne_nil led
    have free : disk.item? path ≠ some .folder := by simpa using free
    have again : (disk.put path (.file text)).place? route = some path :=
      (place?_congr (folder_put_file free present text) route).trans led
    simp [read?, filePlace?, plain, again, item?_put_self disk present, Option.filter]
  next => cases found

end Disk

end PhraseGrammar
