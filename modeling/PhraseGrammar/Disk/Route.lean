/-! Routes: paths as they are written. The same place may be reached by many routes, and which
place it is depends on the folders that are there. -/

namespace PhraseGrammar

/-- How the text of a route ends after its last step. -/
inductive RouteEnd
  | plain
  /-- By a slash: the route leads to a folder. -/
  | slash
  /-- By a single dot: the route leads to a folder that is there already. -/
  | dot
deriving DecidableEq

/-- The steps from one folder to a place. -/
structure Route where
  /-- The route leads off the disk: it starts from elsewhere, or it is too long to be followed. -/
  astray : Bool
  /-- Names to go down by, and pairs of dots to go up by. -/
  steps : List String
  ending : RouteEnd
deriving DecidableEq

namespace Route

def up : String := ".."

def longest : Nat := 4095

def ofName (name : String) : Route := ⟨false, [name], .plain⟩

def split (text : List Char) : List (List Char) :=
  text.foldr
    (fun c parts =>
      if c = '/' then [] :: parts
      else
        match parts with
        | part :: rest => (c :: part) :: rest
        | [] => [[c]])
    [[]]

def endingOf (parts : List String) : RouteEnd :=
  if (parts.filter (· ≠ "")).getLast? = some "." then .dot
  else if parts.getLast? = some "" then .slash
  else .plain

/-- Parts between slashes are the steps, but for empty parts and single dots, which lead nowhere.
A slash at the head starts from elsewhere. -/
def ofString (text : String) : Route :=
  let parts := (split text.toList).map String.ofList
  { astray := decide (longest < text.utf8ByteSize) || text.toList.head? = some '/'
    steps := parts.filter fun part => part ≠ "" ∧ part ≠ "."
    ending := endingOf parts }

/-- The route to the neighbour whose name has an ending more. Where a route ends by going up, the
neighbour has nothing but the ending for a name, and stands where the route leads. A route without
steps leads to the folder where it starts, whose neighbours are off the disk. -/
def neighbour? (route : Route) (ending : String) : Option Route :=
  match route.steps.getLast? with
  | none => none
  | some last =>
    if last = up then some { route with steps := route.steps ++ [ending], ending := .plain }
    else some { route with steps := route.steps.dropLast ++ [last ++ ending], ending := .plain }

end Route

end PhraseGrammar
