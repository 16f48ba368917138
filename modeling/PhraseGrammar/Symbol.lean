/-! Symbols and their names. A symbol is a place in the grammar that made it; its name is kept by
that grammar. -/

namespace PhraseGrammar

/-- The symbol at a place of its grammar, counted from zero. -/
structure Symbol where
  index : Nat
deriving DecidableEq

instance : Ord Symbol := ⟨compareOn Symbol.index⟩

namespace Symbol

def start : Symbol := ⟨0⟩

def empty : Symbol := ⟨1⟩

/-- Numbers from outside name symbols through their lowest 32 bits. -/
def ofId (id : Nat) : Symbol := ⟨id % 0x100000000⟩

end Symbol

namespace SymbolName

def start : String := "[start]"

def empty : String := "<empty>"

def unknown : String := "<unknown>"

/-- The name inside a pair of brackets; a name that is not in brackets as a whole stays as it is. -/
def inner (name : List Char) : List Char :=
  match name with
  | '[' :: rest => if rest.getLast? = some ']' then rest.dropLast else name
  | _ => name

/-- Joins the inner names by hyphens and puts brackets around the result. -/
def compose (parts : List String) : String :=
  String.ofList ('[' :: ['-'].intercalate (parts.map fun part => inner part.toList) ++ [']'])

def placeholder (category : String) : String :=
  "\x7b" ++ category ++ "\x7d"

end SymbolName

end PhraseGrammar
