import PhraseGrammar.Decimal.Numeral

/-! JSON values as they are written: numbers as numerals, objects as lists of members. -/

namespace PhraseGrammar

/-- A string whose escapes name an unpaired surrogate spells no text; it is `none`. -/
inductive Json
  | null
  | bool (value : Bool)
  | number (numeral : Numeral)
  | string (text : Option String)
  | array (items : List Json)
  | object (members : List (Option String × Json))

namespace Json

def text (s : String) : Json := .string (some s)

def ofNat (n : Nat) : Json := .number (.ofNat n)

def ofInt (n : Int) : Json := .number (.ofInt n)

def record (members : List (String × Json)) : Json :=
  .object (members.map fun member => (some member.1, member.2))

/-- The value of the first member of a name, if an object has one. -/
def member? : Json → String → Option Json
  | .object members, name => members.lookup (some name)
  | _, _ => none

def text? : Json → Option String
  | .string text => text
  | _ => none

def items? : Json → Option (List Json)
  | .array items => some items
  | _ => none

end Json

end PhraseGrammar
