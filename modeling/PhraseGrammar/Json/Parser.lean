import PhraseGrammar.Json.Basic
import PhraseGrammar.Json.Strings

/-! Reading JSON texts. Every step takes at least one character, so the length of the text bounds
the number of steps. -/

namespace PhraseGrammar.Json

def isGap (c : Char) : Bool :=
  c = ' ' || c = '\t' || c = '\n' || c = '\r'

def skipGaps (cs : List Char) : List Char := cs.dropWhile isGap

def scanWord (word : List Char) (value : Json) (cs : List Char) : Option (Json × List Char) :=
  if word.isPrefixOf cs then some (value, cs.drop word.length) else none

def scanNumber (cs : List Char) : Option (Json × List Char) :=
  (Numeral.scan cs).map fun (numeral, rest) => (.number numeral, rest)

def scanName (cs : List Char) : Option (Option String × List Char) :=
  match skipGaps cs with
  | '"' :: cs =>
    match scanString cs with
    | some (name, cs) =>
      match skipGaps cs with
      | ':' :: cs => some (name, cs)
      | _ => none
    | none => none
  | _ => none

mutual

def scanValue : Nat → List Char → Option (Json × List Char)
  | 0, _ => none
  | fuel + 1, cs =>
    match skipGaps cs with
    | [] => none
    | c :: cs =>
      if c = '"' then (scanString cs).map fun (text, cs) => (.string text, cs)
      else if c = '[' then
        match skipGaps cs with
        | ']' :: cs => some (.array [], cs)
        | cs => do
          let (x, cs) ← scanValue fuel cs
          let (xs, cs) ← scanItems fuel cs
          return (.array (x :: xs), cs)
      else if c = '\x7b' then
        match skipGaps cs with
        | '\x7d' :: cs => some (.object [], cs)
        | cs => do
          let (name, cs) ← scanName cs
          let (x, cs) ← scanValue fuel cs
          let (rest, cs) ← scanMembers fuel cs
          return (.object ((name, x) :: rest), cs)
      else if c = 'n' then scanWord ['u', 'l', 'l'] .null cs
      else if c = 't' then scanWord ['r', 'u', 'e'] (.bool true) cs
      else if c = 'f' then scanWord ['a', 'l', 's', 'e'] (.bool false) cs
      else scanNumber (c :: cs)

/-- Reads the items after the first one and the end of the array. -/
def scanItems : Nat → List Char → Option (List Json × List Char)
  | 0, _ => none
  | fuel + 1, cs =>
    match skipGaps cs with
    | ']' :: cs => some ([], cs)
    | ',' :: cs => do
      let (x, cs) ← scanValue fuel cs
      let (xs, cs) ← scanItems fuel cs
      return (x :: xs, cs)
    | _ => none

/-- Reads the members after the first one and the end of the object. -/
def scanMembers : Nat → List Char → Option (List (Option String × Json) × List Char)
  | 0, _ => none
  | fuel + 1, cs =>
    match skipGaps cs with
    | '\x7d' :: cs => some ([], cs)
    | ',' :: cs => do
      let (name, cs) ← scanName cs
      let (x, cs) ← scanValue fuel cs
      let (rest, cs) ← scanMembers fuel cs
      return ((name, x) :: rest, cs)
    | _ => none

end

def parse? (s : String) : Option Json :=
  match scanValue (s.length + 1) s.toList with
  | some (value, rest) => if (skipGaps rest).isEmpty then some value else none
  | none => none

end PhraseGrammar.Json
