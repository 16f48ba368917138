import PhraseGrammar.Json.Basic

/-! The text of a JSON value, on one line or with one item on each line. -/

namespace PhraseGrammar

/-- How the parts of a JSON text are set apart. -/
inductive JsonLayout
  /-- Nothing stands between the parts. -/
  | compact
  /-- Each item is on a line of its own, indented by two spaces for each level. -/
  | indented
deriving DecidableEq

namespace JsonLayout

def lineBreak : JsonLayout → Nat → List Char
  | .compact, _ => []
  | .indented, depth => '\n' :: List.replicate (2 * depth) ' '

def colon : JsonLayout → List Char
  | .compact => [':']
  | .indented => [':', ' ']

end JsonLayout

namespace Json

/-- Quotes, backslashes and controls are escaped, the usual controls by a letter. -/
def escapedChar (c : Char) : List Char :=
  if c = '"' then ['\\', '"']
  else if c = '\\' then ['\\', '\\']
  else if c = '\x08' then ['\\', 'b']
  else if c = '\x0c' then ['\\', 'f']
  else if c = '\n' then ['\\', 'n']
  else if c = '\r' then ['\\', 'r']
  else if c = '\t' then ['\\', 't']
  else if c.toNat < 0x20 then
    ['\\', 'u', '0', '0', Nat.digitChar (c.toNat / 16), Nat.digitChar (c.toNat % 16)]
  else [c]

/-- An unpaired surrogate stands for all strings that spell no text. -/
def renderString : Option String → List Char
  | some text => '"' :: text.toList.flatMap escapedChar ++ ['"']
  | none => ['"', '\\', 'u', 'd', '8', '0', '0', '"']

mutual

def renderAt (layout : JsonLayout) (depth : Nat) : Json → List Char
  | .null => ['n', 'u', 'l', 'l']
  | .bool true => ['t', 'r', 'u', 'e']
  | .bool false => ['f', 'a', 'l', 's', 'e']
  | .number numeral => numeral.render
  | .string text => renderString text
  | .array [] => ['[', ']']
  | .array (x :: xs) =>
    '[' :: layout.lineBreak (depth + 1) ++ renderAt layout (depth + 1) x ++
      renderItems layout (depth + 1) xs ++ layout.lineBreak depth ++ [']']
  | .object [] => ['\x7b', '\x7d']
  | .object ((name, x) :: rest) =>
    '\x7b' :: layout.lineBreak (depth + 1) ++ renderString name ++ layout.colon ++
      renderAt layout (depth + 1) x ++ renderMembers layout (depth + 1) rest ++
      layout.lineBreak depth ++ ['\x7d']

def renderItems (layout : JsonLayout) (depth : Nat) : List Json → List Char
  | [] => []
  | x :: xs =>
    ',' :: layout.lineBreak depth ++ renderAt layout depth x ++ renderItems layout depth xs

def renderMembers (layout : JsonLayout) (depth : Nat) :
    List (Option String × Json) → List Char
  | [] => []
  | (name, x) :: rest =>
    ',' :: layout.lineBreak depth ++ renderString name ++ layout.colon ++
      renderAt layout depth x ++ renderMembers layout depth rest

end

def render (layout : JsonLayout) (value : Json) : String :=
  String.ofList (renderAt layout 0 value)

end Json

end PhraseGrammar
