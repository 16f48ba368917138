/-! Reading JSON strings. Escapes may name single UTF-16 units, so a string is first read into
pieces, and surrogates are paired afterwards. -/

namespace PhraseGrammar.Json

/-- A part of a string: a character, or a unit of UTF-16 that was named by its number. -/
inductive Piece
  | char (c : Char)
  | unit (n : Nat)
deriving DecidableEq

def hexDigit? (c : Char) : Option Nat :=
  if '0' ≤ c ∧ c ≤ '9' then some (c.toNat - '0'.toNat)
  else if 'a' ≤ c ∧ c ≤ 'f' then some (c.toNat - 'a'.toNat + 10)
  else if 'A' ≤ c ∧ c ≤ 'F' then some (c.toNat - 'A'.toNat + 10)
  else none

def unit? (a b c d : Char) : Option Nat := do
  return (((← hexDigit? a) * 16 + (← hexDigit? b)) * 16 + (← hexDigit? c)) * 16 + (← hexDigit? d)

def escapedBy? (c : Char) : Option Char :=
  if c = '"' then some '"'
  else if c = '\\' then some '\\'
  else if c = '/' then some '/'
  else if c = 'b' then some '\x08'
  else if c = 'f' then some '\x0c'
  else if c = 'n' then some '\n'
  else if c = 'r' then some '\r'
  else if c = 't' then some '\t'
  else none

/-- Reads the pieces up to the closing quote, and what follows it. Controls have to be escaped. -/
def scanPieces : List Char → Option (List Piece × List Char)
  | [] => none
  | c :: rest =>
    if c = '"' then some ([], rest)
    else if c = '\\' then
      match rest with
      | 'u' :: i :: j :: k :: l :: rest =>
        match unit? i j k l, scanPieces rest with
        | some n, some (pieces, rest) => some (.unit n :: pieces, rest)
        | _, _ => none
      | e :: rest =>
        match escapedBy? e, scanPieces rest with
        | some c, some (pieces, rest) => some (.char c :: pieces, rest)
        | _, _ => none
      | [] => none
    else if c.toNat < 0x20 then none
    else
      match scanPieces rest with
      | some (pieces, rest) => some (.char c :: pieces, rest)
      | none => none

def isLeading (n : Nat) : Bool := 0xD800 ≤ n && n < 0xDC00

def isTrailing (n : Nat) : Bool := 0xDC00 ≤ n && n < 0xE000

/-- Pairs the surrogates; none when one of them stays alone. -/
def joinPieces : List Piece → Option (List Char)
  | [] => some []
  | .char c :: rest => (joinPieces rest).map (c :: ·)
  | .unit n :: rest =>
    if isLeading n then
      match rest with
      | .unit m :: rest =>
        if isTrailing m then
          (joinPieces rest).map
            (Char.ofNat (0x10000 + (n - 0xD800) * 0x400 + (m - 0xDC00)) :: ·)
        else none
      | _ => none
    else if isTrailing n then none
    else (joinPieces rest).map (Char.ofNat n :: ·)

def scanString (cs : List Char) : Option (Option String × List Char) :=
  (scanPieces cs).map fun (pieces, rest) => ((joinPieces pieces).map String.ofList, rest)

end PhraseGrammar.Json
