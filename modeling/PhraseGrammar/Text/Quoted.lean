import PhraseGrammar.Text.Extender
import PhraseGrammar.Text.Unseen

/-! Quoted texts: a text between double quotes, with every character escaped that a reader could
not see or would take for the end of the quotation. -/

namespace PhraseGrammar

/-- One character of a quoted text. Names of escapes come first, then code points in braces. -/
def quotedChar (c : Char) : List Char :=
  if c = '"' then ['\\', '"']
  else if c = '\\' then ['\\', '\\']
  else if c = '\x00' then ['\\', '0']
  else if c = '\t' then ['\\', 't']
  else if c = '\n' then ['\\', 'n']
  else if c = '\r' then ['\\', 'r']
  else if isUnseen c || isExtender c then
    ['\\', 'u', '\x7b'] ++ Nat.toDigits 16 c.toNat ++ ['\x7d']
  else [c]

def quoted (s : String) : String :=
  String.ofList ('"' :: s.toList.flatMap quotedChar ++ ['"'])

end PhraseGrammar
