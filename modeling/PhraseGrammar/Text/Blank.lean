/-! White space: which characters part one input token from the next, and which texts are
a single token. -/

namespace PhraseGrammar

/-- The characters with the property White_Space. -/
def isBlank (c : Char) : Bool :=
  let n := c.toNat
  (9 ≤ n && n ≤ 13) || n == 0x20 || n == 0x85 || n == 0xA0 || n == 0x1680 ||
    (0x2000 ≤ n && n ≤ 0x200A) || n == 0x2028 || n == 0x2029 || n == 0x202F ||
    n == 0x205F || n == 0x3000

def isToken (s : String) : Bool :=
  !s.isEmpty && !s.toList.any isBlank

/-- A text that shows nothing: blanks only, or no character at all. -/
def isVacant (s : String) : Bool :=
  s.toList.all isBlank

end PhraseGrammar
