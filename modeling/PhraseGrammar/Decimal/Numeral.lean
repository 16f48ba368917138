/-! Written numbers. A numeral has a sign, a whole part without leading zeros, perhaps digits
after a point and perhaps a power of ten; it is not yet a number of any kind. -/

namespace PhraseGrammar

structure Numeral where
  negative : Bool
  whole : Nat
  /-- The digits after the point; none of them when there is no point. -/
  fraction : List Nat
  exponent : Option Int
deriving DecidableEq

namespace Numeral

def ofNat (n : Nat) : Numeral := ⟨false, n, [], none⟩

def ofInt : Int → Numeral
  | .ofNat n => ⟨false, n, [], none⟩
  | .negSucc n => ⟨true, n + 1, [], none⟩

/-- The power of ten always shows its sign. -/
def renderExponent : Option Int → List Char
  | none => []
  | some (.ofNat n) => 'e' :: '+' :: Nat.toDigits 10 n
  | some (.negSucc n) => 'e' :: '-' :: Nat.toDigits 10 (n + 1)

def renderFraction : List Nat → List Char
  | [] => []
  | d :: ds => '.' :: (d :: ds).map Nat.digitChar

def render (n : Numeral) : List Char :=
  (if n.negative then ['-'] else []) ++ Nat.toDigits 10 n.whole ++
    renderFraction n.fraction ++ renderExponent n.exponent

def digit? (c : Char) : Option Nat :=
  if '0' ≤ c ∧ c ≤ '9' then some (c.toNat - '0'.toNat) else none

def takeDigits : List Char → List Nat × List Char
  | [] => ([], [])
  | c :: cs =>
    match digit? c with
    | some d => ((d :: (takeDigits cs).1), (takeDigits cs).2)
    | none => ([], c :: cs)

def valueOf (digits : List Nat) : Nat :=
  digits.foldl (fun n d => 10 * n + d) 0

/-- A whole part starts with a zero only when it is zero. -/
def scanWhole (cs : List Char) : Option (Nat × List Char) :=
  match takeDigits cs with
  | ([], _) => none
  | ([d], rest) => some (d, rest)
  | (0 :: _, _) => none
  | (ds, rest) => some (valueOf ds, rest)

def scanFraction : List Char → Option (List Nat × List Char)
  | '.' :: cs =>
    match takeDigits cs with
    | ([], _) => none
    | found => some found
  | cs => some ([], cs)

def scanPower (negative : Bool) (cs : List Char) : Option (Option Int × List Char) :=
  match takeDigits cs with
  | ([], _) => none
  | (ds, rest) => some (some (if negative then -(valueOf ds : Int) else valueOf ds), rest)

def scanSignedPower : List Char → Option (Option Int × List Char)
  | '+' :: cs => scanPower false cs
  | '-' :: cs => scanPower true cs
  | cs => scanPower false cs

def scanExponent : List Char → Option (Option Int × List Char)
  | 'e' :: cs => scanSignedPower cs
  | 'E' :: cs => scanSignedPower cs
  | cs => some (none, cs)

def scanUnsigned (negative : Bool) (cs : List Char) : Option (Numeral × List Char) := do
  let (whole, cs) ← scanWhole cs
  let (fraction, cs) ← scanFraction cs
  let (exponent, cs) ← scanExponent cs
  return (⟨negative, whole, fraction, exponent⟩, cs)

/-- The longest numeral at the head of a text, and what follows it. -/
def scan : List Char → Option (Numeral × List Char)
  | '-' :: cs => scanUnsigned true cs
  | cs => scanUnsigned false cs

def ofString? (s : String) : Option Numeral :=
  match scan s.toList with
  | some (n, []) => some n
  | _ => none

def wordCount : Nat := 0x10000000000000000

/-- Without point and power of ten a numeral is an integer; minus zero is none. -/
def toInt? (n : Numeral) : Option Int :=
  if n.fraction ≠ [] ∨ n.exponent ≠ none ∨ (n.negative ∧ n.whole = 0) then none
  else if n.negative then some (-n.whole) else some n.whole

def toWord? (n : Numeral) : Option Nat :=
  match n.toInt? with
  | some (.ofNat k) => if k < wordCount then some k else none
  | _ => none

def toSignedWord? (n : Numeral) : Option Int :=
  match n.toInt? with
  | some k => if -(wordCount : Int) ≤ 2 * k ∧ 2 * k < wordCount then some k else none
  | none => none

end Numeral

end PhraseGrammar
