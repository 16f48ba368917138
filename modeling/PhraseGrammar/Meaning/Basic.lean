/-! Meanings: trees of functions over arguments and entities. -/

namespace PhraseGrammar

inductive Meaning
  /-- A function with its arguments; without arguments it still waits for them. -/
  | apply (function : String) (args : List Meaning)
  | argument (name : String)
  /-- Whatever entity of the category is found in the input. -/
  | entity (category : String)

namespace Meaning

mutual

def decEq : (a b : Meaning) → Decidable (a = b)
  | .apply f xs, .apply g ys =>
    match decEqAll xs ys with
    | isTrue sameArgs =>
      if sameName : f = g then isTrue (by rw [sameArgs, sameName])
      else isFalse fun same => sameName (Meaning.apply.inj same).1
    | isFalse otherArgs => isFalse fun same => otherArgs (Meaning.apply.inj same).2
  | .argument a, .argument b =>
    if same : a = b then isTrue (by rw [same]) else isFalse fun h => same (Meaning.argument.inj h)
  | .entity a, .entity b =>
    if same : a = b then isTrue (by rw [same]) else isFalse fun h => same (Meaning.entity.inj h)
  | .apply _ _, .argument _ => isFalse nofun
  | .apply _ _, .entity _ => isFalse nofun
  | .argument _, .apply _ _ => isFalse nofun
  | .argument _, .entity _ => isFalse nofun
  | .entity _, .apply _ _ => isFalse nofun
  | .entity _, .argument _ => isFalse nofun

def decEqAll : (xs ys : List Meaning) → Decidable (xs = ys)
  | [], [] => isTrue rfl
  | [], _ :: _ => isFalse nofun
  | _ :: _, [] => isFalse nofun
  | x :: xs, y :: ys =>
    match decEq x y, decEqAll xs ys with
    | isTrue sameHead, isTrue sameTail => isTrue (by rw [sameHead, sameTail])
    | isFalse other, _ => isFalse fun same => other (List.cons.inj same).1
    | _, isFalse other => isFalse fun same => other (List.cons.inj same).2

end

instance : DecidableEq Meaning := decEq

mutual

/-- Functions come first, then arguments, then entities. Functions are ordered by name, then by
their arguments from the first one on. -/
def compare : Meaning → Meaning → Ordering
  | .apply f xs, .apply g ys => (Ord.compare f g).then (compareAll xs ys)
  | .apply _ _, _ => .lt
  | .argument _, .apply _ _ => .gt
  | .argument a, .argument b => Ord.compare a b
  | .argument _, .entity _ => .lt
  | .entity a, .entity b => Ord.compare a b
  | .entity _, _ => .gt

def compareAll : List Meaning → List Meaning → Ordering
  | [], [] => .eq
  | [], _ :: _ => .lt
  | _ :: _, [] => .gt
  | x :: xs, y :: ys => (compare x y).then (compareAll xs ys)

end

instance : Ord Meaning := ⟨compare⟩

/-- Whether the meaning no longer waits for arguments. -/
def isReduced : Meaning → Bool
  | .apply _ [] => false
  | _ => true

mutual

def names : Meaning → List String
  | .apply f args => f :: namesOfAll args
  | .argument name => [name]
  | .entity _ => []

def namesOfAll : List Meaning → List String
  | [] => []
  | x :: xs => names x ++ namesOfAll xs

end

mutual

def categories : Meaning → List String
  | .apply _ args => categoriesOfAll args
  | .argument _ => []
  | .entity category => [category]

def categoriesOfAll : List Meaning → List String
  | [] => []
  | x :: xs => categories x ++ categoriesOfAll xs

end

mutual

/-- A function is followed by its arguments in parentheses; a category stands in braces. -/
def render : Meaning → List Char
  | .apply f args => f.toList ++ '(' :: renderAll args ++ [')']
  | .argument name => name.toList
  | .entity category => '\x7b' :: category.toList ++ ['\x7d']

def renderAll : List Meaning → List Char
  | [] => []
  | [x] => render x
  | x :: y :: rest => render x ++ ',' :: renderAll (y :: rest)

end

def toText (meaning : Meaning) : String := String.ofList meaning.render

end Meaning

end PhraseGrammar
