import PhraseGrammar.Fault
import PhraseGrammar.Table
import PhraseGrammar.Text.Blank

/-! Signatures of the functions and arguments from which meanings are composed. -/

namespace PhraseGrammar

variable {κ : Type}

/-- How a function or an argument may be used, and what it costs. -/
structure Signature (κ : Type) where
  cost : κ
  least : Nat
  greatest : Nat
  /-- The order of the arguments does not matter. -/
  commutative : Bool
  isArgument : Bool
deriving DecidableEq

abbrev Signatures (κ : Type) := Table (Signature κ)

namespace Signatures

def requireName (what : Declaration) (name : String) : Except (Fault κ) Unit :=
  if isToken name then .ok () else .error (.illFormed what (.meaningName name))

def declare (signatures : Signatures κ) (name : String) (signature : Signature κ) :
    Except (Fault κ) (Signatures κ) :=
  if signatures.contains name then .error (.duplicateMeaning name)
  else .ok (signatures.insert name signature)

def declareFunction [Cost κ] (signatures : Signatures κ) (name : String) (cost : κ)
    (least greatest : Nat) (commutative : Bool) :
    Except (Fault κ) (Signatures κ × Meaning) := do
  requireName .function name
  requireCost .function .own cost
  if greatest = 0 then
    throw (.illFormed .function (.noParameters name))
  if greatest < least then
    throw (.illFormed .function (.arityBounds name least greatest))
  let signatures ← declare signatures name ⟨cost, least, greatest, commutative, false⟩
  return (signatures, .apply name [])

def declareArgument [Cost κ] (signatures : Signatures κ) (name : String) (cost : κ) :
    Except (Fault κ) (Signatures κ × Meaning) := do
  requireName .argument name
  requireCost .argument .own cost
  let signatures ← declare signatures name ⟨cost, 0, 0, false, true⟩
  return (signatures, .argument name)

def function? (signatures : Signatures κ) (name : String) : Option (Signature κ) :=
  (signatures.get? name).filter fun signature => !signature.isArgument

def arrange (signature : Signature κ) (args : List Meaning) : List Meaning :=
  if signature.commutative then args.mergeSort fun a b => (Ord.compare a b).isLE else args

def applyNamed (signatures : Signatures κ) (name : String) (args : List Meaning) :
    Except (Fault κ) Meaning :=
  match signatures.function? name with
  | none => .error (.unknownFunction name)
  | some signature =>
    if args.length < signature.least ∨ signature.greatest < args.length then
      .error (.arity name signature.least signature.greatest args.length)
    else .ok (.apply name (arrange signature args))

/-- Gives a function that waits for arguments its arguments. Arguments of a commutative function are
put in ascending order, so their order leaves no trace. -/
def compose (signatures : Signatures κ) (function : Meaning) (args : List Meaning) :
    Except (Fault κ) Meaning :=
  match function with
  | .apply name [] => signatures.applyNamed name args
  | .apply _ (_ :: _) => .error (.illFormed .composition (.alreadyReduced function))
  | .argument name => .error (.unknownFunction name)
  | .entity category => .error (.unknownFunction category)

/-- The declared cost of a name; a name without declaration costs nothing. -/
def costOfName [Cost κ] (signatures : Signatures κ) (name : String) : κ :=
  ((signatures.get? name).map (·.cost)).getD 0

mutual

/-- The cost of all functions and arguments in a meaning. The costs of arguments are summed from
the first one on, and their sum is added to the function's own cost. -/
def costOf [Cost κ] (signatures : Signatures κ) : Meaning → κ
  | .apply f [] => costOfName signatures f
  | .apply f (x :: xs) => costOfName signatures f + costOfRest signatures (costOf signatures x) xs
  | .argument name => costOfName signatures name
  | .entity _ => 0

def costOfRest [Cost κ] (signatures : Signatures κ) (sum : κ) : List Meaning → κ
  | [] => sum
  | x :: xs => costOfRest signatures (sum + costOf signatures x) xs

end

end Signatures

end PhraseGrammar
