import PhraseGrammar.Artifact.Decoder
import PhraseGrammar.Artifact.Encoder
import PhraseGrammar.Audit.Basic
import PhraseGrammar.Derivation.Basic
import PhraseGrammar.Disk.Basic

/-! Publication of a grammar: its rules are derived, its parts audited, and its artifact is put in
the place of the one before it. -/

namespace PhraseGrammar

variable {κ : Type}

/-- Numbers of rules of an artifact and of the one that it replaced. -/
structure RuleCounts where
  current : Nat
  /-- Absent when no artifact could be read. -/
  previous : Option Nat
deriving DecidableEq

namespace RuleCounts

/-- The rules gained, as a signed 64-bit number. -/
def gain? (counts : RuleCounts) : Option Int :=
  counts.previous.map fun previous => Int.bmod (counts.current - previous) Numeral.wordCount

/-- One number when nothing was gained or lost. -/
def report (counts : RuleCounts) : String :=
  match counts.previous with
  | some previous =>
    if previous = counts.current then s!"Rules: {counts.current}"
    else s!"Rules: {previous} -> {counts.current}"
  | none => s!"Rules: {counts.current}"

end RuleCounts

/-- How a grammar is published: to which file, in which layout, and whether unused parts
are refused. -/
structure PublicationSettings where
  route : Route := .ofName "grammar.json"
  layout : JsonLayout := .indented
  requireUsed : Bool := true

namespace Artifact

variable [WrittenCost κ]

def load (disk : Disk) (route : Route) : Except (Fault κ) (Artifact κ) :=
  match disk.read? route with
  | some text => read text
  | none => .error .storage

def store (artifact : Artifact κ) (layout : JsonLayout) (disk : Disk) (route : Route) :
    Disk × Except (Fault κ) Unit :=
  match disk.replace route (artifact.write layout) with
  | (disk, true) => (disk, .ok ())
  | (disk, false) => (disk, .error .storage)

end Artifact

namespace Grammar

variable [Cost κ] [WrittenCost κ]

omit [WrittenCost κ] in
def prepare (grammar : Grammar κ) (requireUsed : Bool) : Except (Fault κ) (Artifact κ) := do
  let (derived, result) := grammar.derive
  discard result
  if requireUsed then
    derived.requireUsed
  return derived.artifact

/-- Nothing is written unless the artifact can be prepared. -/
def publish (grammar : Grammar κ) (settings : PublicationSettings) (disk : Disk) :
    Disk × Except (Fault κ) RuleCounts :=
  match grammar.prepare settings.requireUsed with
  | .error fault => (disk, .error fault)
  | .ok artifact =>
    let previous : Except (Fault κ) (Artifact κ) := Artifact.load disk settings.route
    let (disk, result) := artifact.store settings.layout disk settings.route
    (disk, result.map fun _ => ⟨artifact.ruleCount, previous.toOption.map (·.ruleCount)⟩)

end Grammar

end PhraseGrammar
