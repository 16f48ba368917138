/-! What a grammar declares and never uses, by name. -/

namespace PhraseGrammar

structure Unused where
  /-- Symbols that no sentence can contain. -/
  unreachable : List String
  /-- Symbols within reach that match no text. -/
  unproductive : List String
  meanings : List String
  categories : List String
deriving DecidableEq

namespace Unused

def isEmpty (unused : Unused) : Bool :=
  unused.unreachable.isEmpty && unused.unproductive.isEmpty && unused.meanings.isEmpty &&
    unused.categories.isEmpty

def lines (label : String) (names : List String) : String :=
  String.join (names.map fun name => s!"  {label} `{name}`\n")

/-- One line for each unused name. -/
def report (unused : Unused) : String :=
  lines "unreachable symbol" unused.unreachable ++
    lines "unproductive symbol" unused.unproductive ++
    lines "unused semantic" unused.meanings ++
    lines "unused entity category" unused.categories

end Unused

end PhraseGrammar
