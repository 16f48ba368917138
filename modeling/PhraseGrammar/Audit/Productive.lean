import PhraseGrammar.SymbolSet

/-! Which symbols match any text at all. A property of symbols is carried through the rules: each
symbol that has it is looked at once, and with it the rules that need the symbol. -/

namespace PhraseGrammar

variable {κ : Type}

/-- The children that a rule cannot do without. -/
def PhraseRule.neededSymbols (rule : PhraseRule κ) : List Symbol :=
  (rule.slots.filter fun slot => !slot.optional).map (·.symbol)

/-- A symbol that has a property as soon as all those have it that it needs. -/
structure Demand where
  symbol : Symbol
  needs : List Symbol
deriving DecidableEq

/-- The need of a symbol by the demand at a place. -/
structure Need where
  symbol : Symbol
  place : Nat
deriving DecidableEq

namespace Need

/-- Needs are in the order of their symbols, those of one symbol in the order of their places. -/
def precedes (a b : Need) : Bool :=
  a.symbol.index < b.symbol.index || a.symbol.index = b.symbol.index && a.place ≤ b.place

def insert (need : Need) : List Need → List Need
  | [] => [need]
  | first :: rest =>
    if need.precedes first then need :: first :: rest else first :: need.insert rest

end Need

/-- Demands, and where each symbol is needed. -/
structure Demands where
  all : List Demand
  /-- All needs of the demands, in order. -/
  index : List Need
deriving DecidableEq

namespace Demands

def ofList (all : List Demand) : Demands where
  all
  index := (all.zipIdx.flatMap fun (demand, place) =>
    demand.needs.map fun symbol => ⟨symbol, place⟩).foldr Need.insert []

/-- The demands that need a symbol; one that needs it twice is there twice. -/
def needing (demands : Demands) (symbol : Symbol) : List Demand :=
  ((demands.index.dropWhile fun need => decide (need.symbol.index < symbol.index)).takeWhile
    fun need => decide (need.symbol = symbol)).filterMap fun need => demands.all[need.place]?

end Demands

/-- The symbols found to have a property. -/
structure Search where
  found : SymbolSet
  /-- Those that are still to be looked at. The last one found comes first. -/
  pending : List Symbol
deriving DecidableEq

namespace Search

def enter (search : Search) (symbol : Symbol) : Search :=
  if search.found.bits[symbol.index]? = some false then
    ⟨search.found.put symbol true, symbol :: search.pending⟩
  else search

/-- Finds the symbol of a demand once all that it needs is found. -/
def meet (search : Search) (demand : Demand) : Search :=
  if demand.needs.all search.found.contains then search.enter demand.symbol else search

/-- The symbols that can still be looked at: those that are pending, and those not yet found. -/
def remaining (search : Search) : Nat :=
  search.found.bits.count false + search.pending.length

theorem remaining_enter (search : Search) (symbol : Symbol) :
    (search.enter symbol).remaining = search.remaining := by
  unfold enter
  split
  case isTrue missing =>
    obtain ⟨inside, bit⟩ := List.getElem?_eq_some_iff.mp missing
    have some : 0 < search.found.bits.count false :=
      List.count_pos_iff.mpr (bit ▸ List.getElem_mem inside)
    have fewer : (search.found.bits.set symbol.index true).count false + 1 =
        search.found.bits.count false := by
      rw [List.count_set inside, bit]
      exact Nat.sub_add_cancel some
    simp only [remaining, SymbolSet.put, List.length_cons]
    omega
  case isFalse => rfl

theorem remaining_meet (search : Search) (demand : Demand) :
    (search.meet demand).remaining = search.remaining := by
  unfold meet
  split
  · exact remaining_enter ..
  · rfl

theorem remaining_foldl_meet (demands : List Demand) (search : Search) :
    (demands.foldl meet search).remaining = search.remaining :=
  List.foldlRecOn (motive := fun now => now.remaining = search.remaining) demands meet rfl
    fun now same demand _ => (remaining_meet now demand).trans same

end Search

namespace Demands

/-- Every member of a set is to be looked at; where nothing is needed, nothing is waited for. -/
def start (demands : Demands) (set : SymbolSet) : Search :=
  (demands.all.filter (·.needs.isEmpty)).foldl Search.meet ⟨set, set.members.reverse⟩

def turn (demands : Demands) : Search → Search
  | ⟨found, []⟩ => ⟨found, []⟩
  | ⟨found, symbol :: pending⟩ => (demands.needing symbol).foldl Search.meet ⟨found, pending⟩

theorem remaining_turn (demands : Demands) (found : SymbolSet) (symbol : Symbol)
    (pending : List Symbol) :
    (demands.turn ⟨found, symbol :: pending⟩).remaining + 1 =
      (Search.mk found (symbol :: pending)).remaining := by
  rw [turn, Search.remaining_foldl_meet]
  exact Nat.add_assoc ..

def search (demands : Demands) : Search → SymbolSet
  | ⟨found, []⟩ => found
  | ⟨found, symbol :: pending⟩ => demands.search (demands.turn ⟨found, symbol :: pending⟩)
termination_by search => search.remaining
decreasing_by exact Nat.lt_of_lt_of_eq (Nat.lt_succ_self _) (demands.remaining_turn ..)

end Demands

namespace Grammar

def demands (grammar : Grammar κ) : Demands :=
  .ofList (grammar.phraseRules.map fun (symbol, rule) => ⟨symbol, rule.neededSymbols⟩)

/-- The least larger set to which no rule adds a symbol. -/
def closure (grammar : Grammar κ) (set : SymbolSet) : SymbolSet :=
  let demands := grammar.demands
  demands.search (demands.start set)

def productive (grammar : Grammar κ) : SymbolSet :=
  grammar.closure grammar.immediate

end Grammar

end PhraseGrammar
