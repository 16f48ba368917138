import PhraseGrammar.Grammar.Basic

/-! Sets of the symbols of a grammar, one bit for each symbol. -/

namespace PhraseGrammar

variable {κ : Type}

/-- The symbols whose bit is set. -/
structure SymbolSet where
  bits : List Bool
deriving DecidableEq

namespace SymbolSet

def new : SymbolSet := ⟨[]⟩

def filled (size : Nat) (bit : Bool) : SymbolSet := ⟨List.replicate size bit⟩

def ofTest (size : Nat) (test : Symbol → Bool) : SymbolSet :=
  ⟨(List.range size).map fun i => test ⟨i⟩⟩

def contains (set : SymbolSet) (symbol : Symbol) : Bool :=
  set.bits[symbol.index]?.getD false

/-- The number of bits, set or not. -/
def size (set : SymbolSet) : Nat := set.bits.length

def members (set : SymbolSet) : List Symbol :=
  ((List.range set.size).map Symbol.mk).filter set.contains

def isFull (set : SymbolSet) : Bool := set.bits.all id

def put (set : SymbolSet) (symbol : Symbol) (bit : Bool) : SymbolSet :=
  ⟨set.bits.set symbol.index bit⟩

def putAll (set : SymbolSet) (symbols : List Symbol) : SymbolSet :=
  symbols.foldl (fun set symbol => set.put symbol true) set

theorem mem_members {set : SymbolSet} {symbol : Symbol} :
    symbol ∈ set.members ↔ set.contains symbol = true := by
  simp only [members, List.mem_filter, List.mem_map, List.mem_range, and_iff_right_iff_imp]
  intro h
  refine ⟨symbol.index, ?_, rfl⟩
  refine Decidable.byContradiction fun outside => ?_
  rw [contains, List.getElem?_eq_none (Nat.le_of_not_lt outside)] at h
  exact Bool.false_ne_true h

theorem contains_ofTest (size : Nat) (test : Symbol → Bool) (symbol : Symbol) :
    (ofTest size test).contains symbol = (decide (symbol.index < size) && test symbol) := by
  by_cases h : symbol.index < size <;> simp [ofTest, contains, h]

def complement (set : SymbolSet) : SymbolSet := ⟨set.bits.map not⟩

def union (a b : SymbolSet) : SymbolSet := ⟨a.bits.zipWith or b.bits⟩

def inter (a b : SymbolSet) : SymbolSet := ⟨a.bits.zipWith and b.bits⟩

def diff (a b : SymbolSet) : SymbolSet := ⟨a.bits.zipWith (fun x y => x && !y) b.bits⟩

end SymbolSet

namespace Grammar

def reserved (grammar : Grammar κ) : SymbolSet :=
  .ofTest grammar.size fun symbol => symbol = .start || symbol = .empty

/-- The symbols that match the empty text or a single token by a rule of their own. -/
def immediate (grammar : Grammar κ) : SymbolSet :=
  .ofTest grammar.size fun symbol =>
    grammar.matchesEmpty symbol || (grammar.rulesOf symbol).any Rule.isWord

end Grammar

end PhraseGrammar
