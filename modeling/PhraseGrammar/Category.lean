import PhraseGrammar.Grammar.Build

/-! Categories of entities. A category is registered under its name, and a symbol named after it
matches a placeholder for its entities. -/

namespace PhraseGrammar

variable {κ : Type}

def Category.acceptedForms (category : Category) : List String :=
  category.entities.flatMap (·.names)

/-- An entity shows something and has a name, and no name of it is vacant. -/
def Entity.isNamed (entity : Entity) : Bool :=
  !isVacant entity.display && !entity.names.isEmpty && !entity.names.any isVacant

/-- A name of a category: a token without braces. -/
def isCategoryName (name : String) : Bool :=
  isToken name && !name.toList.any fun c => c = '\x7b' || c = '\x7d'

/-- Registers a category and makes the symbol of its placeholder. -/
def Grammar.addCategory [Cost κ] (grammar : Grammar κ) (name : String)
    (entities : List Entity) : Except (Fault κ) (Grammar κ × Symbol) := do
  unless isCategoryName name do
    throw (.illFormed .category (.categoryName name))
  if entities.isEmpty then
    throw (.illFormed .category (.noEntities name))
  entities.forM fun entity =>
    unless entity.isNamed do
      throw (.illFormed .category (.vacantEntity entity.display name))
  let placeholder := SymbolName.placeholder name
  let (grammar, symbol) ← grammar.define placeholder [.word (.ofCategory name)] none
  return ({ grammar with categories := grammar.categories.insert name ⟨placeholder, entities⟩ },
    symbol)

end PhraseGrammar
