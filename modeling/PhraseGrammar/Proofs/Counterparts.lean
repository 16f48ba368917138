import PhraseGrammar.Proofs.Consistency
import PhraseGrammar.Proofs.Mirroring

/-! Grammars that are the same up to the order in which their symbols were made and their rules
added. The symbols of one are told from those of the other by their names. -/

namespace PhraseGrammar

variable {κ : Type}

namespace Grammar

/-- The symbol of another grammar that has the name of a symbol. -/
def counterpart (grammar other : Grammar κ) (symbol : Symbol) : Symbol :=
  (other.symbol? (grammar.nameOf symbol)).getD symbol

def SameRules (origins : Origin → Prop) (grammar other : Grammar κ) : Prop :=
  ∀ symbol, symbol.index < grammar.size → ∀ rule, origins rule.origin →
    (rule ∈ other.rulesOf (grammar.counterpart other symbol) ↔
      ∃ own ∈ grammar.rulesOf symbol, own.rename (grammar.counterpart other) = rule)

def SameZeroFillers (grammar other : Grammar κ) : Prop :=
  ∀ symbol, symbol.index < grammar.size →
    other.zeroFiller? (grammar.counterpart other symbol) = grammar.zeroFiller? symbol

/-- Two grammars with the same names, of which each has the same rules and is the same item of the
vocabulary, and with the same signatures and categories. -/
structure SameUpToOrder (grammar other : Grammar κ) : Prop where
  names : ∀ name, (other.symbol? name).isSome = (grammar.symbol? name).isSome
  rules : grammar.SameRules (fun _ => True) other
  items : ∀ symbol, symbol.index < grammar.size →
    other.item? (grammar.counterpart other symbol) = grammar.item? symbol
  signatures : other.signatures = grammar.signatures
  categories : other.categories = grammar.categories

variable {grammar other : Grammar κ}

theorem isSome_symbol?_iff {name : String} :
    (grammar.symbol? name).isSome = true ↔ name ∈ grammar.entries.map (·.name) := by
  rw [symbol?, Option.isSome_map, List.findIdx?_isSome, List.any_eq_true, List.mem_map]
  exact exists_congr fun entry => and_congr_right fun _ => beq_iff_eq

theorem size_eq_of_names (sound : grammar.IsSound) (sound' : other.IsSound)
    (names : ∀ name, (other.symbol? name).isSome = (grammar.symbol? name).isSome) :
    other.size = grammar.size := by
  have perm : (other.entries.map (·.name)).Perm (grammar.entries.map (·.name)) := by
    refine (List.perm_ext_iff_of_nodup sound'.names sound.names).mpr fun name => ?_
    rw [← isSome_symbol?_iff, ← isSome_symbol?_iff, names]
  have length := perm.length_eq
  rwa [List.length_map, List.length_map] at length

theorem IsSound.symbol?_congr (sound : grammar.IsSound) (sound' : other.IsSound)
    (size : other.size = grammar.size)
    (names : ∀ symbol, other.nameOf symbol = grammar.nameOf symbol) (name : String) :
    other.symbol? name = grammar.symbol? name := by
  ext symbol
  rw [sound.symbol?_eq_some, sound'.symbol?_eq_some, size, names]

theorem counterpart_congr {grown grown' : Grammar κ} (sound : other.IsSound)
    (sound' : grown'.IsSound) (names : ∀ symbol, grown.nameOf symbol = grammar.nameOf symbol)
    (size' : grown'.size = other.size)
    (names' : ∀ symbol, grown'.nameOf symbol = other.nameOf symbol) :
    grown.counterpart grown' = grammar.counterpart other := by
  funext symbol
  rw [counterpart, counterpart, names, sound.symbol?_congr sound' size' names']

section Counterpart

variable (sound : grammar.IsSound) (sound' : other.IsSound)
  (names : ∀ name, (other.symbol? name).isSome = (grammar.symbol? name).isSome)

include sound sound' names

theorem counterpart_spec {symbol : Symbol} (known : symbol.index < grammar.size) :
    (grammar.counterpart other symbol).index < other.size ∧
      other.nameOf (grammar.counterpart other symbol) = grammar.nameOf symbol := by
  have mine : grammar.symbol? (grammar.nameOf symbol) = some symbol :=
    sound.symbol?_eq_some.mpr ⟨known, rfl⟩
  have some : (other.symbol? (grammar.nameOf symbol)).isSome = true := by rw [names, mine]; rfl
  obtain ⟨found, same⟩ := Option.isSome_iff_exists.mp some
  rw [counterpart, same, Option.getD_some]
  exact sound'.symbol?_eq_some.mp same

theorem isRenaming_counterpart : IsRenaming grammar.size (grammar.counterpart other) where
  maps symbol known :=
    size_eq_of_names sound sound' names ▸ (counterpart_spec sound sound' names known).1
  injective a b ha hb same := by
    refine sound.nameOf_inj ha hb ?_
    rw [← (counterpart_spec sound sound' names ha).2, same,
      (counterpart_spec sound sound' names hb).2]
  onto symbol known := by
    have known' : symbol.index < other.size := size_eq_of_names sound sound' names ▸ known
    have back := counterpart_spec sound' sound (fun name => (names name).symm) known'
    refine ⟨other.counterpart grammar symbol, back.1, ?_⟩
    have mine : other.symbol? (other.nameOf symbol) = some symbol :=
      sound'.symbol?_eq_some.mpr ⟨known', rfl⟩
    rw [counterpart, back.2, mine, Option.getD_some]
  empty := by
    have known : Symbol.empty.index < grammar.size := entryOf?_isSome.mp (sound.empty ▸ rfl)
    refine ⟨known, ?_⟩
    have name : grammar.nameOf .empty = SymbolName.empty := by
      rw [nameOf, sound.empty]
      rfl
    have found : other.symbol? SymbolName.empty = some .empty := sound'.isConsistent.empty
    rw [counterpart, name, found, Option.getD_some]

end Counterpart

theorem AllRules.isBelow (sound : grammar.IsSound) (authored : grammar.AllRules Rule.IsAuthored) :
    grammar.AllRules (Rule.IsBelow grammar.size) := by
  intro symbol rule mem
  have shape := authored symbol rule mem
  have known := sound.rule mem
  cases rule with
  | word rule => exact trivial
  | phrase rule =>
    refine ⟨fun slot there => known.children _ (List.mem_map_of_mem there), ?_⟩
    rw [shape.2]
    exact nofun

theorem perm_of_mem_iff {π : Symbol → Symbol} (ren : IsRenaming grammar.size π)
    (below : grammar.AllRules (Rule.IsBelow grammar.size)) {symbol symbol' : Symbol}
    (apart : Rule.Apart (grammar.rulesOf symbol)) (apart' : Rule.Apart (other.rulesOf symbol'))
    (same : ∀ rule, rule ∈ other.rulesOf symbol' ↔
      ∃ own ∈ grammar.rulesOf symbol, own.rename π = rule) :
    (other.rulesOf symbol').Perm ((grammar.rulesOf symbol).map (Rule.rename π)) := by
  have ne : ∀ {a b : Rule κ}, a.side ≠ b.side → a ≠ b := fun sides same => sides (same ▸ rfl)
  have nodup : ((grammar.rulesOf symbol).map (Rule.rename π)).Nodup := by
    refine List.pairwise_map.mpr (List.Pairwise.imp_of_mem (fun ha hb sides => ?_) apart)
    exact ne (mt (ren.side_inj (below symbol _ ha) (below symbol _ hb)).mp sides)
  refine (List.perm_ext_iff_of_nodup (apart'.imp ne) nodup).mpr fun rule => ?_
  rw [same, List.mem_map]

theorem SameUpToOrder.of_perm
    (names : (other.entries.map (·.name)).Perm (grammar.entries.map (·.name)))
    (rules : ∀ index < grammar.size,
      (other.rulesOf (grammar.counterpart other ⟨index⟩)).Perm
        ((grammar.rulesOf ⟨index⟩).map (Rule.rename (grammar.counterpart other))))
    (items : ∀ index < grammar.size,
      other.item? (grammar.counterpart other ⟨index⟩) = grammar.item? ⟨index⟩)
    (signatures : other.signatures = grammar.signatures)
    (categories : other.categories = grammar.categories) : grammar.SameUpToOrder other where
  names name := by
    rw [Bool.eq_iff_iff, isSome_symbol?_iff, isSome_symbol?_iff, names.mem_iff]
  rules symbol known rule _ := by
    rw [(rules symbol.index known).mem_iff, List.mem_map]
  items symbol known := items symbol.index known
  signatures := signatures
  categories := categories

/-- Before a derivation, grammars that are the same up to order are so under other symbols. -/
theorem SameUpToOrder.mirrors (same : grammar.SameUpToOrder other) (sound : grammar.IsSound)
    (sound' : other.IsSound) (authored : grammar.AllRules Rule.IsAuthored)
    (unfilled : ∀ symbol, grammar.zeroFiller? symbol = none)
    (unfilled' : ∀ symbol, other.zeroFiller? symbol = none) :
    grammar.Mirrors (grammar.counterpart other) other where
  ren := isRenaming_counterpart sound sound' same.names
  size := size_eq_of_names sound sound' same.names
  names symbol known := (counterpart_spec sound sound' same.names known).2
  signatures := same.signatures
  below := authored.isBelow sound
  rules symbol known :=
    perm_of_mem_iff (isRenaming_counterpart sound sound' same.names) (authored.isBelow sound)
      (sound.apart symbol) (sound'.apart _) fun rule => same.rules symbol known rule trivial
  zeroFillers symbol _ := by rw [unfilled, unfilled']

end Grammar

end PhraseGrammar
