import PhraseGrammar.Proofs.Findings

/-! Derivation trees. A grammar that its audit accepts right after its first derivation has no
useless symbol: every symbol that has a rule occurs in a complete tree from the start symbol. -/

namespace PhraseGrammar

variable {κ : Type}

/-- How a symbol comes to match some text. An omitted child is left out of the children. -/
inductive DerivationTree (κ : Type)
  /-- The symbol matches the empty text. -/
  | empty (symbol : Symbol)
  | word (symbol : Symbol) (rule : WordRule κ)
  | phrase (symbol : Symbol) (rule : PhraseRule κ) (children : List (Option (DerivationTree κ)))

namespace DerivationTree

def root : DerivationTree κ → Symbol
  | empty symbol => symbol
  | word symbol _ => symbol
  | phrase symbol _ _ => symbol

inductive Contains : DerivationTree κ → Symbol → Prop
  | root (tree : DerivationTree κ) : Contains tree tree.root
  | child {symbol other : Symbol} {rule : PhraseRule κ} {tree : DerivationTree κ}
      {children : List (Option (DerivationTree κ))} : some tree ∈ children →
      Contains tree other → Contains (phrase symbol rule children) other

end DerivationTree

/-- A child has the symbol of its slot; only an optional one is omitted. -/
def Slot.Fits (slot : Slot) : Option (DerivationTree κ) → Prop
  | none => slot.optional = true
  | some tree => tree.root = slot.symbol

/-- Every node goes by a rule of the grammar, and the leaves are words, symbols that match the empty
text and omitted children. -/
inductive DerivationTree.IsComplete (grammar : Grammar κ) : DerivationTree κ → Prop
  | empty {symbol : Symbol} : grammar.matchesEmpty symbol = true →
      IsComplete grammar (.empty symbol)
  | word {symbol : Symbol} {rule : WordRule κ} : .word rule ∈ grammar.rulesOf symbol →
      IsComplete grammar (.word symbol rule)
  | phrase {symbol : Symbol} {rule : PhraseRule κ}
      {children : List (Option (DerivationTree κ))} : .phrase rule ∈ grammar.rulesOf symbol →
      List.Forall₂ Slot.Fits rule.slots children →
      (∀ tree, some tree ∈ children → IsComplete grammar tree) →
      IsComplete grammar (.phrase symbol rule children)

def Slot.Takes (grammar : Grammar κ) (slot : Slot) : Option (DerivationTree κ) → Prop
  | none => slot.optional = true
  | some tree => tree.root = slot.symbol ∧ tree.IsComplete grammar

namespace Grammar

variable {grammar : Grammar κ} {symbol child : Symbol}

theorem exists_takes {slot : Slot} (needed : slot.optional = false →
    ∃ tree, DerivationTree.IsComplete grammar tree ∧ tree.root = slot.symbol) :
    ∃ child, slot.Takes grammar child := by
  cases optional : slot.optional with
  | true => exact ⟨none, optional⟩
  | false =>
    obtain ⟨tree, complete, root⟩ := needed optional
    exact ⟨some tree, root, complete⟩

theorem isComplete_phrase {rule : PhraseRule κ} {children : List (Option (DerivationTree κ))}
    (mem : .phrase rule ∈ grammar.rulesOf symbol)
    (takes : List.Forall₂ (Slot.Takes grammar) rule.slots children) :
    (DerivationTree.phrase symbol rule children).IsComplete grammar := by
  refine .phrase mem (takes.imp fun slot child take => ?_) fun tree there => ?_
  · cases child with
    | none => exact take
    | some tree => exact take.1
  · obtain ⟨slot, -, take⟩ := exists_of_mem_right takes there
    exact take.2

/-- A symbol matches some text exactly when it is the root of a complete tree. -/
theorem produces_iff_exists_tree :
    grammar.Produces symbol ↔
      ∃ tree, DerivationTree.IsComplete grammar tree ∧ tree.root = symbol := by
  constructor
  · intro produces
    apply produces.least
    · intro symbol known
      exact ⟨_, .empty known, rfl⟩
    · intro symbol rule mem
      exact ⟨_, .word mem, rfl⟩
    · intro symbol rule mem needed
      obtain ⟨children, takes⟩ := exists_forall₂ fun slot there => exists_takes (needed slot there)
      exact ⟨_, isComplete_phrase mem takes, rfl⟩
  · rintro ⟨tree, complete, rfl⟩
    induction complete with
    | empty known => exact .empty known
    | word mem => exact .word mem
    | @phrase symbol rule children mem fits _ ih =>
      refine .phrase mem fun slot there needed => ?_
      obtain ⟨child, inside, fit⟩ := exists_of_mem_left fits there
      cases child with
      | none => exact absurd (needed.symm.trans fit) Bool.false_ne_true
      | some tree =>
        have root : tree.root = slot.symbol := fit
        exact root ▸ ih tree inside

/-- A complete tree grows at its root: by a rule with its symbol among the children, where the other
children match some text as well. -/
theorem exists_parent_tree {rule : PhraseRule κ} (mem : .phrase rule ∈ grammar.rulesOf symbol)
    {below : DerivationTree κ} (complete : below.IsComplete grammar)
    (there : below.root ∈ rule.symbols)
    (others : ∀ child ∈ rule.symbols, grammar.Produces child) :
    ∃ tree, DerivationTree.IsComplete grammar tree ∧ tree.root = symbol ∧
      ∀ other, below.Contains other → tree.Contains other := by
  have place : ∀ slot ∈ rule.slots, ∃ child, slot.Takes grammar child ∧
      (slot.symbol = below.root → child = some below) := by
    intro slot mem
    by_cases here : slot.symbol = below.root
    · exact ⟨some below, ⟨here.symm, complete⟩, fun _ => rfl⟩
    · have produces := others slot.symbol (List.mem_map_of_mem mem)
      obtain ⟨child, take⟩ := exists_takes fun _ => produces_iff_exists_tree.mp produces
      exact ⟨child, take, fun same => absurd same here⟩
  obtain ⟨children, places⟩ := exists_forall₂ place
  refine ⟨_, isComplete_phrase mem (places.imp fun _ _ h => h.1), rfl, ?_⟩
  intro other inside
  obtain ⟨slot, mem, root⟩ := List.mem_map.mp there
  obtain ⟨_, child, -, same⟩ := exists_of_mem_left places mem
  exact .child (same root ▸ child) inside

/-- The symbol occurs in a complete tree from the start symbol. -/
def IsUseful (grammar : Grammar κ) (symbol : Symbol) : Prop :=
  ∃ tree, DerivationTree.IsComplete grammar tree ∧ tree.root = .start ∧ tree.Contains symbol

def HasBareVanished (grammar : Grammar κ) : Prop :=
  ∀ parent, ∀ child ∈ grammar.vanishedOf parent, grammar.rulesOf child = []

/-- On a path to a symbol with rules every symbol has rules: a vanished child leads on to vanished
children only. So all steps go by rules, and a complete tree at the end grows along the path. -/
theorem HasBareVanished.exists_tree (h : grammar.HasBareVanished)
    (sound : grammar.IsSound)
    (productive : ∀ symbol, symbol.index < grammar.size → grammar.Produces symbol)
    (ruled : grammar.rulesOf symbol ≠ []) {top : Symbol}
    (path : Relation.ReflTransGen grammar.HasChild top symbol) :
    grammar.rulesOf top ≠ [] ∧ ∃ tree, DerivationTree.IsComplete grammar tree ∧
      tree.root = top ∧ tree.Contains symbol := by
  induction path using Relation.ReflTransGen.head_induction_on with
  | refl =>
    obtain ⟨rule, mem⟩ := List.exists_mem_of_ne_nil _ ruled
    obtain ⟨tree, complete, root⟩ :=
      produces_iff_exists_tree.mp (productive symbol (lt_size_of_mem_rulesOf mem))
    exact ⟨ruled, tree, complete, root, root ▸ .root tree⟩
  | @head parent child step _ ih =>
    obtain ⟨some, below, complete, rfl, inside⟩ := ih
    rcases mem_childrenOf.mp step with vanished | ⟨rule, mem, there⟩
    · exact absurd (h parent _ vanished) some
    · refine ⟨List.ne_nil_of_mem mem, ?_⟩
      have children := PhraseRule.IsSound.children (sound.rule mem)
      obtain ⟨tree, grown, root, contains⟩ := exists_parent_tree mem complete there
        fun child mem => productive child (children child mem)
      exact ⟨tree, grown, root, contains symbol inside⟩

theorem IsSound.produces_of_requireUsed (sound : grammar.IsSound)
    (used : grammar.requireUsed = .ok ())
    (productive : grammar.productive.contains .start = true) (known : symbol.index < grammar.size) :
    grammar.Produces symbol := by
  by_cases isEmpty : symbol = .empty
  · exact .empty (isEmpty ▸ rfl)
  · by_cases isStart : symbol = .start
    · exact (sound.productive_contains.mp (isStart ▸ productive)).2
    · have found := productive_of_requireUsed used known isStart isEmpty
      exact (sound.productive_contains.mp found).2

variable [Cost κ]

namespace HasBareVanished

theorem collapseRound (h : grammar.HasBareVanished) (sound : grammar.IsSound) :
    grammar.collapseRound.1.HasBareVanished := by
  intro parent child gone
  apply rulesOf_collapseRound_eq_nil
  rcases collapseRound_cases grammar parent with same | ⟨before, found, collapsed⟩
  · rw [vanishedOf, same, ← vanishedOf] at gone
    exact h parent child gone
  · rw [vanishedOf, collapsed, Option.map_some, Option.getD_some] at gone
    rcases List.mem_append.mp (List.mem_mergeSort.mp (mem_eraseReps.mp gone)) with old | new
    · refine h parent child ?_
      rw [vanishedOf, found]
      exact old
    · obtain ⟨_, -, -, vanishes, -⟩ := Entry.mem_gone.mp new
      exact (sound.of_vanishing vanishes).1

omit [Cost κ] in
theorem of_bare (h : grammar.HasBareVanished) {grown : Grammar κ} (bare : grown.bare = grammar.bare)
    (rules : ∀ symbol, grown.rulesOf symbol ≠ [] → grammar.rulesOf symbol ≠ []) :
    grown.HasBareVanished := by
  intro parent child gone
  rw [vanishedOf_eq_of_bare bare] at gone
  by_contra some
  exact rules child some (h parent child gone)

theorem insertionRound (h : grammar.HasBareVanished) :
    grammar.insertionRound.1.HasBareVanished := by
  apply h.of_bare (bare_insertWith _)
  intro symbol some
  obtain ⟨rule, mem⟩ := List.exists_mem_of_ne_nil _ some
  rcases of_mem_insertWith mem with old | ⟨made, -, offered⟩
  · exact List.ne_nil_of_mem old
  · obtain ⟨pair, there, -⟩ := mem_insertionOffers.mp offered
    exact List.ne_nil_of_mem there

theorem transpose (h : grammar.HasBareVanished) (sound : grammar.IsSound) :
    grammar.transpose.1.HasBareVanished := by
  apply h.of_bare bare_transpose
  intro symbol some
  obtain ⟨rule, mem⟩ := List.exists_mem_of_ne_nil _ some
  rcases (mem_rulesOf_transpose sound.apart).mp mem with old | ⟨made, -, transposed⟩
  · exact List.ne_nil_of_mem old
  · obtain ⟨pair, there, -⟩ := transposed.offered
    exact List.ne_nil_of_mem there

theorem derive (h : grammar.HasBareVanished) (sound : grammar.IsSound) :
    grammar.derive.1.HasBareVanished := by
  refine (derive_induction (Q := fun derived => derived.IsSound ∧ derived.HasBareVanished)
    (fun ⟨sound, bare⟩ => ⟨sound.collapseRound, bare.collapseRound sound⟩)
    (fun ⟨sound, bare⟩ => ⟨sound.insertionRound, bare.insertionRound⟩)
    (fun ⟨sound, bare⟩ => ⟨sound.transpose, bare.transpose sound⟩) ⟨sound, h⟩).2

theorem run {operations : List (Operation κ)} (underived : .derive ∉ operations) :
    (run operations).HasBareVanished := by
  intro parent child gone
  rw [vanishedOf] at gone
  cases found : (Grammar.run operations).entryOf? parent with
  | none =>
    rw [found] at gone
    exact absurd gone List.not_mem_nil
  | some entry =>
    have none := (run_unfilled underived entry (List.mem_of_getElem? found)).2
    rw [found, Option.map_some, Option.getD_some, none] at gone
    exact absurd gone List.not_mem_nil

end HasBareVanished

/-- After the first derivation of a run, whether it is refused or not: where nothing is unused and the
start symbol matches some text, every symbol that has a rule is useful. -/
theorem run_derive_isUseful {operations : List (Operation κ)} (underived : .derive ∉ operations)
    (used : (run operations).derive.1.requireUsed = .ok ())
    (productive : (run operations).derive.1.productive.contains .start = true) {symbol : Symbol}
    (ruled : (run operations).derive.1.rulesOf symbol ≠ []) :
    (run operations).derive.1.IsUseful symbol := by
  have sound := (IsSound.run operations).derive
  have bare := (HasBareVanished.run underived).derive (IsSound.run operations)
  generalize (run operations).derive.1 = grammar at used productive ruled sound bare ⊢
  obtain ⟨rule, mem⟩ := List.exists_mem_of_ne_nil _ ruled
  have path : Relation.ReflTransGen grammar.HasChild .start symbol := by
    by_cases isStart : symbol = .start
    · rw [isStart]
    · exact sound.reachable_contains.mp (reachable_of_requireUsed used
        (lt_size_of_mem_rulesOf mem) isStart (sound.ne_empty mem))
  exact (bare.exists_tree sound
    (fun _ known => sound.produces_of_requireUsed used productive known) ruled path).2

/-- A greeting is a word after padding, or nothing; a sentence is a greeting, with a word before it
that may be absent. -/
def paddedGreeting : List (Operation Float) :=
  [.newSymbol ["padding"], .newSymbol ["word"], .newSymbol ["greeting"],
    .addRule ⟨2⟩ (.phrase (.ofSymbols [.empty])), .addRule ⟨3⟩ (.word (.ofLiteral "hello")),
    .addRule ⟨4⟩ (.phrase (.ofSymbols [⟨2⟩, ⟨3⟩])), .addRule ⟨4⟩ (.phrase (.ofSymbols [.empty])),
    .addRule .start (.phrase (.ofSlots [{ Slot.ofSymbol ⟨3⟩ with optional := true },
      .ofSymbol ⟨4⟩]))]

/-- The padding is gone from the rules, and the greeting is useful. -/
theorem paddedGreeting_isUseful :
    .derive ∉ paddedGreeting ∧ (run paddedGreeting).derive.1.requireUsed = .ok () ∧
      (run paddedGreeting).derive.1.productive.contains .start = true ∧
      (run paddedGreeting).derive.1.rulesOf ⟨4⟩ ≠ [] ∧
      (run paddedGreeting).derive.1.IsUseful ⟨4⟩ := by
  have underived : .derive ∉ paddedGreeting := by
    simp only [paddedGreeting, List.mem_cons, reduceCtorEq, List.not_mem_nil, or_self,
      not_false_eq_true]
  have used : (run paddedGreeting).derive.1.requireUsed = .ok () := by
    rw [requireUsed_ok]
    decide +kernel
  have productive : (run paddedGreeting).derive.1.productive.contains .start = true := by
    decide +kernel
  have ruled : (run paddedGreeting).derive.1.rulesOf ⟨4⟩ ≠ [] := by decide +kernel
  exact ⟨underived, used, productive, ruled,
    run_derive_isUseful underived used productive ruled⟩

end Grammar

end PhraseGrammar
