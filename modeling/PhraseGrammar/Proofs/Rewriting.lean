import Mathlib.Logic.Function.Iterate
import PhraseGrammar.Proofs.Matching

/-! Which rules are left when collapsing is done: those without vanishing children stay in front, as
they were and in their order, and each of the others is rewritten without these children, or
removed when it has no other ones. -/

namespace PhraseGrammar

variable {κ : Type}

namespace Fillers

variable {vanishing later : Fillers κ}

def lasting (vanishing : Fillers κ) (slots : List Slot) : List Slot :=
  slots.filter fun slot => (vanishing.of? slot.symbol).isNone

def Subset (vanishing later : Fillers κ) : Prop :=
  ∀ symbol, (vanishing.of? symbol).isSome = true → (later.of? symbol).isSome = true

theorem Subset.lasting_lasting (more : vanishing.Subset later) (slots : List Slot) :
    later.lasting (vanishing.lasting slots) = later.lasting slots := by
  refine List.filter_filter.trans (List.filter_congr fun slot _ => ?_)
  simp only [← Option.not_isSome]
  cases gone : (vanishing.of? slot.symbol).isSome with
  | false => rw [Bool.not_false, Bool.and_true]
  | true => rw [more _ gone, Bool.not_true, Bool.false_and]

end Fillers

namespace PhraseRule

variable {vanishing later : Fillers κ} {rule : PhraseRule κ}

theorem staying_eq_nil : rule.staying vanishing = [] ↔ vanishing.lasting rule.slots = [] := by
  rw [Fillers.lasting, ← staying_slots, List.map_eq_nil_iff]

theorem lasting_of_not_hasVanishing (h : rule.hasVanishing vanishing = false) :
    vanishing.lasting rule.slots = rule.slots := by
  refine List.filter_eq_self.mpr fun slot mem => ?_
  rw [Option.isNone_iff_eq_none, ← Option.not_isSome_iff_eq_none]
  intro gone
  rw [hasVanishing_iff.mpr ⟨slot, mem, gone⟩] at h
  cases h

theorem hasVanishing_mono (more : vanishing.Subset later)
    (h : rule.hasVanishing vanishing = true) : rule.hasVanishing later = true := by
  obtain ⟨slot, mem, gone⟩ := hasVanishing_iff.mp h
  exact hasVanishing_iff.mpr ⟨slot, mem, more _ gone⟩

theorem filter_hasVanishing_filter (more : vanishing.Subset later) (rules : List (PhraseRule κ)) :
    (rules.filter (·.hasVanishing later)).filter (·.hasVanishing vanishing) =
      rules.filter (·.hasVanishing vanishing) := by
  rw [List.filter_filter]
  refine List.filter_congr fun rule _ => ?_
  cases gone : rule.hasVanishing vanishing with
  | false => rfl
  | true => exact hasVanishing_mono more gone

/-- The right-hand sides without the vanishing children, where any child is left. -/
def sidesLeft (vanishing : Fillers κ) (rules : List (PhraseRule κ)) : List (List Slot) :=
  (rules.map fun rule => vanishing.lasting rule.slots).filter (· ≠ [])

theorem sidesLeft_append (rules rest : List (PhraseRule κ)) :
    sidesLeft vanishing (rules ++ rest) = sidesLeft vanishing rules ++ sidesLeft vanishing rest := by
  simp only [sidesLeft, List.map_append, List.filter_append]

theorem sidesLeft_perm {rules others : List (PhraseRule κ)} (same : rules.Perm others) :
    (sidesLeft vanishing rules).Perm (sidesLeft vanishing others) :=
  (same.map _).filter _

theorem sidesLeft_eq_slots {rules : List (PhraseRule κ)}
    (none : ∀ rule ∈ rules, rule.hasVanishing vanishing = false)
    (some : ∀ rule ∈ rules, rule.slots ≠ []) :
    sidesLeft vanishing rules = rules.map (·.slots) := by
  have same : rules.map (fun rule => vanishing.lasting rule.slots) = rules.map (·.slots) :=
    List.map_congr_left fun rule mem => lasting_of_not_hasVanishing (none rule mem)
  rw [sidesLeft, same, List.filter_eq_self]
  intro slots mem
  obtain ⟨rule, there, rfl⟩ := List.mem_map.mp mem
  exact decide_eq_true (some rule there)

variable [Cost κ]

theorem remainder_slots : (rule.remainder vanishing).slots = vanishing.lasting rule.slots :=
  staying_slots

theorem mem_symbols_remainder {child : Symbol} :
    child ∈ (rule.remainder vanishing).symbols ↔
      child ∈ rule.symbols ∧ (vanishing.of? child).isSome = false := by
  rw [symbols, remainder_slots, symbols, List.mem_map, List.mem_map]
  constructor
  · rintro ⟨slot, stays, rfl⟩
    obtain ⟨mem, stays⟩ := List.mem_filter.mp stays
    exact ⟨⟨slot, mem, rfl⟩, by simpa using stays⟩
  · rintro ⟨⟨slot, mem, rfl⟩, stays⟩
    exact ⟨slot, List.mem_filter.mpr ⟨mem, by simpa using stays⟩, rfl⟩

def rewritten (vanishing : Fillers κ) (rules : List (PhraseRule κ)) : List (PhraseRule κ) :=
  ((rules.filter (·.hasVanishing vanishing)).filter (vanishing.lasting ·.slots ≠ [])).map
    (remainder vanishing)

theorem rewritten_slots (rules : List (PhraseRule κ)) :
    (rewritten vanishing rules).map (·.slots) =
      sidesLeft vanishing (rules.filter (·.hasVanishing vanishing)) := by
  rw [rewritten, sidesLeft, List.filter_map, List.map_map]
  exact List.map_congr_left fun _ _ => remainder_slots

theorem origin_of_mem_rewritten {rules : List (PhraseRule κ)}
    (h : rule ∈ rewritten vanishing rules) : rule.origin = .collapsed := by
  obtain ⟨_, -, rfl⟩ := List.mem_map.mp h
  rfl

end PhraseRule

namespace Entry

variable [Cost κ] {signatures : Signatures κ} {vanishing : Fillers κ} (entry : Entry κ)

theorem remainders_eq_rewritten :
    entry.remainders signatures vanishing =
      (PhraseRule.rewritten vanishing entry.phraseRules).map .phrase := by
  unfold remainders affected PhraseRule.rewritten
  generalize entry.phraseRules.filter (·.hasVanishing vanishing) = rules
  induction rules with
  | nil => rfl
  | cons rule rest ih =>
    rw [List.map_cons, List.filterMap_cons, ih, PhraseRule.remains]
    by_cases none : rule.staying vanishing = []
    · rw [if_pos (List.isEmpty_iff.mpr none),
        List.filter_cons_of_neg (by simpa using PhraseRule.staying_eq_nil.mp none)]
      rfl
    · rw [if_neg (mt List.isEmpty_iff.mp none),
        List.filter_cons_of_pos (by simpa using mt PhraseRule.staying_eq_nil.mpr none)]
      rfl

theorem length_affected :
    (entry.affected vanishing).length =
      (entry.remainders signatures vanishing).length +
        (entry.zeroFillers signatures vanishing).length := by
  unfold remainders zeroFillers
  generalize entry.affected vanishing = rules
  induction rules with
  | nil => rfl
  | cons rule rest ih =>
    rw [List.map_cons, List.filterMap_cons, List.filterMap_cons, List.length_cons, ih]
    cases rule.remains signatures vanishing <;>
      simp only [Remains.rule?, Remains.filler?, List.length_cons] <;> omega

end Entry

/-- Rules as they are after the children that vanish have been dropped: in front those that had
none of them, then those that are rewritten. -/
structure Gathers (vanishing : Fillers κ) (old : List (Rule κ)) (rewritten : List (PhraseRule κ))
    (now : List (Rule κ)) : Prop where
  rules : now = old.filter (fun rule => !rule.hasVanishing vanishing) ++ rewritten.map .phrase
  origin : ∀ rule ∈ rewritten, rule.origin = .collapsed
  /-- There is one for every rule that had some of them and some other children. -/
  sides : (rewritten.map (·.slots)).Perm
    (PhraseRule.sidesLeft vanishing
      ((old.filterMap Rule.phrase?).filter (·.hasVanishing vanishing)))

namespace Gathers

variable {vanishing later : Fillers κ} {old now : List (Rule κ)} {made : List (PhraseRule κ)}

theorem refl (old : List (Rule κ)) : Gathers [] old [] old where
  rules := by
    have none : ∀ rule : Rule κ, rule.hasVanishing [] = false
      | .word _ => rfl
      | .phrase _ => List.any_eq_false.mpr fun symbol _ => Bool.false_ne_true
    simp [none]
  origin _ mem := absurd mem List.not_mem_nil
  sides := by
    have none : ∀ rule : PhraseRule κ, rule.hasVanishing [] = false :=
      fun rule => List.any_eq_false.mpr fun symbol _ => Bool.false_ne_true
    simp [PhraseRule.sidesLeft, none]

theorem phrases_filter (vanishing : Fillers κ) (rules : List (Rule κ)) :
    (rules.filter fun rule => !rule.hasVanishing vanishing).filterMap Rule.phrase? =
      (rules.filterMap Rule.phrase?).filter fun rule => !rule.hasVanishing vanishing := by
  rw [List.filterMap_filter, List.filter_filterMap]
  refine List.filterMap_congr fun rule _ => ?_
  cases rule <;> rfl

/-- What is left of the sides that are left. -/
theorem sidesLeft_step (more : vanishing.Subset later) {rules : List (PhraseRule κ)}
    (sides : (made.map (·.slots)).Perm (PhraseRule.sidesLeft vanishing rules)) :
    (PhraseRule.sidesLeft later made).Perm (PhraseRule.sidesLeft later rules) := by
  have harmless : ∀ xs : List (List Slot),
      ((xs.filter (· ≠ [])).map later.lasting).filter (· ≠ []) =
        (xs.map later.lasting).filter (· ≠ []) := by
    intro xs
    induction xs with
    | nil => rfl
    | cons x xs ih =>
      cases x with
      | nil => exact ih
      | cons slot rest =>
        rw [List.filter_cons_of_pos (by simp), List.map_cons, List.map_cons, List.filter_cons,
          List.filter_cons, ih]
  have kept := (sides.map later.lasting).filter (· ≠ [])
  rw [PhraseRule.sidesLeft, harmless, List.map_map, List.map_map] at kept
  simpa only [PhraseRule.sidesLeft, Function.comp_def, more.lasting_lasting] using kept

theorem slots_ne_nil (h : Gathers vanishing old made now) {rule : PhraseRule κ}
    (mem : rule ∈ made) : rule.slots ≠ [] := by
  have side := h.sides.mem_iff.mp (List.mem_map_of_mem mem)
  exact of_decide_eq_true (List.mem_filter.mp side).2

/-- Of the rules that are there, those that are rewritten once more or for the first time make up,
with the others that were rewritten, for all that have lost a child by then. -/
theorem sides_perm (h : Gathers vanishing old made now) (more : vanishing.Subset later) :
    ((made.filter fun rule => !rule.hasVanishing later).map (·.slots) ++
      (PhraseRule.sidesLeft later (((old.filterMap Rule.phrase?).filter
          (·.hasVanishing later)).filter fun rule => !rule.hasVanishing vanishing) ++
        PhraseRule.sidesLeft later (made.filter (·.hasVanishing later)))).Perm
      (PhraseRule.sidesLeft later ((old.filterMap Rule.phrase?).filter (·.hasVanishing later))) := by
  have still : (made.filter fun rule => !rule.hasVanishing later).map (·.slots) =
      PhraseRule.sidesLeft later (made.filter fun rule => !rule.hasVanishing later) := by
    refine (PhraseRule.sidesLeft_eq_slots (fun rule mem => ?_) fun rule mem => ?_).symm
    · simpa using (List.mem_filter.mp mem).2
    · exact h.slots_ne_nil (List.mem_filter.mp mem).1
  have early := PhraseRule.filter_hasVanishing_filter more (old.filterMap Rule.phrase?)
  generalize (old.filterMap Rule.phrase?).filter (·.hasVanishing later) = lost at early ⊢
  have again := sidesLeft_step more h.sides
  rw [← early] at again
  rw [still]
  calc
    _ ++ (_ ++ _) = _ := by rw [← PhraseRule.sidesLeft_append, ← PhraseRule.sidesLeft_append]
    List.Perm _ (PhraseRule.sidesLeft later (made ++ lost.filter fun rule =>
        !rule.hasVanishing vanishing)) := by
      have parts := List.filter_append_perm (PhraseRule.hasVanishing later) made
      refine PhraseRule.sidesLeft_perm ((List.perm_append_comm.append_left _).trans ?_)
      rw [← List.append_assoc]
      exact (List.perm_append_comm.trans parts).append_right _
    _ = _ := PhraseRule.sidesLeft_append _ _
    List.Perm _ (PhraseRule.sidesLeft later lost) := by
      refine (again.append_right _).trans ?_
      rw [← PhraseRule.sidesLeft_append]
      exact PhraseRule.sidesLeft_perm (List.filter_append_perm _ lost)

/-- A round drops what vanishes by then. -/
theorem step [Cost κ] (h : Gathers vanishing old made now) (more : vanishing.Subset later) :
    ∃ made', Gathers later old made'
      (now.filter (fun rule => !rule.hasVanishing later) ++
        (PhraseRule.rewritten later (now.filterMap Rule.phrase?)).map .phrase) := by
  have phrases : now.filterMap Rule.phrase? =
      (old.filterMap Rule.phrase?).filter (fun rule => !rule.hasVanishing vanishing) ++ made := by
    rw [h.rules, List.filterMap_append, phrases_filter, List.filterMap_map]
    exact congrArg _ (List.filterMap_some)
  have untouched : now.filter (fun rule => !rule.hasVanishing later) =
      old.filter (fun rule => !rule.hasVanishing later) ++
        (made.filter fun rule => !rule.hasVanishing later).map .phrase := by
    rw [h.rules, List.filter_append, List.filter_filter, List.filter_map]
    refine congrArg (· ++ _) (List.filter_congr fun rule _ => ?_)
    cases rule with
    | word rule => rfl
    | phrase rule =>
      cases early : rule.hasVanishing vanishing with
      | false => simp [Rule.hasVanishing, early]
      | true => simp [Rule.hasVanishing, PhraseRule.hasVanishing_mono more early]
  refine ⟨made.filter (fun rule => !rule.hasVanishing later) ++
    PhraseRule.rewritten later (now.filterMap Rule.phrase?), .mk ?inFront ?origin ?sides⟩
  case inFront => rw [untouched, List.map_append, List.append_assoc]
  case origin =>
    intro rule mem
    rcases List.mem_append.mp mem with mem | mem
    · exact h.origin rule (List.mem_filter.mp mem).1
    · exact PhraseRule.origin_of_mem_rewritten mem
  case sides =>
    rw [List.map_append, PhraseRule.rewritten_slots, phrases, List.filter_append, List.filter_comm,
      PhraseRule.sidesLeft_append]
    exact h.sides_perm more

end Gathers

namespace Grammar

variable [Cost κ] {grammar left : Grammar κ} {count : Nat}

theorem rulesOf_collapseRound (h : grammar.collapseRound.2 = .ok count) (symbol : Symbol) :
    grammar.collapseRound.1.rulesOf symbol =
      (grammar.rulesOf symbol).filter (fun rule => !rule.hasVanishing grammar.vanishing) ++
        (PhraseRule.rewritten grammar.vanishing
          ((grammar.rulesOf symbol).filterMap Rule.phrase?)).map .phrase := by
  obtain ⟨entries, -, -⟩ := collapseRound_ok.mp (Prod.ext rfl h)
  have entry := rel_getElem? entries symbol.index
  unfold rulesOf entryOf?
  generalize grammar.entries[symbol.index]? = before,
    grammar.collapseRound.1.entries[symbol.index]? = after at entry
  cases entry with
  | none => rfl
  | @some before after done =>
    obtain ⟨_, done⟩ := done
    have collapsed : after.rules = before.untouched grammar.vanishing ++
        before.remainders grammar.signatures grammar.vanishing := by
      rcases (collapseEntry_ok.mp done).2 with ⟨idle, rfl⟩ | ⟨-, -, rfl⟩
      · have all : after.untouched grammar.vanishing = after.rules := by
          refine List.filter_eq_self.mpr fun rule mem => ?_
          cases rule with
          | word rule => rfl
          | phrase rule =>
            rw [Bool.not_eq_true', ← Bool.not_eq_true]
            intro loses
            exact absurd (idle ▸ Entry.mem_affected.mpr ⟨mem, loses⟩) List.not_mem_nil
        rw [Entry.remainders, idle, all]
        exact (List.append_nil _).symm
      · rfl
    exact collapsed.trans (congrArg _ (Entry.remainders_eq_rewritten before))

/-- The rules that the next round rewrites or removes. -/
def losses (grammar : Grammar κ) : Nat :=
  (grammar.entries.map fun entry =>
    (entry.remainders grammar.signatures grammar.vanishing).length +
      (entry.zeroFillers grammar.signatures grammar.vanishing).length).sum

theorem losses_eq (h : grammar.collapseRound = (left, .ok count)) : count = grammar.losses := by
  rw [(collapseRound_ok.mp h).2.2, losses]
  exact congrArg List.sum (List.map_congr_left fun entry _ => entry.length_affected)

def afterCollapses (grammar : Grammar κ) (rounds : Nat) : Grammar κ :=
  (fun grammar => grammar.collapseRound.1)^[rounds] grammar

theorem afterCollapses_succ (h : grammar.collapseRound.1 = left) (rounds : Nat) :
    grammar.afterCollapses (rounds + 1) = left.afterCollapses rounds := by
  rw [afterCollapses, Function.iterate_succ_apply, h, afterCollapses]

theorem afterCollapses_of_isCollapsed (h : grammar.IsCollapsed) (rounds : Nat) :
    grammar.afterCollapses rounds = grammar :=
  Function.iterate_fixed (congrArg Prod.fst (collapseRound_of_isCollapsed h)) rounds

/-- A collapse that is not refused consists of rounds that are not, and counts what each of them
rewrites or removes. -/
theorem collapseRounds_ok {rounds : Nat} (h : collapseRounds rounds grammar = (left, .ok count)) :
    left = grammar.afterCollapses rounds ∧
      (∀ n < rounds, ∃ lost, (grammar.afterCollapses n).collapseRound.2 = .ok lost) ∧
      count = ((List.range rounds).map fun n => (grammar.afterCollapses n).losses).sum := by
  induction rounds generalizing grammar count with
  | zero =>
    obtain ⟨rfl, none⟩ := Prod.mk.inj h
    exact ⟨rfl, fun n below => absurd below (Nat.not_lt_zero n), (Except.ok.inj none).symm⟩
  | succ rounds ih =>
    by_cases idle : grammar.IsCollapsed
    · have round := collapseRound_of_isCollapsed idle
      rw [collapseRounds_of_isCollapsed rounds idle] at h
      obtain ⟨rfl, none⟩ := Prod.mk.inj h
      simp only [afterCollapses_of_isCollapsed idle, ← losses_eq round]
      refine ⟨trivial, fun n _ => ⟨0, congrArg Prod.snd round⟩, ?_⟩
      rw [← Except.ok.inj none, eq_comm]
      refine List.sum_eq_zero_iff_forall_eq_nat.mpr fun n mem => ?_
      obtain ⟨_, -, rfl⟩ := List.mem_map.mp mem
      rfl
    · match round : grammar.collapseRound with
      | (next, .error fault) =>
        rw [collapseRounds_of_error rounds round] at h
        exact nomatch (Prod.mk.inj h).2
      | (next, .ok lost) =>
        rw [collapseRounds_of_ok rounds idle round] at h
        obtain ⟨rfl, result⟩ := Prod.mk.inj h
        have later := afterCollapses_succ (congrArg Prod.fst round)
        cases rest : (collapseRounds rounds next).2 with
        | error fault => exact nomatch rest ▸ result
        | ok more =>
          obtain ⟨last, fine, sum⟩ := ih (Prod.ext rfl rest)
          refine ⟨last.trans (later rounds).symm, fun n below => ?_, ?_⟩
          · cases n with
            | zero => exact ⟨lost, congrArg Prod.snd round⟩
            | succ n =>
              rw [later]
              exact fine n (Nat.lt_of_succ_lt_succ below)
          · rw [rest] at result
            rw [List.range_succ_eq_map, List.map_cons, List.sum_cons, List.map_map,
              ← Except.ok.inj result, sum, losses_eq round]
            simp only [Function.comp_def, later]
            rfl

theorem IsSound.afterCollapses (h : grammar.IsSound) (rounds : Nat) :
    (grammar.afterCollapses rounds).IsSound := by
  induction rounds generalizing grammar with
  | zero => exact h
  | succ rounds ih => exact ih h.collapseRound

/-- In the end all rules are without vanishing children. -/
theorem IsSound.gathers_collapse (sound : grammar.IsSound)
    (h : grammar.collapse = (left, .ok count)) (symbol : Symbol) :
    ∃ made, Gathers left.vanishing (grammar.rulesOf symbol) made (left.rulesOf symbol) := by
  have settled := collapseRound_of_isCollapsed (collapse_isCollapsed h)
  obtain ⟨last, fine, -⟩ := collapseRounds_ok h
  have rounds : ∀ n ≤ grammar.slotCount + 1, ∃ vanishing made,
      vanishing.Subset (grammar.afterCollapses n).vanishing ∧
        Gathers vanishing (grammar.rulesOf symbol) made
          ((grammar.afterCollapses n).rulesOf symbol) := by
    intro n
    induction n with
    | zero => exact fun _ => ⟨[], [], nofun, .refl _⟩
    | succ n ih =>
      intro below
      obtain ⟨vanishing, made, more, gathers⟩ := ih (Nat.le_of_succ_le below)
      obtain ⟨lost, round⟩ := fine n below
      obtain ⟨made', gathers⟩ := gathers.step more
      have next : grammar.afterCollapses (n + 1) = (grammar.afterCollapses n).collapseRound.1 :=
        Function.iterate_succ_apply' _ n grammar
      rw [← rulesOf_collapseRound round, ← next] at gathers
      refine ⟨_, made', fun child gone => ?_, gathers⟩
      obtain ⟨filler, gone⟩ := Option.isSome_iff_exists.mp gone
      rw [next, (sound.afterCollapses n).vanishing_collapseRound gone]
      rfl
  obtain ⟨vanishing, made, more, gathers⟩ := rounds _ (Nat.le_refl _)
  rw [← last] at more gathers
  obtain ⟨made', gathers⟩ := gathers.step more
  rw [← rulesOf_collapseRound (congrArg Prod.snd settled), settled] at gathers
  exact ⟨made', gathers⟩

end Grammar

end PhraseGrammar
