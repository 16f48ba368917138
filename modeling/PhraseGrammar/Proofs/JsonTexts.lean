import Mathlib.Tactic.SplitIfs
import PhraseGrammar.Json.Parser
import PhraseGrammar.Json.Printer
import PhraseGrammar.Proofs.WrittenNumerals

/-! JSON values are read back from their texts in either layout. Only a string that spells no text
and digits that are none are lost. -/

namespace PhraseGrammar.Json

open Numeral (Ends)

def withPiece (piece : Piece) (found : List Piece × List Char) : List Piece × List Char :=
  (piece :: found.1, found.2)

theorem scanPieces_quote (rest : List Char) : scanPieces ('"' :: rest) = some ([], rest) := by
  unfold scanPieces
  rfl

theorem scanPieces_plain {c : Char} (quote : c ≠ '"') (slash : c ≠ '\\') (control : ¬c.toNat < 0x20)
    (rest : List Char) : scanPieces (c :: rest) = (scanPieces rest).map (withPiece (.char c)) := by
  conv => lhs; unfold scanPieces
  simp only [quote, slash, control, if_false]
  cases scanPieces rest <;> rfl

theorem scanPieces_letter {e c : Char} (letter : e ≠ 'u') (named : escapedBy? e = some c)
    (rest : List Char) :
    scanPieces ('\\' :: e :: rest) = (scanPieces rest).map (withPiece (.char c)) := by
  rw [scanPieces.eq_3 _ _ _ fun _ _ _ _ _ same => absurd same letter]
  simp only [named, Char.reduceEq, if_false, if_true]
  cases scanPieces rest <;> rfl

theorem scanPieces_unit {i j k l : Char} {n : Nat} (named : unit? i j k l = some n)
    (rest : List Char) :
    scanPieces ('\\' :: 'u' :: i :: j :: k :: l :: rest) =
      (scanPieces rest).map (withPiece (.unit n)) := by
  simp only [scanPieces.eq_2, named, Char.reduceEq, if_false, if_true]
  cases scanPieces rest <;> rfl

theorem unit?_of_control {n : Nat} (h : n < 0x20) :
    unit? '0' '0' (Nat.digitChar (n / 16)) (Nat.digitChar (n % 16)) = some n := by
  revert n
  decide

/-- The piece stands for the character, whatever pieces come after it. -/
def Piece.StandsFor (piece : Piece) (c : Char) : Prop :=
  ∀ pieces, joinPieces (piece :: pieces) = (joinPieces pieces).map (c :: ·)

theorem Piece.char_standsFor (c : Char) : (Piece.char c).StandsFor c := fun _ => rfl

/-- A control is no surrogate, so it needs no partner. -/
theorem Piece.unit_standsFor {c : Char} (h : c.toNat < 0x20) :
    (Piece.unit c.toNat).StandsFor c := by
  intro pieces
  have leading : isLeading c.toNat = false := by
    simp only [isLeading, Bool.and_eq_false_iff, decide_eq_false_iff_not]
    omega
  have trailing : isTrailing c.toNat = false := by
    simp only [isTrailing, Bool.and_eq_false_iff, decide_eq_false_iff_not]
    omega
  conv => lhs; unfold joinPieces
  simp only [leading, trailing, Char.ofNat_toNat, Bool.false_eq_true, if_false]

theorem escapedChar_cases (c : Char) :
    (∃ e, e ≠ 'u' ∧ escapedBy? e = some c ∧ escapedChar c = ['\\', e]) ∨
    (c.toNat < 0x20 ∧ escapedChar c =
      ['\\', 'u', '0', '0', Nat.digitChar (c.toNat / 16), Nat.digitChar (c.toNat % 16)]) ∨
    (c ≠ '"' ∧ c ≠ '\\' ∧ ¬c.toNat < 0x20 ∧ escapedChar c = [c]) := by
  unfold escapedChar
  split_ifs with quote slash back feed line start tab control
  · exact .inl ⟨'"', by decide, by rw [quote]; rfl, rfl⟩
  · exact .inl ⟨'\\', by decide, by rw [slash]; rfl, rfl⟩
  · exact .inl ⟨'b', by decide, by rw [back]; rfl, rfl⟩
  · exact .inl ⟨'f', by decide, by rw [feed]; rfl, rfl⟩
  · exact .inl ⟨'n', by decide, by rw [line]; rfl, rfl⟩
  · exact .inl ⟨'r', by decide, by rw [start]; rfl, rfl⟩
  · exact .inl ⟨'t', by decide, by rw [tab]; rfl, rfl⟩
  · exact .inr (.inl ⟨control, rfl⟩)
  · exact .inr (.inr ⟨quote, slash, control, rfl⟩)

theorem exists_scanPieces_escapedChar (c : Char) :
    ∃ piece : Piece, piece.StandsFor c ∧
      ∀ rest, scanPieces (escapedChar c ++ rest) = (scanPieces rest).map (withPiece piece) := by
  rcases escapedChar_cases c with ⟨e, other, named, escaped⟩ | ⟨control, escaped⟩ |
      ⟨quote, slash, control, escaped⟩ <;> rw [escaped]
  · exact ⟨.char c, Piece.char_standsFor c, scanPieces_letter other named⟩
  · exact ⟨.unit c.toNat, Piece.unit_standsFor control, scanPieces_unit (unit?_of_control control)⟩
  · exact ⟨.char c, Piece.char_standsFor c, scanPieces_plain quote slash control⟩

theorem exists_scanPieces_flatMap_escapedChar (cs rest : List Char) :
    ∃ pieces, scanPieces (cs.flatMap escapedChar ++ '"' :: rest) = some (pieces, rest) ∧
      joinPieces pieces = some cs := by
  induction cs with
  | nil => exact ⟨[], scanPieces_quote rest, rfl⟩
  | cons c cs ih =>
    obtain ⟨pieces, scanned, joined⟩ := ih
    obtain ⟨piece, stands, scans⟩ := exists_scanPieces_escapedChar c
    refine ⟨piece :: pieces, ?_, ?_⟩
    · rw [List.flatMap_cons, List.append_assoc, scans, scanned]
      rfl
    · rw [stands, joined]
      rfl

theorem scanString_renderString (text : String) (rest : List Char) :
    ∃ cs, renderString (some text) ++ rest = '"' :: cs ∧
      scanString cs = some (some text, rest) := by
  obtain ⟨pieces, scanned, joined⟩ := exists_scanPieces_flatMap_escapedChar text.toList rest
  refine ⟨text.toList.flatMap escapedChar ++ '"' :: rest, ?_, ?_⟩
  · simp only [renderString, List.cons_append, List.append_assoc, List.nil_append]
  · simp only [scanString, scanned, joined, Option.map_some, String.ofList_toList]

theorem skipGaps_cons {c : Char} (h : isGap c = false) (cs : List Char) :
    skipGaps (c :: cs) = c :: cs := by
  rw [skipGaps, List.dropWhile_cons_of_neg (by simp [h])]

theorem skipGaps_append {gaps : List Char} (h : ∀ c ∈ gaps, isGap c = true) (cs : List Char) :
    skipGaps (gaps ++ cs) = skipGaps cs := by
  rw [skipGaps, skipGaps, List.dropWhile_append_of_pos h]

theorem isGap_of_mem_lineBreak {layout : JsonLayout} {depth : Nat} {c : Char}
    (h : c ∈ layout.lineBreak depth) : isGap c = true := by
  cases layout with
  | compact => exact absurd h List.not_mem_nil
  | indented =>
    rcases List.mem_cons.mp h with rfl | h
    · rfl
    · rw [List.eq_of_mem_replicate h]
      rfl

@[simp] theorem skipGaps_lineBreak (layout : JsonLayout) (depth : Nat) (cs : List Char) :
    skipGaps (layout.lineBreak depth ++ cs) = skipGaps cs :=
  skipGaps_append (fun _ => isGap_of_mem_lineBreak) cs

theorem ends_lineBreak {rest : List Char} (h : Ends rest) (layout : JsonLayout) (depth : Nat) :
    Ends (layout.lineBreak depth ++ rest) := by
  cases layout with
  | compact => exact h
  | indented => exact Numeral.ends_cons _ (by decide)

/-- Every string in the value spells a text, and every fraction is decimal. -/
inductive IsPlain : Json → Prop
  | null : IsPlain .null
  | bool (value : Bool) : IsPlain (.bool value)
  | number {numeral : Numeral} (decimal : numeral.IsDecimal) : IsPlain (.number numeral)
  | string (text : String) : IsPlain (.string (some text))
  | array {items : List Json} (plain : ∀ x ∈ items, IsPlain x) : IsPlain (.array items)
  | object {members : List (Option String × Json)} (named : ∀ member ∈ members, member.1.isSome)
      (plain : ∀ member ∈ members, IsPlain member.2) : IsPlain (.object members)

/-- The text of the value is read back as the value, given as many steps as it has characters. -/
def Scans (layout : JsonLayout) (x : Json) : Prop :=
  ∀ depth fuel rest, (renderAt layout depth x).length ≤ fuel → Ends rest →
    scanValue fuel (renderAt layout depth x ++ rest) = some (x, rest)

def Opens (c : Char) : Prop := isGap c = false ∧ c ≠ ']'

theorem opens_of_starts {c : Char} (h : Numeral.Starts c) :
    Opens c ∧ c ∉ ['"', '[', '\x7b', 'n', 't', 'f'] := by
  rcases h with rfl | ⟨d, lt, rfl⟩
  · exact ⟨⟨rfl, by decide⟩, by decide⟩
  · unfold Opens
    revert d
    decide

theorem exists_renderAt_eq_cons (layout : JsonLayout) (depth : Nat) (x : Json) :
    ∃ c cs, renderAt layout depth x = c :: cs ∧ Opens c := by
  match x with
  | .null => exact ⟨'n', _, rfl, rfl, by decide⟩
  | .bool true => exact ⟨'t', _, rfl, rfl, by decide⟩
  | .bool false => exact ⟨'f', _, rfl, rfl, by decide⟩
  | .number numeral =>
    obtain ⟨c, cs, written, starts⟩ := numeral.exists_render_eq_cons
    exact ⟨c, cs, by rw [renderAt, written], (opens_of_starts starts).1⟩
  | .string none => exact ⟨'"', _, rfl, rfl, by decide⟩
  | .string (some text) => exact ⟨'"', _, by rw [renderAt, renderString]; rfl, rfl, by decide⟩
  | .array [] => exact ⟨'[', _, rfl, rfl, by decide⟩
  | .array (x :: xs) => exact ⟨'[', _, by rw [renderAt]; rfl, rfl, by decide⟩
  | .object [] => exact ⟨'\x7b', _, rfl, rfl, by decide⟩
  | .object ((name, x) :: rest) => exact ⟨'\x7b', _, by rw [renderAt]; rfl, rfl, by decide⟩

theorem skipGaps_renderAt (layout : JsonLayout) (depth : Nat) (x : Json) (rest : List Char) :
    skipGaps (renderAt layout depth x ++ rest) = renderAt layout depth x ++ rest := by
  obtain ⟨c, cs, written, opens⟩ := exists_renderAt_eq_cons layout depth x
  rw [written]
  exact skipGaps_cons opens.1 _

theorem scanValue_append_gaps {gaps : List Char} (h : ∀ c ∈ gaps, isGap c = true) (fuel : Nat)
    (cs : List Char) : scanValue fuel (gaps ++ cs) = scanValue fuel cs := by
  cases fuel with
  | zero => rfl
  | succ fuel => rw [scanValue, scanValue, skipGaps_append h]

theorem scanValue_number {c : Char} (h : Numeral.Starts c) (fuel : Nat) (cs : List Char) :
    scanValue (fuel + 1) (c :: cs) = scanNumber (c :: cs) := by
  obtain ⟨⟨gap, -⟩, other⟩ := opens_of_starts h
  simp only [List.mem_cons, List.not_mem_nil, or_false, not_or] at other
  obtain ⟨quote, bracket, brace, n, t, f⟩ := other
  simp only [scanValue, skipGaps_cons gap, quote, bracket, brace, n, t, f, if_false]

theorem scans_number {layout : JsonLayout} {numeral : Numeral} (decimal : numeral.IsDecimal) :
    Scans layout (.number numeral) := by
  intro depth fuel rest enough ends
  obtain ⟨c, cs, written, starts⟩ := numeral.exists_render_eq_cons
  rw [renderAt] at enough ⊢
  have scanned := Numeral.scan_render decimal ends
  rw [written] at enough scanned ⊢
  obtain ⟨fuel, rfl⟩ := Nat.exists_eq_add_one_of_ne_zero (Nat.ne_of_gt (Nat.lt_of_lt_of_le
    (Nat.succ_pos _) enough))
  rw [List.cons_append, scanValue_number starts, scanNumber, ← List.cons_append, scanned]
  rfl

theorem ends_renderItems (layout : JsonLayout) (outer depth : Nat) (xs : List Json)
    (rest : List Char) :
    Ends (renderItems layout depth xs ++ (layout.lineBreak outer ++ ']' :: rest)) := by
  cases xs with
  | nil =>
    rw [renderItems, List.nil_append]
    exact ends_lineBreak (Numeral.ends_cons rest (by decide)) layout outer
  | cons x xs =>
    rw [renderItems]
    exact Numeral.ends_cons _ (by decide)

theorem scanItems_close (fuel : Nat) (layout : JsonLayout) (depth : Nat) (rest : List Char) :
    scanItems (fuel + 1) (layout.lineBreak depth ++ ']' :: rest) = some ([], rest) := by
  rw [scanItems, skipGaps_lineBreak, skipGaps_cons rfl]
  rfl

theorem scanItems_comma {fuel : Nat} {cs afterItem rest : List Char} {x : Json} {xs : List Json}
    (item : scanValue fuel cs = some (x, afterItem))
    (others : scanItems fuel afterItem = some (xs, rest)) :
    scanItems (fuel + 1) (',' :: cs) = some (x :: xs, rest) := by
  rw [scanItems, skipGaps_cons rfl]
  simp only [item, others, Option.bind_eq_bind, Option.bind_some, Option.pure_def]

theorem scanItems_renderItems {layout : JsonLayout} (outer : Nat) {xs : List Json}
    (scans : ∀ x ∈ xs, Scans layout x) (depth fuel : Nat) (rest : List Char)
    (enough : (renderItems layout depth xs).length ≤ fuel) :
    scanItems (fuel + 1)
        (renderItems layout depth xs ++ (layout.lineBreak outer ++ ']' :: rest)) =
      some (xs, rest) := by
  induction xs generalizing fuel with
  | nil => exact scanItems_close fuel layout outer rest
  | cons x xs ih =>
    simp only [renderItems, List.length_cons, List.length_append, List.cons_append] at enough
    obtain ⟨fuel, rfl⟩ := Nat.exists_eq_add_one_of_ne_zero (n := fuel) (by omega)
    have item := scans x (.head _) depth (fuel + 1) _ (by omega)
      (ends_renderItems layout outer depth xs rest)
    have others := ih (fun y mem => scans y (.tail _ mem)) fuel (by omega)
    simp only [renderItems, List.cons_append, List.append_assoc]
    exact scanItems_comma
      ((scanValue_append_gaps (fun _ => isGap_of_mem_lineBreak) _ _).trans item) others

theorem scanValue_bracket {fuel : Nat} {cs tail afterItem rest : List Char} {c : Char} {x : Json}
    {xs : List Json} (start : skipGaps cs = c :: tail) (goesOn : c ≠ ']')
    (item : scanValue fuel (c :: tail) = some (x, afterItem))
    (others : scanItems fuel afterItem = some (xs, rest)) :
    scanValue (fuel + 1) ('[' :: cs) = some (.array (x :: xs), rest) := by
  rw [scanValue, skipGaps_cons rfl]
  simp only [start, Char.reduceEq, if_false, if_true]
  split
  · exact absurd (List.cons.inj ‹_›).1 goesOn
  · simp only [item, others, Option.bind_eq_bind, Option.bind_some, Option.pure_def]

theorem scans_array {layout : JsonLayout} {items : List Json}
    (scans : ∀ x ∈ items, Scans layout x) : Scans layout (.array items) := by
  intro depth fuel rest enough ends
  match items, scans, enough with
  | [], _, enough =>
    obtain ⟨fuel, rfl⟩ := Nat.exists_eq_add_one_of_ne_zero (Nat.ne_zero_of_lt enough)
    rfl
  | x :: xs, scans, enough =>
    simp only [renderAt, List.length_cons, List.length_append, List.length_nil] at enough
    obtain ⟨fuel, rfl⟩ := Nat.exists_eq_add_one_of_ne_zero (n := fuel) (by omega)
    obtain ⟨fuel, rfl⟩ := Nat.exists_eq_add_one_of_ne_zero (n := fuel) (by omega)
    have item := scans x (.head _) (depth + 1) (fuel + 1) _ (by omega)
      (ends_renderItems layout depth (depth + 1) xs rest)
    have others := scanItems_renderItems depth (fun y mem => scans y (.tail _ mem)) (depth + 1) fuel
      rest (by omega)
    obtain ⟨c, cs, written, opens⟩ := exists_renderAt_eq_cons layout (depth + 1) x
    simp only [renderAt, List.cons_append, List.append_assoc, List.nil_append]
    refine scanValue_bracket ?_ opens.2 (written ▸ item) others
    rw [skipGaps_lineBreak, skipGaps_renderAt, written]
    rfl

theorem isGap_of_colon (layout : JsonLayout) :
    ∃ gaps, layout.colon = ':' :: gaps ∧ ∀ c ∈ gaps, isGap c = true := by
  cases layout with
  | compact => exact ⟨[], rfl, nofun⟩
  | indented => exact ⟨[' '], rfl, List.forall_mem_singleton.mpr rfl⟩

theorem scanName_append_gaps {gaps : List Char} (h : ∀ c ∈ gaps, isGap c = true) (cs : List Char) :
    scanName (gaps ++ cs) = scanName cs := by
  rw [scanName, scanName, skipGaps_append h]

theorem scanName_renderString (layout : JsonLayout) (name : String) (cs : List Char) :
    ∃ gaps, (∀ c ∈ gaps, isGap c = true) ∧
      scanName (renderString (some name) ++ (layout.colon ++ cs)) =
        some (some name, gaps ++ cs) := by
  obtain ⟨gaps, colon, isGaps⟩ := isGap_of_colon layout
  obtain ⟨tail, written, scanned⟩ := scanString_renderString name (layout.colon ++ cs)
  refine ⟨gaps, isGaps, ?_⟩
  rw [written, scanName, skipGaps_cons rfl]
  simp only [scanned, colon, List.cons_append]
  rw [skipGaps_cons rfl]
  rfl

theorem exists_renderString_eq_cons (name : Option String) :
    ∃ tail, renderString name = '"' :: tail := by
  cases name with
  | none => exact ⟨_, rfl⟩
  | some name => exact ⟨_, rfl⟩

theorem ends_renderMembers (layout : JsonLayout) (outer depth : Nat)
    (members : List (Option String × Json)) (rest : List Char) :
    Ends (renderMembers layout depth members ++ (layout.lineBreak outer ++ '\x7d' :: rest)) := by
  cases members with
  | nil =>
    rw [renderMembers, List.nil_append]
    exact ends_lineBreak (Numeral.ends_cons rest (by decide)) layout outer
  | cons member members =>
    rw [renderMembers]
    exact Numeral.ends_cons _ (by decide)

theorem scanMembers_close (fuel : Nat) (layout : JsonLayout) (depth : Nat) (rest : List Char) :
    scanMembers (fuel + 1) (layout.lineBreak depth ++ '\x7d' :: rest) = some ([], rest) := by
  rw [scanMembers, skipGaps_lineBreak, skipGaps_cons rfl]
  rfl

section

variable {fuel : Nat} {cs tail afterName afterValue rest : List Char} {name : Option String}
  {x : Json} {members : List (Option String × Json)}

theorem scanMembers_comma (named : scanName cs = some (name, afterName))
    (value : scanValue fuel afterName = some (x, afterValue))
    (others : scanMembers fuel afterValue = some (members, rest)) :
    scanMembers (fuel + 1) (',' :: cs) = some ((name, x) :: members, rest) := by
  rw [scanMembers, skipGaps_cons rfl]
  simp only [named, value, others, Option.bind_eq_bind, Option.bind_some, Option.pure_def]

theorem scanValue_brace (start : skipGaps cs = '"' :: tail)
    (named : scanName ('"' :: tail) = some (name, afterName))
    (value : scanValue fuel afterName = some (x, afterValue))
    (others : scanMembers fuel afterValue = some (members, rest)) :
    scanValue (fuel + 1) ('\x7b' :: cs) = some (.object ((name, x) :: members), rest) := by
  rw [scanValue, skipGaps_cons rfl]
  simp only [start, Char.reduceEq, if_false, if_true]
  split
  · exact absurd (List.cons.inj ‹_›).1 (by decide)
  · simp only [named, value, others, Option.bind_eq_bind, Option.bind_some, Option.pure_def]

end

theorem scanMembers_renderMembers {layout : JsonLayout} (outer : Nat)
    {members : List (Option String × Json)} (named : ∀ member ∈ members, member.1.isSome)
    (scans : ∀ member ∈ members, Scans layout member.2) (depth fuel : Nat) (rest : List Char)
    (enough : (renderMembers layout depth members).length ≤ fuel) :
    scanMembers (fuel + 1)
        (renderMembers layout depth members ++ (layout.lineBreak outer ++ '\x7d' :: rest)) =
      some (members, rest) := by
  induction members generalizing fuel with
  | nil => exact scanMembers_close fuel layout outer rest
  | cons member members ih =>
    obtain ⟨name, x⟩ := member
    obtain ⟨name, rfl⟩ := Option.isSome_iff_exists.mp (named _ (.head _))
    simp only [renderMembers, List.length_cons, List.length_append, List.cons_append] at enough
    obtain ⟨fuel, rfl⟩ := Nat.exists_eq_add_one_of_ne_zero (n := fuel) (by omega)
    have value := scans _ (.head _) depth (fuel + 1) _ (by simp only; omega)
      (ends_renderMembers layout outer depth members rest)
    have others := ih (fun member mem => named member (.tail _ mem))
      (fun member mem => scans member (.tail _ mem)) fuel (by omega)
    obtain ⟨gaps, isGaps, scanned⟩ := scanName_renderString layout name
      (renderAt layout depth x ++
        (renderMembers layout depth members ++ (layout.lineBreak outer ++ '\x7d' :: rest)))
    simp only [renderMembers, List.cons_append, List.append_assoc]
    exact scanMembers_comma
      ((scanName_append_gaps (fun _ => isGap_of_mem_lineBreak) _).trans scanned)
      ((scanValue_append_gaps isGaps _ _).trans value) others

theorem scans_object {layout : JsonLayout} {members : List (Option String × Json)}
    (named : ∀ member ∈ members, member.1.isSome)
    (scans : ∀ member ∈ members, Scans layout member.2) : Scans layout (.object members) := by
  intro depth fuel rest enough ends
  match members, named, scans, enough with
  | [], _, _, enough =>
    obtain ⟨fuel, rfl⟩ := Nat.exists_eq_add_one_of_ne_zero (Nat.ne_zero_of_lt enough)
    rfl
  | (name, x) :: members, named, scans, enough =>
    obtain ⟨name, rfl⟩ := Option.isSome_iff_exists.mp (named _ (.head _))
    simp only [renderAt, List.length_cons, List.length_append, List.length_nil] at enough
    obtain ⟨fuel, rfl⟩ := Nat.exists_eq_add_one_of_ne_zero (n := fuel) (by omega)
    obtain ⟨fuel, rfl⟩ := Nat.exists_eq_add_one_of_ne_zero (n := fuel) (by omega)
    have value := scans _ (.head _) (depth + 1) (fuel + 1) _ (by simp only; omega)
      (ends_renderMembers layout depth (depth + 1) members rest)
    have others := scanMembers_renderMembers depth (fun member mem => named member (.tail _ mem))
      (fun member mem => scans member (.tail _ mem)) (depth + 1) fuel rest (by omega)
    obtain ⟨gaps, isGaps, scanned⟩ := scanName_renderString layout name
      (renderAt layout (depth + 1) x ++
        (renderMembers layout (depth + 1) members ++ (layout.lineBreak depth ++ '\x7d' :: rest)))
    obtain ⟨tail, written⟩ := exists_renderString_eq_cons (some name)
    simp only [renderAt, List.cons_append, List.append_assoc, List.nil_append]
    refine scanValue_brace ?_ (written ▸ scanned) ((scanValue_append_gaps isGaps _ _).trans value)
      others
    rw [skipGaps_lineBreak, written]
    exact skipGaps_cons rfl _

theorem scans_null (layout : JsonLayout) : Scans layout .null := by
  intro depth fuel rest enough _
  obtain ⟨fuel, rfl⟩ := Nat.exists_eq_add_one_of_ne_zero (Nat.ne_zero_of_lt enough)
  rfl

theorem scans_bool (layout : JsonLayout) (value : Bool) : Scans layout (.bool value) := by
  intro depth fuel rest enough _
  cases value <;>
    obtain ⟨fuel, rfl⟩ := Nat.exists_eq_add_one_of_ne_zero (Nat.ne_zero_of_lt enough) <;> rfl

theorem scans_string (layout : JsonLayout) (text : String) :
    Scans layout (.string (some text)) := by
  intro depth fuel rest enough _
  obtain ⟨cs, written, scanned⟩ := scanString_renderString text rest
  obtain ⟨fuel, rfl⟩ := Nat.exists_eq_add_one_of_ne_zero (Nat.ne_zero_of_lt enough)
  rw [renderAt, written, scanValue, skipGaps_cons rfl]
  simp only [if_true, scanned, Option.map_some]

theorem IsPlain.scans {x : Json} (plain : x.IsPlain) (layout : JsonLayout) : Scans layout x := by
  induction plain with
  | null => exact scans_null layout
  | bool value => exact scans_bool layout value
  | number decimal => exact scans_number decimal
  | string text => exact scans_string layout text
  | array plain ih => exact scans_array ih
  | object named plain ih => exact scans_object named ih

/-- A plain value is what its text is read as. -/
theorem parse?_render {x : Json} (plain : x.IsPlain) (layout : JsonLayout) :
    parse? (x.render layout) = some x := by
  have scanned := plain.scans layout 0 ((renderAt layout 0 x).length + 1) [] (Nat.le_succ _)
    Numeral.ends_nil
  rw [List.append_nil] at scanned
  rw [parse?, render, String.length_ofList, String.toList_ofList, scanned]
  rfl

end PhraseGrammar.Json
