import PhraseGrammar.Decimal.Numeral

/-! Numerals are read back as they are written, whatever follows them that does not go on with a
number. -/

namespace PhraseGrammar.Numeral

theorem digit?_digitChar {d : Nat} (h : d < 10) : digit? d.digitChar = some d := by
  revert d
  decide

def NoDigitNext (rest : List Char) : Prop := ∀ c ∈ rest.head?, digit? c = none

theorem takeDigits_of_noDigitNext {rest : List Char} (h : NoDigitNext rest) :
    takeDigits rest = ([], rest) := by
  cases rest with
  | nil => rfl
  | cons c cs => simp only [takeDigits, h c rfl]

theorem takeDigits_append {ds : List Nat} (small : ∀ d ∈ ds, d < 10) {rest : List Char}
    (next : NoDigitNext rest) : takeDigits (ds.map Nat.digitChar ++ rest) = (ds, rest) := by
  induction ds with
  | nil => exact takeDigits_of_noDigitNext next
  | cons d ds ih =>
    have tail := ih fun e mem => small e (.tail _ mem)
    simp only [List.map_cons, List.cons_append, takeDigits, digit?_digitChar (small d (.head _)),
      tail]

theorem valueOf_append (ds : List Nat) (d : Nat) : valueOf (ds ++ [d]) = 10 * valueOf ds + d := by
  simp only [valueOf, List.foldl_append, List.foldl_cons, List.foldl_nil]

/-- The digits of a number, with a leading zero only for zero itself. -/
structure Spells (ds : List Nat) (n : Nat) : Prop where
  small : ∀ d ∈ ds, d < 10
  value : valueOf ds = n
  ne_nil : ds ≠ []
  leading : ds.head? = some 0 → ds = [0]

theorem Spells.of_lt {n : Nat} (h : n < 10) : Spells [n] n where
  small := by simpa using h
  value := by simp [valueOf]
  ne_nil := List.cons_ne_nil n []
  leading zero := congrArg (fun d => [d]) (Option.some.inj zero)

theorem Spells.append {ds : List Nat} {n d : Nat} (h : Spells ds n) (pos : 0 < n) (lt : d < 10) :
    Spells (ds ++ [d]) (10 * n + d) where
  small e mem := by
    rcases List.mem_append.mp mem with mem | mem
    · exact h.small e mem
    · exact List.mem_singleton.mp mem ▸ lt
  value := by rw [valueOf_append, h.value]
  ne_nil := List.append_ne_nil_of_left_ne_nil h.ne_nil _
  leading zero := by
    have zero : ds.head? = some 0 := by
      rwa [List.head?_append, Option.or_of_isSome (List.isSome_head?.mpr h.ne_nil)] at zero
    have none : n = 0 := by rw [← h.value, h.leading zero]; rfl
    omega

theorem exists_spells (n : Nat) :
    ∃ ds, Nat.toDigits 10 n = ds.map Nat.digitChar ∧ Spells ds n := by
  induction n using Nat.strongRecOn with
  | ind n ih =>
    by_cases small : n < 10
    · exact ⟨[n], Nat.toDigits_of_lt_base small, .of_lt small⟩
    · obtain ⟨ds, written, spells⟩ := ih (n / 10) (by omega)
      refine ⟨ds ++ [n % 10], ?_, ?_⟩
      · rw [Nat.toDigits_of_base_le (by decide) (by omega), written, List.map_append]
        rfl
      · have whole := spells.append (by omega) (Nat.mod_lt n (by decide : 0 < 10))
        rwa [Nat.div_add_mod] at whole

theorem takeDigits_toDigits (n : Nat) {rest : List Char} (next : NoDigitNext rest) :
    ∃ ds, takeDigits (Nat.toDigits 10 n ++ rest) = (ds, rest) ∧ Spells ds n := by
  obtain ⟨ds, written, spells⟩ := exists_spells n
  exact ⟨ds, written ▸ takeDigits_append spells.small next, spells⟩

theorem scanWhole_toDigits (n : Nat) {rest : List Char} (next : NoDigitNext rest) :
    scanWhole (Nat.toDigits 10 n ++ rest) = some (n, rest) := by
  obtain ⟨ds, taken, spells⟩ := takeDigits_toDigits n next
  unfold scanWhole
  rw [taken]
  match ds, spells with
  | [], spells => exact absurd rfl spells.ne_nil
  | [d], spells =>
    have value : d = n := by simpa [valueOf] using spells.value
    rw [value]
  | 0 :: e :: ds, spells => exact absurd (spells.leading rfl) (by simp)
  | (d + 1) :: e :: ds, spells => exact congrArg (fun n => some (n, rest)) spells.value

/-- The digits after a point are single digits. -/
def IsDecimal (n : Numeral) : Prop := ∀ d ∈ n.fraction, d < 10

theorem isDecimal_ofNat (n : Nat) : (ofNat n).IsDecimal := nofun

theorem isDecimal_ofInt (n : Int) : (ofInt n).IsDecimal := by
  cases n <;> exact nofun

/-- What follows does not go on with a numeral. -/
structure Ends (rest : List Char) : Prop where
  noDigit : NoDigitNext rest
  noPoint : ∀ c ∈ rest.head?, c ≠ '.'
  noPower : ∀ c ∈ rest.head?, c ≠ 'e' ∧ c ≠ 'E'

theorem ends_nil : Ends [] := ⟨nofun, nofun, nofun⟩

theorem ends_cons {c : Char} (rest : List Char)
    (h : digit? c = none ∧ c ≠ '.' ∧ c ≠ 'e' ∧ c ≠ 'E') : Ends (c :: rest) := by
  refine ⟨?_, ?_, ?_⟩ <;> rintro _ ⟨⟩
  · exact h.1
  · exact h.2.1
  · exact h.2.2

theorem scanFraction_of_noPoint {rest : List Char} (h : ∀ c ∈ rest.head?, c ≠ '.') :
    scanFraction rest = some ([], rest) := by
  unfold scanFraction
  split
  · exact absurd rfl (h _ rfl)
  · rfl

theorem scanFraction_renderFraction {ds : List Nat} (small : ∀ d ∈ ds, d < 10) {rest : List Char}
    (next : NoDigitNext rest) (point : ∀ c ∈ rest.head?, c ≠ '.') :
    scanFraction (renderFraction ds ++ rest) = some (ds, rest) := by
  cases ds with
  | nil => exact scanFraction_of_noPoint point
  | cons d ds =>
    have taken := takeDigits_append small next
    simp only [renderFraction, List.cons_append, scanFraction]
    rw [taken]

theorem scanPower_toDigits (negative : Bool) (n : Nat) {rest : List Char}
    (next : NoDigitNext rest) :
    scanPower negative (Nat.toDigits 10 n ++ rest) =
      some (some (if negative then -(n : Int) else n), rest) := by
  obtain ⟨ds, taken, spells⟩ := takeDigits_toDigits n next
  unfold scanPower
  rw [taken]
  match ds, spells with
  | [], spells => exact absurd rfl spells.ne_nil
  | d :: ds, spells => simp only [spells.value]

theorem scanExponent_renderExponent (exponent : Option Int) {rest : List Char} (h : Ends rest) :
    scanExponent (renderExponent exponent ++ rest) = some (exponent, rest) := by
  match exponent with
  | some (.ofNat n) =>
    simp only [renderExponent, List.cons_append, scanExponent, scanSignedPower,
      scanPower_toDigits false n h.noDigit]
    rfl
  | some (.negSucc n) =>
    simp only [renderExponent, List.cons_append, scanExponent, scanSignedPower,
      scanPower_toDigits true (n + 1) h.noDigit]
    rfl
  | none =>
    simp only [renderExponent, List.nil_append]
    unfold scanExponent
    split
    · exact absurd rfl (h.noPower _ rfl).1
    · exact absurd rfl (h.noPower _ rfl).2
    · rfl

theorem ends_renderExponent (exponent : Option Int) {rest : List Char} (h : Ends rest) :
    NoDigitNext (renderExponent exponent ++ rest) ∧
      ∀ c ∈ (renderExponent exponent ++ rest).head?, c ≠ '.' := by
  match exponent with
  | none => exact ⟨h.noDigit, h.noPoint⟩
  | some (.ofNat _) | some (.negSucc _) => exact ⟨by rintro _ ⟨⟩; rfl, by rintro _ ⟨⟩; decide⟩

theorem noDigitNext_renderFraction (ds : List Nat) {rest : List Char} (h : NoDigitNext rest) :
    NoDigitNext (renderFraction ds ++ rest) := by
  cases ds with
  | nil => exact h
  | cons d ds => rintro _ ⟨⟩; rfl

def renderUnsigned (n : Numeral) : List Char :=
  Nat.toDigits 10 n.whole ++ renderFraction n.fraction ++ renderExponent n.exponent

theorem scanUnsigned_renderUnsigned {n : Numeral} (decimal : n.IsDecimal) {rest : List Char}
    (h : Ends rest) : scanUnsigned n.negative (n.renderUnsigned ++ rest) = some (n, rest) := by
  obtain ⟨noDigit, noPoint⟩ := ends_renderExponent n.exponent h
  have whole := scanWhole_toDigits n.whole (noDigitNext_renderFraction n.fraction noDigit)
  have fraction := scanFraction_renderFraction decimal noDigit noPoint
  have exponent := scanExponent_renderExponent n.exponent h
  simp only [scanUnsigned, renderUnsigned, List.append_assoc, whole, fraction, exponent,
    Option.bind_eq_bind, Option.bind_some, Option.pure_def]

def Starts (c : Char) : Prop := c = '-' ∨ ∃ d < 10, c = Nat.digitChar d

theorem exists_renderUnsigned_eq_cons (n : Numeral) :
    ∃ d < 10, ∃ cs, n.renderUnsigned = Nat.digitChar d :: cs := by
  obtain ⟨ds, written, spells⟩ := exists_spells n.whole
  obtain ⟨d, ds, rfl⟩ := List.exists_cons_of_ne_nil spells.ne_nil
  exact ⟨d, spells.small d (.head _), _, by simp only [renderUnsigned, written]; rfl⟩

theorem render_eq (n : Numeral) :
    n.render = (if n.negative then ['-'] else []) ++ n.renderUnsigned := by
  simp only [render, renderUnsigned, List.append_assoc]

theorem exists_render_eq_cons (n : Numeral) : ∃ c cs, n.render = c :: cs ∧ Starts c := by
  obtain ⟨d, lt, cs, written⟩ := n.exists_renderUnsigned_eq_cons
  rw [render_eq, written]
  cases n.negative with
  | true => exact ⟨'-', _, rfl, .inl rfl⟩
  | false => exact ⟨Nat.digitChar d, cs, rfl, .inr ⟨d, lt, rfl⟩⟩

theorem digitChar_ne_minus {d : Nat} (h : d < 10) : Nat.digitChar d ≠ '-' := by
  revert d
  decide

theorem scan_eq_scanUnsigned {c : Char} (cs : List Char) (h : c ≠ '-') :
    scan (c :: cs) = scanUnsigned false (c :: cs) := by
  unfold scan
  split
  · exact absurd (List.cons.inj ‹_›).1 h
  · rfl

theorem scan_render {n : Numeral} (decimal : n.IsDecimal) {rest : List Char} (h : Ends rest) :
    scan (n.render ++ rest) = some (n, rest) := by
  have unsigned := scanUnsigned_renderUnsigned decimal h
  rw [render_eq]
  cases sign : n.negative with
  | true =>
    rw [sign] at unsigned
    exact unsigned
  | false =>
    rw [sign] at unsigned
    obtain ⟨d, lt, cs, written⟩ := n.exists_renderUnsigned_eq_cons
    rw [written] at unsigned ⊢
    exact (scan_eq_scanUnsigned _ (digitChar_ne_minus lt)).trans unsigned

end PhraseGrammar.Numeral
