import PhraseGrammar.Proofs.RoundedNumbers
import PhraseGrammar.Proofs.WrittenNumerals

/-! Costs in documents. A numeral is read as a finite number or not at all: the significand fits
into a word, the powers of ten are neither too small to divide by nor infinite, and a product that
overflows is refused. Finite numbers are those that can be written again. -/

namespace PhraseGrammar

namespace Numeral

theorem isNormalIn_greatestPower : IsNormalIn 971 971 (powerOfTen 308) := by
  decide +kernel

theorem isNormalIn_powerOfTen {k : Nat} (h : k ≤ 308) : IsNormalIn (-53) 971 (powerOfTen k) := by
  by_cases last : k = 308
  · exact last ▸ ⟨isNormalIn_greatestPower.normal.mono (by decide)⟩
  by_cases small : k ≤ 22
  · have powers : ∀ k < 23, IsNormalIn (-53) 971 (powerOfTen k) := by decide +kernel
    exact powers k (by omega)
  · unfold powerOfTen Float.ofScientific
    rw [dif_neg (by omega)]
    exact isNormalIn_ofScientific_one (by omega)

theorem isUpTo_scaleDown (fuel : Nat) {x : Float} (k : Nat) (h : IsUpTo 15 x) :
    IsUpTo 17 (scaleDown fuel x k) := by
  induction fuel generalizing x k with
  | zero => exact h.mono (by decide)
  | succ fuel ih =>
    unfold scaleDown
    split
    case isTrue small =>
      exact isUpTo_div h (isNormalIn_powerOfTen small) (by decide) (by decide) (by decide)
    case isFalse =>
      split
      · exact h.mono (by decide)
      · exact ih _ (isUpTo_div h isNormalIn_greatestPower (by decide) (by decide) (by decide))

theorem absorb_lt {significand : Nat} (digits : List Nat) (h : significand < wordCount) :
    (absorb significand digits).1 < wordCount := by
  induction digits generalizing significand with
  | nil => exact h
  | cons d ds ih =>
    unfold absorb
    split
    case isTrue fits => exact ih fits
    case isFalse => exact h

theorem significand_lt (n : Numeral) : n.significand.1 < wordCount :=
  absorb_lt _ (absorb_lt _ (by decide))

theorem isUpTo_zero : IsUpTo 15 0.0 := by
  have ten : IsNormalIn (-49) (-49) Float.exactlyRepresentablePowersOfTen[1] := by decide +kernel
  have none : IsUpTo 0 (0 : Nat).toUInt64.toFloat :=
    isUpTo_ofModel_pack (exponentUpTo_ofNat (k := 0) (by decide) (by decide) (by decide))
      (by decide) (by decide)
  exact isUpTo_div none ten (by decide) (by decide) (by decide)

/-- What a numeral is read as is zero or finite. -/
theorem isUpTo_toFloat? {n : Numeral} {x : Float} (h : n.toFloat? = some x) : IsUpTo 971 x := by
  have start := isUpTo_ofNat n.significand_lt
  obtain ⟨size, found, rfl⟩ := Option.map_eq_some_iff.mp h
  have bounded : IsUpTo 971 size := by
    split at found
    case isTrue =>
      split at found
      · nomatch found
      · exact Option.some.inj found ▸ isUpTo_zero.mono (by decide)
    case isFalse =>
      split at found
      case isTrue => exact Option.some.inj found ▸ (isUpTo_scaleDown _ _ start).mono (by decide)
      case isFalse =>
        split at found
        case isTrue near =>
          dsimp only at found
          split at found
          case isTrue => nomatch found
          case isFalse finite =>
            have power := (isNormalIn_powerOfTen near).isUpTo
            exact Option.some.inj found ▸
              isUpTo_mul_of_isInf start power (Bool.eq_false_iff.mpr finite)
        case isFalse =>
          split at found
          · exact Option.some.inj found ▸ start.mono (by decide)
          · nomatch found
  split
  · exact bounded.neg (by decide) (by decide)
  · exact bounded

end Numeral

theorem exists_ofBits_eq_finite (bits : UInt64) :
    (∃ b, Magnitude.ofBits bits = .finite b) ↔
      bits.toNat / Binary.leadingBit % 0x800 ≠ 0x7FF := by
  unfold Magnitude.ofBits
  dsimp only
  split
  case isTrue ones => split <;> simp [ones]
  case isFalse ones => split <;> simp [ones]

theorem isSome_documentNumeral?_iff (x : Float) :
    (documentNumeral? x).isSome = true ↔ ∃ b, Magnitude.ofFloat x = .finite b := by
  unfold documentNumeral?
  split
  case h_1 b same => exact iff_of_true (by dsimp only; split <;> rfl) ⟨b, same⟩
  case h_2 other => exact iff_of_false (by decide) fun ⟨b, same⟩ => other b same

/-- Finite numbers, and no others, have a numeral in documents. -/
theorem isSome_documentNumeral? (x : Float) : (documentNumeral? x).isSome = x.isFinite := by
  have finite : x.isFinite = decide (x.toBits.toNat / Binary.leadingBit % 0x800 ≠ 0x7FF) :=
    isFinite_unpack _
  rw [Bool.eq_iff_iff, isSome_documentNumeral?_iff, finite, decide_eq_true_iff]
  exact exists_ofBits_eq_finite x.toBits

theorem lastDigits_lt (count n : Nat) : ∀ d ∈ Decimal.lastDigits count n, d < 10 := by
  induction count generalizing n with
  | zero => exact nofun
  | succ count ih =>
    intro d mem
    rcases List.mem_append.mp mem with mem | mem
    · exact ih _ d mem
    · exact List.mem_singleton.mp mem ▸ Nat.mod_lt _ (by decide)

theorem isDecimal_positional (pointed negative : Bool) (d : Decimal) :
    (d.positional pointed negative).IsDecimal := by
  unfold Numeral.IsDecimal Decimal.positional
  dsimp only
  split
  · decide
  · exact lastDigits_lt _ _

theorem isDecimal_documentNumeral? {x : Float} {n : Numeral} (h : documentNumeral? x = some n) :
    n.IsDecimal := by
  unfold documentNumeral? at h
  split at h
  case h_1 =>
    dsimp only at h
    split at h
    · have written := isDecimal_positional true ‹Binary›.negative (Binary.shortest .even ‹Binary›)
      rwa [Option.some.inj h] at written
    · exact Option.some.inj h ▸ lastDigits_lt _ _
  case h_2 => nomatch h

theorem isSome_documentNumeral?_of_toFloat? {n : Numeral} {x : Float} (h : n.toFloat? = some x) :
    (documentNumeral? x).isSome = true := by
  rw [isSome_documentNumeral?, (Numeral.isUpTo_toFloat? h).isFinite]

end PhraseGrammar
