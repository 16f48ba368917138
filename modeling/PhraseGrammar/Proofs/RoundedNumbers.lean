import Mathlib.Algebra.GroupWithZero.Nat
import PhraseGrammar.Cost.Float

/-! Bounds on floating-point numbers: how large the result of an operation can be, and that it is
finite. A number is told by its unpacked form, whose exponent is bounded through rounding and
packing. Packing takes back unpacking, so that adding zero leaves every finite number. -/

namespace PhraseGrammar

open Float.Model Float.Model.UnpackedFloat

inductive ExponentUpTo (bound : Int) : UnpackedFloat → Prop
  | zero (sign : Sign) : ExponentUpTo bound (.zero sign)
  | finite (sign : Sign) {m : Nat} {e : Int} {pos : 0 < m} (le : e ≤ bound) :
    ExponentUpTo bound (.finite sign m e pos)

inductive RoundedUpTo (bound : Int) : UnpackedFloat → Prop
  | zero (sign : Sign) : RoundedUpTo bound (.zero sign)
  | finite (sign : Sign) {m : Nat} {e : Int} {pos : 0 < m} (small : m < 2 ^ 53) (le : e ≤ bound) :
    RoundedUpTo bound (.finite sign m e pos)

inductive NormalIn (least greatest : Int) : UnpackedFloat → Prop
  | finite (sign : Sign) {m : Nat} {e : Int} {pos : 0 < m} (long : 2 ^ 52 ≤ m) (small : m < 2 ^ 53)
    (ge : least ≤ e) (le : e ≤ greatest) : NormalIn least greatest (.finite sign m e pos)

theorem RoundedUpTo.mono {u : UnpackedFloat} {bound greater : Int} (h : RoundedUpTo bound u)
    (le : bound ≤ greater) : RoundedUpTo greater u := by
  cases h with
  | zero sign => exact .zero sign
  | finite sign small fits => exact .finite sign small (Int.le_trans fits le)

theorem NormalIn.mono {u : UnpackedFloat} {least lower greatest : Int}
    (h : NormalIn least greatest u) (le : lower ≤ least) : NormalIn lower greatest u := by
  cases h with
  | finite sign long small ge fits => exact .finite sign long small (Int.le_trans le ge) fits

theorem NormalIn.roundedUpTo {u : UnpackedFloat} {least greatest : Int}
    (h : NormalIn least greatest u) : RoundedUpTo greatest u := by
  cases h with
  | finite sign _ small _ le => exact .finite sign small le

theorem RoundedUpTo.neg {u : UnpackedFloat} {bound : Int} (h : RoundedUpTo bound u) :
    ExponentUpTo bound u.neg := by
  cases h with
  | zero sign => exact .zero _
  | finite sign _ le => exact .finite _ le

theorem RoundedUpTo.isFinite {u : UnpackedFloat} {bound : Int} (h : RoundedUpTo bound u) :
    u.isFinite = true := by
  cases h <;> rfl

theorem mantissa_repeat_shiftRightOne (n : Nat) (em : ExtendedMantissa) :
    (n.repeat ExtendedMantissa.shiftRightOne em).mantissa = em.mantissa / 2 ^ n := by
  induction n with
  | zero => simp [Nat.repeat]
  | succ n ih =>
    rw [Nat.repeat, ExtendedMantissa.shiftRightOne]
    simp only [ih, Nat.div_div_eq_div_mul, Nat.pow_succ]

theorem mantissa_shiftToExponent (m : Nat) (e : Int) (accuracy : Accuracy) (target : Int) :
    (shiftToExponent m e accuracy target).1.mantissa = m / 2 ^ (target - e).toNat := by
  have start : (ExtendedMantissa.ofMantissaAndAccuracy m accuracy).mantissa = m := by
    unfold ExtendedMantissa.ofMantissaAndAccuracy
    split <;> rfl
  exact (mantissa_repeat_shiftRightOne _ _).trans (by rw [start])

theorem roundedMantissa_le (em : ExtendedMantissa) : em.roundedMantissa ≤ em.mantissa + 1 := by
  unfold ExtendedMantissa.roundedMantissa Accuracy.roundToNearestEven
  split <;> omega

theorem le_roundedMantissa (em : ExtendedMantissa) : em.mantissa ≤ em.roundedMantissa := by
  unfold ExtendedMantissa.roundedMantissa Accuracy.roundToNearestEven
  split <;> omega

theorem totalExponent_le {m k : Nat} (small : m < 2 ^ (k + 1)) (e : Int) :
    totalExponent m e ≤ k + 1 + e := by
  have bits : m.log2 < k + 1 := by
    by_cases zero : m = 0
    · simp [zero]
    · exact (Nat.log2_lt zero).mpr small
  unfold totalExponent
  omega

theorem targetExponent_eq (total : Int) :
    Format.binary64.targetExponent total = max (total - 53) (-1074) := rfl

theorem snd_shiftToTargetExponent (m : Nat) (e : Int) (accuracy : Accuracy) :
    (shiftToTargetExponent Format.binary64 m e accuracy).2 =
      max e (max (totalExponent m e - 53) (-1074)) := by
  simp only [shiftToTargetExponent, shiftToExponent, targetExponent_eq]
  omega

theorem shifted_lt {m k : Nat} (small : m < 2 ^ (k + 1)) (n : Nat) :
    m / 2 ^ n + 1 < 2 ^ (k - n + 1 + 1) := by
  have quotient : m / 2 ^ n < 2 ^ (k - n + 1) := by
    rw [Nat.div_lt_iff_lt_mul (Nat.two_pow_pos n), ← Nat.pow_add]
    exact Nat.lt_of_lt_of_le small (Nat.pow_le_pow_right (by decide) (by omega))
  have double : 2 ^ (k - n + 1 + 1) = 2 ^ (k - n + 1) * 2 := Nat.pow_succ ..
  have pos := Nat.two_pow_pos (k - n + 1)
  omega

/-- Rounding moves the exponent no further than the mantissa is too long. -/
theorem exponentUpTo_roundWithAccuracy {m k : Nat} {e bound : Int} (small : m < 2 ^ (k + 1))
    (own : e ≤ bound) (long : k + e ≤ bound + 51) (least : -1074 ≤ bound) (sign : Sign)
    (accuracy : Accuracy) :
    ExponentUpTo bound (roundWithAccuracy Format.binary64 sign m e accuracy) := by
  have first := totalExponent_le small e
  have exponent := snd_shiftToTargetExponent m e accuracy
  have rounded : (shiftToTargetExponent Format.binary64 m e accuracy).1.roundedMantissa < 2 ^
      (k - (max (totalExponent m e - 53) (-1074) - e).toNat + 1 + 1) :=
    Nat.lt_of_le_of_lt (roundedMantissa_le _)
      (mantissa_shiftToExponent m e accuracy _ ▸ shifted_lt small _)
  have second := totalExponent_le rounded
    (shiftToTargetExponent Format.binary64 m e accuracy).2
  have shifted := snd_shiftToTargetExponent
    (shiftToTargetExponent Format.binary64 m e accuracy).1.roundedMantissa
    (shiftToTargetExponent Format.binary64 m e accuracy).2 .exact
  unfold roundWithAccuracy
  dsimp only
  rw [apply_dite (ExponentUpTo bound), dite_prop_iff_and]
  constructor
  · exact fun _ => .zero sign
  · exact fun _ => .finite sign (by omega)

theorem cut_bounds {m : Nat} (long : 2 ^ 52 ≤ m) :
    2 ^ 52 ≤ m / 2 ^ (m.log2 - 52) ∧ m / 2 ^ (m.log2 - 52) < 2 ^ 53 := by
  have nonzero : m ≠ 0 := by omega
  have bits : 52 ≤ m.log2 := (Nat.le_log2 nonzero).mpr long
  have split : 2 ^ m.log2 = 2 ^ 52 * 2 ^ (m.log2 - 52) := by
    rw [← Nat.pow_add, Nat.add_sub_cancel' bits]
  constructor
  · rw [Nat.le_div_iff_mul_le (Nat.two_pow_pos _), ← split]
    exact Nat.log2_self_le nonzero
  · rw [Nat.div_lt_iff_lt_mul (Nat.two_pow_pos _), Nat.pow_succ, Nat.mul_right_comm, ← split,
      ← Nat.pow_succ]
    exact Nat.lt_log2_self

theorem mantissa_shiftToTargetExponent {m : Nat} (long : 2 ^ 52 ≤ m) {e : Int} (least : -1074 ≤ e)
    (accuracy : Accuracy) :
    (shiftToTargetExponent Format.binary64 m e accuracy).1.mantissa = m / 2 ^ (m.log2 - 52) := by
  have bits : 52 ≤ m.log2 := (Nat.le_log2 (by omega)).mpr long
  have total : totalExponent m e = m.log2 + 1 + e := rfl
  have shift : (max (totalExponent m e - 53) (-1074) - e).toNat = m.log2 - 52 := by omega
  exact (mantissa_shiftToExponent ..).trans (by rw [targetExponent_eq, shift])

/-- Rounding a mantissa that is long enough makes it one of full length. -/
theorem normalIn_roundWithAccuracy {m k : Nat} {e greatest : Int} (long : 2 ^ 52 ≤ m)
    (small : m < 2 ^ (k + 1)) (own : e ≤ greatest) (fits : k + e ≤ greatest + 51)
    (least : -1074 ≤ e) (sign : Sign) (accuracy : Accuracy) :
    NormalIn e greatest (roundWithAccuracy Format.binary64 sign m e accuracy) := by
  have upper := exponentUpTo_roundWithAccuracy small own fits (by omega) sign accuracy
  have exponent := snd_shiftToTargetExponent m e accuracy
  have rounded : 2 ^ 52 ≤
      (shiftToTargetExponent Format.binary64 m e accuracy).1.roundedMantissa :=
    Nat.le_trans (mantissa_shiftToTargetExponent long least accuracy ▸ (cut_bounds long).1)
      (le_roundedMantissa _)
  have bounds := cut_bounds rounded
  have second := mantissa_shiftToTargetExponent rounded
    (e := (shiftToTargetExponent Format.binary64 m e accuracy).2) (by omega) .exact
  have shifted := snd_shiftToTargetExponent
    (shiftToTargetExponent Format.binary64 m e accuracy).1.roundedMantissa
    (shiftToTargetExponent Format.binary64 m e accuracy).2 .exact
  unfold roundWithAccuracy at upper ⊢
  dsimp only at upper ⊢
  rw [apply_dite (NormalIn e greatest), dite_prop_iff_and]
  constructor
  · intro zero
    omega
  · intro nonzero
    rw [dif_neg nonzero] at upper
    cases upper with
    | finite _ le => exact .finite sign (by omega) (by omega) (by omega) le

theorem exponentBias_binary64 : Format.binary64.exponentBias = 1023 := rfl

theorem roundedUpTo_unpack {b : BitVec Format.binary64.numBits} {bound : Int}
    (finite : (unpackExponent b).toNat < 2047)
    (fits : ((unpackExponent b).toNat : Int) ≤ bound + 1075) (least : -1074 ≤ bound) :
    RoundedUpTo bound (UnpackedFloat.unpack Format.binary64 b) := by
  have ordinary : unpackExponent b ≠ -1#_ := by
    intro ones
    exact absurd (ones ▸ finite) (by decide)
  unfold UnpackedFloat.unpack
  rw [if_neg ordinary]
  by_cases zero : unpackExponent b = 0#_
  · rw [if_pos zero]
    by_cases mantissa : unpackMantissa b = 0#_
    · rw [dif_pos mantissa]
      exact .zero _
    · rw [dif_neg mantissa]
      refine .finite _ (Nat.lt_trans (BitVec.isLt _) (by decide)) ?_
      rw [zero]
      exact least
  · rw [if_neg zero]
    dsimp only
    rw [exponentBias_binary64]
    exact .finite _ (BitVec.isLt _) (by omega)

theorem normalIn_unpack {b : BitVec Format.binary64.numBits} {least greatest : Int}
    (stored : 0 < (unpackExponent b).toNat) (finite : (unpackExponent b).toNat < 2047)
    (ge : least + 1075 ≤ (unpackExponent b).toNat)
    (le : ((unpackExponent b).toNat : Int) ≤ greatest + 1075) :
    NormalIn least greatest (UnpackedFloat.unpack Format.binary64 b) := by
  have ordinary : unpackExponent b ≠ -1#_ := by
    intro ones
    exact absurd (ones ▸ finite) (by decide)
  have normal : unpackExponent b ≠ 0#_ := by
    intro zero
    exact absurd (zero ▸ stored) (by decide)
  unfold UnpackedFloat.unpack
  rw [if_neg ordinary, if_neg normal]
  dsimp only
  rw [exponentBias_binary64]
  refine .finite _ ?_ (BitVec.isLt _) (by omega) (by omega)
  rw [BitVec.toNat_append]
  exact Nat.left_le_or

theorem unpackExponent_pack_finite (sign : Sign) {m : Nat} {e : Int} (pos : 0 < m)
    (greatest : e ≤ 971) :
    (unpackExponent (UnpackedFloat.pack Format.binary64 (.finite sign m e pos))).toNat =
      if m.log2 = 52 then (e + 1075).toNat else 0 := by
  have field : (e + (1023 : Nat) + (52 : Nat)).toNat = (e + 1075).toNat := by omega
  have below : ¬2 ^ 11 ≤ (e + 1075).toNat + 1 := by omega
  have bits : m.log2 + 1 = Format.binary64.mantissaBits ↔ m.log2 = 52 := Nat.add_right_cancel_iff
  unfold UnpackedFloat.pack
  simp only [exponentBias_binary64, field, if_neg below, bits]
  split
  · rw [unpackExponent_packComponents, BitVec.toNat_ofNat]
    exact Nat.mod_eq_of_lt (by omega)
  · rw [unpackExponent_packComponents]
    rfl

theorem roundedUpTo_unpack_pack {u : UnpackedFloat} {bound : Int} (h : ExponentUpTo bound u)
    (least : -1074 ≤ bound) (greatest : bound ≤ 971) :
    RoundedUpTo bound
      (UnpackedFloat.unpack Format.binary64 (UnpackedFloat.pack Format.binary64 u)) := by
  cases h with
  | zero sign =>
    have field : (unpackExponent (UnpackedFloat.pack Format.binary64 (.zero sign))).toNat = 0 :=
      congrArg BitVec.toNat unpackExponent_packComponents
    exact roundedUpTo_unpack (by omega) (by omega) least
  | @finite sign m e pos le =>
    have stored := unpackExponent_pack_finite sign pos (Int.le_trans le greatest)
    by_cases full : m.log2 = 52
    · rw [if_pos full] at stored
      exact roundedUpTo_unpack (by omega) (by omega) least
    · rw [if_neg full] at stored
      exact roundedUpTo_unpack (by omega) (by omega) least

theorem normalIn_unpack_pack {u : UnpackedFloat} {least greatest : Int}
    (h : NormalIn least greatest u) (lowest : -1074 ≤ least) (highest : greatest ≤ 971) :
    NormalIn least greatest
      (UnpackedFloat.unpack Format.binary64 (UnpackedFloat.pack Format.binary64 u)) := by
  cases h with
  | finite sign long small ge le =>
    have stored := unpackExponent_pack_finite sign ‹_› (Int.le_trans le highest)
    rw [if_pos ((Nat.log2_eq_iff (by omega)).mpr ⟨long, small⟩)] at stored
    exact normalIn_unpack (by omega) (by omega) (by omega) (by omega)

theorem isInf_unpack_pack (sign : Sign) {m : Nat} {e : Int} (pos : 0 < m) (far : 971 < e) :
    (UnpackedFloat.unpack Format.binary64
      (UnpackedFloat.pack Format.binary64 (.finite sign m e pos))).isInf = true := by
  have field : (e + (1023 : Nat) + (52 : Nat)).toNat = (e + 1075).toNat := by omega
  have above : 2 ^ 11 ≤ (e + 1075).toNat + 1 := by omega
  unfold UnpackedFloat.pack
  simp only [exponentBias_binary64, field, if_pos above]
  cases sign <;> decide

theorem ExponentUpTo.of_isInf {u : UnpackedFloat} {bound : Int} (h : ExponentUpTo bound u)
    (finite : (UnpackedFloat.unpack Format.binary64
      (UnpackedFloat.pack Format.binary64 u)).isInf = false) : ExponentUpTo 971 u := by
  cases h with
  | zero sign => exact .zero sign
  | finite sign le =>
    refine .finite sign (Int.not_lt.mp fun far => ?_)
    exact absurd (isInf_unpack_pack sign ‹_› far) (by rw [finite]; decide)

theorem toBitVec_ofBitVec (s : BitVec 1) : (Sign.ofBitVec s).toBitVec = s := by
  revert s
  decide

theorem packComponents_unpack (b : BitVec Format.binary64.numBits) :
    packComponents Format.binary64 (Sign.ofBitVec (unpackSign b)) (unpackExponent b)
      (unpackMantissa b) = b := by
  unfold packComponents unpackSign unpackExponent unpackMantissa
  rw [toBitVec_ofBitVec]
  refine BitVec.eq_of_getLsbD_eq fun i (bound : i < 64) => ?_
  simp only [BitVec.getLsbD_append, BitVec.getLsbD_cast, BitVec.getLsbD_extractLsb]
  split
  · rw [decide_eq_true (by omega), Bool.true_and, Nat.zero_add]
  · split
    · rw [decide_eq_true (by omega), Bool.true_and, Nat.add_sub_cancel' (by omega)]
    · have last : 52 + 11 + (i - 52 - 11) = i := by omega
      rw [decide_eq_true (by omega), Bool.true_and, last]

theorem ofNat_one_append (m : BitVec 52) : BitVec.ofNat 52 (1#1 ++ m).toNat = m := by
  rw [BitVec.ofNat_toNat]
  exact BitVec.setWidth_append_eq_right

theorem log2_one_append (m : BitVec 52) : (1#1 ++ m).toNat.log2 = 52 := by
  have long : 2 ^ 52 ≤ (1#1 ++ m).toNat := by
    rw [BitVec.toNat_append]
    exact Nat.left_le_or
  exact (Nat.log2_eq_iff (by omega)).mpr ⟨long, BitVec.isLt _⟩

/-- Packing takes back what unpacking a finite number has done. -/
theorem pack_unpack {b : BitVec Format.binary64.numBits}
    (finite : (UnpackedFloat.unpack Format.binary64 b).isFinite = true) :
    UnpackedFloat.pack Format.binary64 (UnpackedFloat.unpack Format.binary64 b) = b := by
  have fields := packComponents_unpack b
  unfold UnpackedFloat.unpack at finite ⊢
  by_cases ordinary : unpackExponent b = -1#_
  · rw [if_pos ordinary] at finite
    split at finite <;> cases finite
  · rw [if_neg ordinary]
    by_cases zero : unpackExponent b = 0#_
    · rw [if_pos zero]
      rw [zero] at fields
      by_cases none : unpackMantissa b = 0#_
      · rw [none] at fields
        rw [dif_pos none]
        exact fields
      · have pos : (unpackMantissa b).toNat ≠ 0 := fun same => none (BitVec.eq_of_toNat_eq same)
        have short : (unpackMantissa b).toNat.log2 < 52 := (Nat.log2_lt pos).mpr (BitVec.isLt _)
        have part : ¬ (unpackMantissa b).toNat.log2 + 1 = Format.binary64.mantissaBits :=
          Nat.ne_of_lt (Nat.succ_lt_succ short)
        unfold UnpackedFloat.pack
        dsimp only
        rw [dif_neg none, zero, exponentBias_binary64]
        dsimp only
        rw [if_neg (by decide), if_neg part, BitVec.ofNat_toNat, BitVec.setWidth_eq]
        exact fields
    · rw [if_neg zero]
      have below : (unpackExponent b).toNat + 1 < 2 ^ 11 := by
        have bound : (unpackExponent b).toNat < 2 ^ 11 := BitVec.isLt _
        have ones : (unpackExponent b).toNat ≠ 2047 := fun same =>
          ordinary (BitVec.eq_of_toNat_eq same)
        omega
      have stored : ((unpackExponent b).toNat -
          ((Format.binary64.exponentBias : Nat) + (52 : Nat)) +
          (Format.binary64.exponentBias : Nat) + (52 : Nat) : Int).toNat =
            (unpackExponent b).toNat := by omega
      have full : (1#1 ++ unpackMantissa b).toNat.log2 + 1 = Format.binary64.mantissaBits :=
        congrArg (· + 1) (log2_one_append _)
      unfold UnpackedFloat.pack
      dsimp only
      rw [stored, if_neg (Nat.not_le.mpr below), if_pos full, BitVec.ofNat_toNat,
        BitVec.setWidth_eq, ofNat_one_append]
      exact fields

theorem exponentUpTo_mul {u v : UnpackedFloat} {bound bound' total : Int}
    (left : RoundedUpTo bound u) (right : RoundedUpTo bound' v)
    (sum : bound + bound' + 54 ≤ total) (least : -1074 ≤ total) :
    ExponentUpTo total (UnpackedFloat.mul Format.binary64 u v) := by
  cases left with
  | zero => cases right <;> exact .zero _
  | @finite _ m e _ small le =>
    cases right with
    | zero => exact .zero _
    | @finite _ m' e' _ small' le' =>
      have product : m * m' < 2 ^ (105 + 1) :=
        calc m * m' < 2 ^ 53 * 2 ^ 53 := Nat.mul_lt_mul'' small small'
          _ = 2 ^ (105 + 1) := by decide
      exact exponentUpTo_roundWithAccuracy product (by omega) (by omega) least _ _

theorem shiftLeft_lt {m k : Nat} (small : m < 2 ^ (k + 1)) (shift : Nat) :
    m <<< shift < 2 ^ (k + shift + 1) := by
  rw [Nat.shiftLeft_eq, Nat.add_right_comm, Nat.pow_add]
  exact Nat.mul_lt_mul_of_pos_right small (Nat.two_pow_pos _)

theorem quotient_lt {m m' : Nat} (small : m < 2 ^ 53) (long : 2 ^ 52 ≤ m') (shift : Nat) :
    m <<< shift / m' < 2 ^ (shift + 1) := by
  rw [Nat.div_lt_iff_lt_mul (by omega), Nat.shiftLeft_eq, Nat.pow_succ]
  calc m * 2 ^ shift < 2 ^ 53 * 2 ^ shift := Nat.mul_lt_mul_of_pos_right small (Nat.two_pow_pos _)
    _ = 2 ^ shift * 2 * 2 ^ 52 := by omega
    _ ≤ 2 ^ shift * 2 * m' := Nat.mul_le_mul_left _ long

theorem exponentUpTo_div {u v : UnpackedFloat} {bound least greatest total : Int}
    (left : RoundedUpTo bound u) (right : NormalIn least greatest v)
    (difference : bound - 51 - least ≤ total) (subnormal : -1074 ≤ total) :
    ExponentUpTo total (UnpackedFloat.div Format.binary64 u v) := by
  cases right with
  | @finite _ m' e' _ long' small' ge _ =>
    cases left with
    | zero => exact .zero _
    | @finite _ m e _ small le =>
      have upper := totalExponent_le (k := 52) small e
      have bits : m'.log2 = 52 := (Nat.log2_eq_iff (by omega)).mpr ⟨long', small'⟩
      have lower : totalExponent m' e' = m'.log2 + 1 + e' := rfl
      unfold UnpackedFloat.div divCore
      dsimp only
      rw [targetExponent_eq]
      exact exponentUpTo_roundWithAccuracy (quotient_lt small long' _) (by omega) (by omega)
        subnormal _ _

theorem exponentUpTo_round {m k : Nat} {bound : Int} (small : m < 2 ^ (k + 1))
    (long : (k : Int) ≤ bound + 51) (nonneg : 0 ≤ bound) (sign : Sign) :
    ExponentUpTo bound (UnpackedFloat.round Format.binary64 sign m 0) := by
  simp only [UnpackedFloat.round, UnpackedFloat.decreaseExponent]
  exact exponentUpTo_roundWithAccuracy (shiftLeft_lt small _) (by omega) (by omega) (by omega) _ _

theorem exponentUpTo_ofNat {n k : Nat} {bound : Int} (small : n < 2 ^ (k + 1))
    (long : (k : Int) ≤ bound + 51) (nonneg : 0 ≤ bound) :
    ExponentUpTo bound (UnpackedFloat.ofNat Format.binary64 n) := by
  unfold UnpackedFloat.ofNat UnpackedFloat.ofInt UnpackedFloat.normalize
  split
  · exact exponentUpTo_round (Nat.lt_of_le_of_lt (by omega) small) long nonneg _
  · exact .zero _
  · exact exponentUpTo_round (Nat.lt_of_le_of_lt (by omega) small) long nonneg _

theorem ofScientific_eq {n : Nat} (nonzero : n ≠ 0) {k : Nat} (near : k ≤ 2048) :
    UnpackedFloat.ofScientific Format.binary64 n k =
      roundWithAccuracy Format.binary64 .positive (n <<< 53 * 10 ^ k) (-53) .exact := by
  have near : ¬(k : Int) > 2 ^ 11 := by omega
  have high : ¬(k : Int) < -(2 ^ 11 + n.log2) := by omega
  unfold UnpackedFloat.ofScientific
  rw [dif_neg nonzero]
  dsimp only
  rw [if_neg near, if_neg high, if_pos (Int.natCast_nonneg k)]
  rfl

/-- Zero, or a finite number with an exponent up to the bound. -/
structure IsUpTo (bound : Int) (x : Float) : Prop where
  rounded : RoundedUpTo bound x.toModel.unpack

/-- A finite number with a mantissa of full length and an exponent between the bounds. -/
structure IsNormalIn (least greatest : Int) (x : Float) : Prop where
  normal : NormalIn least greatest x.toModel.unpack

instance (least greatest : Int) (u : UnpackedFloat) : Decidable (NormalIn least greatest u) :=
  match u with
  | .finite sign m e _ =>
    decidable_of_iff ((2 ^ 52 ≤ m ∧ m < 2 ^ 53) ∧ least ≤ e ∧ e ≤ greatest)
      ⟨fun h => .finite sign h.1.1 h.1.2 h.2.1 h.2.2,
        fun | .finite _ long small ge le => ⟨⟨long, small⟩, ge, le⟩⟩
  | .zero _ | .infinity _ | .notANumber => isFalse nofun

instance (least greatest : Int) (x : Float) : Decidable (IsNormalIn least greatest x) :=
  decidable_of_iff (NormalIn least greatest x.toModel.unpack) ⟨.mk, (·.normal)⟩

theorem IsNormalIn.isUpTo {x : Float} {least greatest : Int} (h : IsNormalIn least greatest x) :
    IsUpTo greatest x :=
  ⟨h.normal.roundedUpTo⟩

theorem IsUpTo.mono {x : Float} {bound greater : Int} (h : IsUpTo bound x)
    (le : bound ≤ greater) : IsUpTo greater x :=
  ⟨h.rounded.mono le⟩

theorem isUpTo_ofModel_pack {u : UnpackedFloat} {bound : Int} (h : ExponentUpTo bound u)
    (least : -1074 ≤ bound) (greatest : bound ≤ 971) :
    IsUpTo bound (.ofModel (Float.Model.pack u)) :=
  ⟨roundedUpTo_unpack_pack h least greatest⟩

theorem isUpTo_mul {x y : Float} {bound bound' total : Int} (left : IsUpTo bound x)
    (right : IsUpTo bound' y) (sum : bound + bound' + 54 ≤ total) (least : -1074 ≤ total)
    (greatest : total ≤ 971) : IsUpTo total (x * y) :=
  isUpTo_ofModel_pack (exponentUpTo_mul left.rounded right.rounded sum least) least greatest

theorem isUpTo_div {x y : Float} {bound least greatest total : Int} (left : IsUpTo bound x)
    (right : IsNormalIn least greatest y) (difference : bound - 51 - least ≤ total)
    (subnormal : -1074 ≤ total) (finite : total ≤ 971) : IsUpTo total (x / y) :=
  isUpTo_ofModel_pack (exponentUpTo_div left.rounded right.normal difference subnormal) subnormal
    finite

/-- A product overflows to infinity or not at all. -/
theorem isUpTo_mul_of_isInf {x y : Float} {bound bound' : Int} (left : IsUpTo bound x)
    (right : IsUpTo bound' y) (finite : (x * y).isInf = false) : IsUpTo 971 (x * y) := by
  have product : ExponentUpTo (max (bound + bound' + 54) (-1074)) _ :=
    exponentUpTo_mul left.rounded right.rounded (Int.le_max_left ..) (Int.le_max_right ..)
  exact isUpTo_ofModel_pack (product.of_isInf finite) (by decide) (by decide)

theorem IsUpTo.neg {x : Float} {bound : Int} (h : IsUpTo bound x) (least : -1074 ≤ bound)
    (greatest : bound ≤ 971) : IsUpTo bound (-x) :=
  isUpTo_ofModel_pack h.rounded.neg least greatest

theorem isUpTo_ofNat {n : Nat} (h : n < 2 ^ (63 + 1)) : IsUpTo 15 (Float.ofNat n) := by
  show IsUpTo 15 (Float.ofScientific n false 0)
  unfold Float.ofScientific
  split
  case isTrue =>
    have whole : IsUpTo 13 n.toUInt64.toFloat :=
      isUpTo_ofModel_pack (exponentUpTo_ofNat (UInt64.toNat_lt _) (by decide) (by decide))
        (by decide) (by decide)
    have one : IsNormalIn (-52) (-52) Float.exactlyRepresentablePowersOfTen[0] := by decide +kernel
    exact isUpTo_mul whole one.isUpTo (by decide) (by decide) (by decide)
  case isFalse large =>
    have nonzero : n ≠ 0 := by omega
    have product : n <<< 53 * 10 ^ 0 < 2 ^ (116 + 1) := by
      rw [Nat.pow_zero, Nat.mul_one]
      exact shiftLeft_lt h 53
    have rounded : ExponentUpTo 15 (UnpackedFloat.ofScientific Format.binary64 n (0 : Nat)) := by
      rw [ofScientific_eq nonzero (Nat.zero_le _)]
      exact exponentUpTo_roundWithAccuracy product (by decide) (by decide) (by decide) _ _
    exact isUpTo_ofModel_pack rounded (by decide) (by decide)

theorem isNormalIn_ofScientific_one {k : Nat} (h : k ≤ 307) :
    IsNormalIn (-53) 971 (.ofModel (Float.Model.ofScientific 1 k)) := by
  have products : ∀ k < 308, 1 <<< 53 * 10 ^ k < 2 ^ (1072 + 1) := by decide +kernel
  have product := products k (by omega)
  have long : 2 ^ 52 ≤ 1 <<< 53 * 10 ^ k :=
    Nat.le_trans (by decide) (Nat.le_mul_of_pos_right _ (Nat.pow_pos (by decide)))
  have rounded : NormalIn (-53) 971 (UnpackedFloat.ofScientific Format.binary64 1 k) := by
    rw [ofScientific_eq Nat.one_ne_zero (by omega)]
    exact normalIn_roundWithAccuracy long product (by decide) (by decide) (by decide) _ _
  exact ⟨normalIn_unpack_pack rounded (by decide) (by decide)⟩

theorem IsUpTo.isFinite {x : Float} {bound : Int} (h : IsUpTo bound x) : x.isFinite = true :=
  h.rounded.isFinite

theorem toNat_unpackExponent (b : BitVec Format.binary64.numBits) :
    (unpackExponent b).toNat = b.toNat / Binary.leadingBit % 0x800 := by
  simp [unpackExponent, Nat.shiftRight_eq_div_pow, Binary.leadingBit]

theorem isFinite_unpack (b : BitVec Format.binary64.numBits) :
    (UnpackedFloat.unpack Format.binary64 b).isFinite =
      decide (b.toNat / Binary.leadingBit % 0x800 ≠ 0x7FF) := by
  rw [← toNat_unpackExponent]
  by_cases ones : unpackExponent b = -1#_
  · unfold UnpackedFloat.unpack
    rw [if_pos ones]
    dsimp only
    rw [ones]
    split <;> rfl
  · have ordinary : (unpackExponent b).toNat ≠ 2047 := fun same =>
      ones (BitVec.eq_of_toNat_eq same)
    have below : (unpackExponent b).toNat < 2 ^ 11 := BitVec.isLt _
    have rounded : RoundedUpTo 971 (UnpackedFloat.unpack Format.binary64 b) :=
      roundedUpTo_unpack (by omega) (by omega) (by decide)
    rw [rounded.isFinite, decide_eq_true ordinary]

theorem eq_of_isFinite {u : UnpackedFloat} (finite : u.isFinite = true) :
    (∃ sign, u = .zero sign) ∨ ∃ sign m e pos, u = .finite sign m e pos := by
  cases u with
  | zero sign => exact .inl ⟨sign, rfl⟩
  | finite sign m e pos => exact .inr ⟨sign, m, e, pos, rfl⟩
  | infinity | notANumber => cases finite

theorem ofModel_pack_unpack {x : Float} (finite : x.isFinite = true) :
    Float.ofModel (.pack x.toModel.unpack) = x := by
  obtain ⟨⟨stored, valid⟩⟩ := x
  have bits : UInt64.ofBitVec _ = stored := congrArg UInt64.ofBitVec (pack_unpack finite)
  exact congrArg Float.ofModel ((Float.Model.mk.injEq ..).mpr bits)

theorem unpack_zero : (0.0 : Float).toModel.unpack = .zero .positive := by
  have zero : (0.0 : Float) = Float.ofBits 0 := by decide +kernel
  rw [zero]
  rfl

/-- Adding zero changes no finite number but minus zero, which becomes zero. -/
theorem add_zero_cases {x : Float} (finite : x.isFinite = true) :
    x + 0.0 = x ∨ x = -0.0 ∧ x + 0.0 = 0.0 := by
  have packed := ofModel_pack_unpack finite
  have sum : x + 0.0 =
      .ofModel (.pack (.add Format.binary64 x.toModel.unpack (.zero .positive))) := by
    rw [← unpack_zero]
    rfl
  rcases eq_of_isFinite finite with ⟨sign, same⟩ | ⟨sign, m, e, pos, same⟩
  · rw [same] at sum packed
    cases sign with
    | positive => exact .inl (sum.trans packed)
    | negative => exact .inr ⟨packed.symm.trans (by decide +kernel), sum.trans (by decide +kernel)⟩
  · rw [same] at sum packed
    exact .inl (sum.trans packed)

theorem beq_finite_self (sign : Sign) (m : Nat) (e : Int) (pos : 0 < m) :
    (UnpackedFloat.finite sign m e pos).beq (.finite sign m e pos) = true := by
  have both : (compare e e).then (compare m m) = .eq := by
    rw [Std.compare_self, Std.compare_self]
    rfl
  cases sign with
  | negative => exact congrArg (fun order : Ordering => some order.swap == some .eq) both
  | positive => exact congrArg (fun order : Ordering => some order == some .eq) both

theorem beq_self_of_isFinite {x : Float} (finite : x.isFinite = true) : (x == x) = true := by
  show x.toModel.unpack.beq x.toModel.unpack = true
  rcases eq_of_isFinite finite with ⟨sign, same⟩ | ⟨sign, m, e, pos, same⟩
  · rw [same]
    rfl
  · rw [same, beq_finite_self]

theorem add_zero_beq {x : Float} (finite : x.isFinite = true) : (x + 0.0 == x) = true := by
  rcases add_zero_cases finite with same | ⟨rfl, same⟩
  · rw [same, beq_self_of_isFinite finite]
  · rw [same]
    decide +kernel

end PhraseGrammar
