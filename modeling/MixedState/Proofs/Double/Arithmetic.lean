import MixedState.Proofs.Double.Order
import MixedState.Proofs.Double.Rounding

/-!
# Arithmetic of doubles

What an operation leaves before it is packed is the exact number of units, rounded.
-/

namespace MixedState
namespace Double

open Float.Model (UnpackedFloat Format totalExponent)
open Float.Model.UnpackedFloat

variable {u v : UnpackedFloat} {sign : Sign} {m : Nat} {e : Int} {fine : Nat}

def place (m : Nat) (e : Int) : Int :=
  Format.binary64.targetExponent (totalExponent m e)

theorem place_eq (m : Nat) (e : Int) : place m e = max (m.log2 + 1 + e - 53) (-1074) :=
  rfl

/-!
## Shifts
-/

theorem two_mul_mod_eq_zero_iff {r p : Nat} (hr : r < p) :
    2 * r % p = 0 ↔ r = 0 ∨ 2 * r = p := by
  by_cases hhalf : 2 * r < p
  · rw [Nat.mod_eq_of_lt hhalf]
    omega
  · rw [Nat.mod_eq_sub_mod (not_lt.mp hhalf), Nat.mod_eq_of_lt (by omega)]
    omega

/-- The bits shifted out are kept as whether they reach half a unit, and whether there are
others. -/
theorem shiftRight_eq (m k : Nat) :
    (⟨m, false, false⟩ : ExtendedMantissa) >>> k =
      ⟨m / 2 ^ k, decide (2 ^ k ≤ 2 * (m % 2 ^ k)), decide (2 * (m % 2 ^ k) % 2 ^ k ≠ 0)⟩ := by
  induction k with
  | zero =>
      change (⟨m, false, false⟩ : ExtendedMantissa) = _
      simp [Nat.mod_one]
  | succ k ih =>
      have hstep : (⟨m, false, false⟩ : ExtendedMantissa) >>> (k + 1) =
          ((⟨m, false, false⟩ : ExtendedMantissa) >>> k).shiftRightOne := rfl
      have hrest := Nat.mod_lt m (Nat.two_pow_pos k)
      have hmod : m % 2 ^ (k + 1) = m % 2 ^ k + 2 ^ k * (m / 2 ^ k % 2) := by
        rw [Nat.pow_succ, Nat.mod_mul]
      have hdouble : 2 * (m % 2 ^ (k + 1)) % 2 ^ (k + 1) = 2 * (m % 2 ^ k) := by
        rw [hmod, Nat.pow_succ, Nat.mul_add, Nat.mul_left_comm, ← Nat.mul_assoc _ 2,
          Nat.mul_comm 2, Nat.add_mul_mod_self_left, Nat.mod_eq_of_lt (by omega)]
      have hround : (m / 2 ^ k % 2 != 0) = decide (2 ^ (k + 1) ≤ 2 * (m % 2 ^ (k + 1))) := by
        rw [hmod, Nat.pow_succ]
        rcases Nat.mod_two_eq_zero_or_one (m / 2 ^ k) with hbit | hbit
        · rw [hbit, decide_eq_false (by omega)]
          rfl
        · rw [hbit, decide_eq_true (by omega)]
          rfl
      have hsticky : (decide (2 ^ k ≤ 2 * (m % 2 ^ k)) || decide (2 * (m % 2 ^ k) % 2 ^ k ≠ 0)) =
          decide (2 * (m % 2 ^ k) ≠ 0) := by
        rw [← Bool.decide_or, decide_eq_decide, ne_eq, two_mul_mod_eq_zero_iff hrest]
        omega
      rw [hstep, ih, hdouble, ← hround, ← hsticky]
      unfold ExtendedMantissa.shiftRightOne
      rw [Nat.div_div_eq_div_mul, ← Nat.pow_succ]

theorem roundedMantissa_shiftRight (m k : Nat) :
    ((⟨m, false, false⟩ : ExtendedMantissa) >>> k).roundedMantissa = nearest m k := by
  have hrest := Nat.mod_lt m (Nat.two_pow_pos k)
  have hzero := two_mul_mod_eq_zero_iff hrest
  rw [shiftRight_eq]
  unfold ExtendedMantissa.roundedMantissa nearest
  by_cases hhalf : 2 ^ k ≤ 2 * (m % 2 ^ k)
  · rw [if_neg (not_lt.mpr hhalf), decide_eq_true hhalf]
    by_cases htie : 2 * (m % 2 ^ k) = 2 ^ k
    · rw [if_pos htie, decide_eq_false (not_not.mpr (hzero.mpr (Or.inr htie)))]
      rfl
    · rw [if_neg htie, decide_eq_true (by rw [ne_eq, hzero]; omega)]
      rfl
  · rw [if_pos (not_le.mp hhalf), decide_eq_false hhalf]
    by_cases hexact : 2 * (m % 2 ^ k) % 2 ^ k = 0
    · rw [decide_eq_false (not_not.mpr hexact)]
      rfl
    · rw [decide_eq_true hexact]
      rfl

/-!
## Rounding
-/

theorem shiftToTargetExponent_eq (m : Nat) (e : Int) :
    shiftToTargetExponent .binary64 m e .exact =
      ((⟨m, false, false⟩ : ExtendedMantissa) >>> (place m e - e).toNat,
        e + (place m e - e).toNat) :=
  rfl

/-- A mantissa that rounding brought to 54 bits is shifted once more, and no other. -/
theorem shiftAgain_eq {r : Nat} (hlow : -1074 ≤ e) (hr : r ≤ 2 ^ 53) :
    shiftToTargetExponent .binary64 r e .exact =
      if r < 2 ^ 53 then (⟨r, false, false⟩, e) else (⟨2 ^ 52, false, false⟩, e + 1) := by
  rw [shiftToTargetExponent_eq, place_eq]
  by_cases hsmall : r < 2 ^ 53
  · have hlog : r.log2 ≤ 52 := by
      by_cases hzero : r = 0
      · rw [hzero, Nat.log2_zero]
        omega
      · exact Nat.le_of_lt_succ ((Nat.log2_lt hzero).mpr hsmall)
    have hshift : (max ((r.log2 : Int) + 1 + e - 53) (-1074) - e).toNat = 0 := by omega
    rw [if_pos hsmall, hshift]
    simp [HShiftRight.hShiftRight, Nat.repeat]
  · obtain rfl : r = 2 ^ 53 := Nat.le_antisymm hr (not_lt.mp hsmall)
    have hshift : (max (((2 ^ 53 : Nat).log2 : Int) + 1 + e - 53) (-1074) - e).toNat = 1 := by
      rw [Nat.log2_two_pow]
      omega
    rw [if_neg hsmall, hshift]
    rfl

theorem nearest_place_le (m : Nat) (e : Int) :
    nearest m (place m e - e).toNat ≤ 2 ^ 53 := by
  have hm : m < 2 ^ (53 + (place m e - e).toNat) := by
    refine Nat.lt_of_lt_of_le Nat.lt_log2_self (Nat.pow_le_pow_right Nat.two_pos ?_)
    rw [place_eq]
    omega
  rw [Nat.pow_add] at hm
  exact Nat.le_trans (nearest_le _ _) ((Nat.div_lt_iff_lt_mul (Nat.two_pow_pos _)).mpr hm)

theorem roundWithAccuracy_eq (hplace : e ≤ place m e) :
    roundWithAccuracy .binary64 sign m e .exact =
      if h : nearest m (place m e - e).toNat = 0 then .zero sign
      else if nearest m (place m e - e).toNat < 2 ^ 53 then
        .finite sign (nearest m (place m e - e).toNat) (place m e) (Nat.pos_of_ne_zero h)
      else .finite sign (2 ^ 52) (place m e + 1) (Nat.two_pow_pos 52) := by
  have hlow : -1074 ≤ place m e := by
    rw [place_eq]
    omega
  have hbound := nearest_place_le m e
  unfold roundWithAccuracy
  rw [shiftToTargetExponent_eq]
  dsimp only
  rw [roundedMantissa_shiftRight, Int.toNat_of_nonneg (by omega), add_sub_cancel,
    shiftAgain_eq hlow hbound]
  generalize nearest m (place m e - e).toNat = r at hbound
  by_cases hsmall : r < 2 ^ 53
  · simp only [if_pos hsmall]
  · have hr : r ≠ 0 := by omega
    simp only [if_neg hsmall, dif_neg hr]
    rfl

/-- A rounded number of units, which may be too large for a double. -/
structure Counts (u : UnpackedFloat) (k : Int) : Prop where
  proper : Proper u
  isNumber : u ≠ .notANumber
  units_eq : units u = k

theorem log2_mul_two_pow (hm : m ≠ 0) (j : Nat) : (m * 2 ^ j).log2 = m.log2 + j := by
  have hpos := Nat.two_pow_pos j
  rw [Nat.log2_eq_iff (Nat.mul_ne_zero hm hpos.ne'), Nat.add_right_comm, Nat.pow_add, Nat.pow_add]
  exact ⟨Nat.mul_le_mul_right _ (Nat.log2_self_le hm),
    Nat.mul_lt_mul_of_pos_right Nat.lt_log2_self hpos⟩

theorem rounded_eq (hm : m ≠ 0) (hplace : e ≤ place m e) (hfine : -1074 - (fine : Int) ≤ e) :
    rounded fine (m * 2 ^ (e + 1074 + fine).toNat) =
      magnitude (nearest m (place m e - e).toNat) (place m e) := by
  have hgrain : grain fine (m * 2 ^ (e + 1074 + fine).toNat) =
      (place m e - e).toNat + (e + 1074 + fine).toNat := by
    unfold grain
    rw [log2_mul_two_pow hm]
    rw [place_eq] at hplace ⊢
    omega
  unfold rounded
  rw [hgrain, nearest_mul]
  unfold magnitude
  congr 2
  rw [place_eq] at hplace ⊢
  omega

theorem full_nearest (hplace : e ≤ place m e) (hfull : place m e ≠ -1074) :
    2 ^ 52 ≤ nearest m (place m e - e).toNat := by
  rw [place_eq] at hplace hfull
  have hshift : (place m e - e).toNat + 52 = m.log2 := by
    rw [place_eq]
    omega
  have hm : m ≠ 0 := by
    rintro rfl
    rw [Nat.log2_zero] at hshift
    omega
  refine Nat.le_trans ?_ (le_nearest _ _)
  rw [Nat.le_div_iff_mul_le (Nat.two_pow_pos _), ← Nat.pow_add, Nat.add_comm, hshift]
  exact Nat.log2_self_le hm

theorem counts_roundWithAccuracy (fine : Nat) (sign : Sign) (hm : m ≠ 0) (hplace : e ≤ place m e)
    (hfine : -1074 - (fine : Int) ≤ e) :
    Counts (roundWithAccuracy .binary64 sign m e .exact)
      (sign.apply (rounded fine (m * 2 ^ (e + 1074 + fine).toNat) : Nat)) := by
  have hlow : -1074 ≤ place m e := by
    rw [place_eq]
    omega
  rw [rounded_eq hm hplace hfine, roundWithAccuracy_eq hplace]
  split
  · next hzero =>
      refine ⟨trivial, nofun, ?_⟩
      rw [hzero]
      unfold magnitude
      rw [Nat.zero_mul]
      cases sign <;> rfl
  · split
    · next hsmall =>
        refine ⟨⟨hsmall, hlow, ?_⟩, nofun, rfl⟩
        by_cases hplace' : place m e = -1074
        · exact Or.inl hplace'
        · exact Or.inr (full_nearest hplace hplace')
    · next hbig =>
        refine ⟨⟨by decide, by omega, Or.inr (Nat.le_refl _)⟩, nofun, ?_⟩
        have hfull := Nat.le_antisymm (nearest_place_le m e) (not_lt.mp hbig)
        have hhalf : magnitude (2 ^ 52) (place m e + 1) = magnitude (2 ^ 53) (place m e) := by
          unfold magnitude
          rw [← Nat.pow_add, ← Nat.pow_add]
          congr 1
          omega
        rw [hfull, ← hhalf]
        rfl

theorem counts_round (fine : Nat) (sign : Sign) (hm : m ≠ 0) (hfine : -1074 - (fine : Int) ≤ e) :
    Counts (UnpackedFloat.round .binary64 sign m e)
      (sign.apply (rounded fine (m * 2 ^ (e + 1074 + fine).toNat) : Nat)) := by
  have hround : UnpackedFloat.round .binary64 sign m e =
      roundWithAccuracy .binary64 sign (m * 2 ^ (e - place m e).toNat)
        (e - (e - place m e).toNat) .exact := by
    rw [← Nat.shiftLeft_eq]
    rfl
  have hzeros := Nat.two_pow_pos (e - place m e).toNat
  have hplace : place (m * 2 ^ (e - place m e).toNat) (e - (e - place m e).toNat) = place m e := by
    rw [place_eq (_ * _), log2_mul_two_pow hm]
    rw [place_eq]
    omega
  have hlow : -1074 ≤ place m e := by
    rw [place_eq]
    omega
  have hcounts := counts_roundWithAccuracy fine sign (Nat.mul_ne_zero hm hzeros.ne')
    (by rw [hplace]; omega) (by omega)
  rw [← hround, Nat.mul_assoc, ← Nat.pow_add] at hcounts
  have hplaces : (e - place m e).toNat + (e - (e - place m e).toNat + 1074 + fine).toNat =
      (e + 1074 + fine).toNat := by
    omega
  rw [hplaces] at hcounts
  exact hcounts

def roundedInt (k : Int) : Int :=
  if k < 0 then -(rounded 0 (-k).toNat : Nat) else (rounded 0 k.toNat : Nat)

theorem roundedInt_mono {j k : Int} (h : j ≤ k) : roundedInt j ≤ roundedInt k := by
  unfold roundedInt
  by_cases hj : j < 0
  · rw [if_pos hj]
    by_cases hk : k < 0
    · have hmono := rounded_mono 0 (by omega : (-k).toNat ≤ (-j).toNat)
      rw [if_pos hk]
      omega
    · rw [if_neg hk]
      omega
  · have hmono := rounded_mono 0 (by omega : j.toNat ≤ k.toNat)
    rw [if_neg hj, if_neg (by omega)]
    exact Int.ofNat_le.mpr hmono

theorem fits_magnitude (hm : m < 2 ^ 53) (e : Int) : Fits (magnitude m e) :=
  ⟨m, (e + 1074).toNat, hm, rfl⟩

theorem rounded_self {k : Nat} (h : Fits k) : rounded 0 k = k := by
  have hrounded := rounded_of_fits 0 h
  rw [Nat.pow_zero, Nat.mul_one] at hrounded
  exact hrounded

theorem fits_zero : Fits 0 :=
  ⟨0, 0, by decide, rfl⟩

theorem fits_two_pow (x : Nat) : Fits (2 ^ x) :=
  ⟨1, x, by decide, (Nat.one_mul _).symm⟩

theorem fits_limit : Fits limit := by
  unfold limit
  exact fits_two_pow _

theorem roundedInt_apply (sign : Sign) (k : Nat) :
    roundedInt (sign.apply k) = sign.apply (rounded 0 k : Nat) := by
  have hneg : forall i : Int, Sign.negative.apply i = -i := fun _ => rfl
  have hpos : forall i : Int, Sign.positive.apply i = i := fun _ => rfl
  unfold roundedInt
  cases sign with
  | negative =>
      rw [hneg, hneg, Int.neg_neg, Int.toNat_natCast]
      by_cases hk : k = 0
      · rw [hk, rounded_self fits_zero]
        rfl
      · rw [if_pos (by omega)]
  | positive =>
      rw [hpos, hpos, if_neg (by omega), Int.toNat_natCast]

theorem roundedInt_units (hu : Proper u) : roundedInt (units u) = units u := by
  cases u with
  | notANumber | zero _ =>
      change ((rounded 0 0 : Nat) : Int) = 0
      rw [rounded_self fits_zero]
      rfl
  | infinity sign =>
      change roundedInt (sign.apply limit) = _
      rw [roundedInt_apply, rounded_self fits_limit]
      rfl
  | finite sign m e h =>
      change roundedInt (sign.apply (magnitude m e : Nat)) = _
      rw [roundedInt_apply, rounded_self (fits_magnitude hu.1 e)]
      rfl

theorem counts_normalize (M : Int) (hlow : -1074 ≤ e) :
    Counts (UnpackedFloat.normalize .binary64 M e .positive)
      (roundedInt (M * 2 ^ (e + 1074).toNat)) := by
  have hsigned : forall (sign : Sign) (m : Nat), m ≠ 0 ->
      Counts (UnpackedFloat.round .binary64 sign m e)
        (roundedInt (sign.apply m * 2 ^ (e + 1074).toNat)) := by
    intro sign m hm
    have hcounts := counts_round 0 sign hm (by omega : -1074 - ((0 : Nat) : Int) ≤ e)
    have hplaces : (e + 1074 + (0 : Nat)).toNat = (e + 1074).toNat := by omega
    have hsign : sign.apply m * 2 ^ (e + 1074).toNat =
        sign.apply (m * 2 ^ (e + 1074).toNat : Nat) := by
      cases sign with
      | negative =>
          change -(m : Int) * _ = -_
          push_cast
          ring
      | positive =>
          change (m : Int) * _ = _
          push_cast
          rfl
    rw [hsign, roundedInt_apply, ← hplaces]
    exact hcounts
  unfold UnpackedFloat.normalize
  rcases lt_trichotomy M 0 with hM | rfl | hM
  · have hcounts := hsigned .negative (-M).toNat (by omega)
    have happly : Sign.negative.apply ((-M).toNat : Nat) = M := by
      change -((-M).toNat : Int) = M
      omega
    rw [happly] at hcounts
    rw [compare_lt_iff_lt.mpr hM]
    exact hcounts
  · rw [compare_eq_iff_eq.mpr rfl, Int.zero_mul]
    refine ⟨trivial, nofun, ?_⟩
    exact (roundedInt_units (u := .zero .positive) trivial).symm
  · have hcounts := hsigned .positive M.toNat (by omega)
    have happly : Sign.positive.apply (M.toNat : Nat) = M := by
      change (M.toNat : Int) = M
      omega
    rw [happly] at hcounts
    rw [compare_gt_iff_gt.mpr hM]
    exact hcounts

/-!
## Sums and products
-/

theorem counts_add {s t : Sign} {m' : Nat} {e' : Int} {h : 0 < m} {h' : 0 < m'}
    (hu : Proper (.finite s m e h)) (hv : Proper (.finite t m' e' h')) :
    Counts (add .binary64 (.finite s m e h) (.finite t m' e' h'))
      (roundedInt (units (.finite s m e h) + units (.finite t m' e' h'))) := by
  have hlow := hu.2.1
  have hlow' := hv.2.1
  have hcounts := counts_normalize
    (s.apply (m <<< (e - min e e').toNat : Nat) + t.apply (m' <<< (e' - min e e').toNat : Nat))
    (by omega : -1074 ≤ min e e')
  have haligned : forall (r : Sign) (n : Nat) (f : Int), min e e' ≤ f ->
      r.apply (n <<< (f - min e e').toNat : Nat) * 2 ^ (min e e' + 1074).toNat =
        r.apply (magnitude n f : Nat) := by
    intro r n f hf
    have hplaces : (f - min e e').toNat + (min e e' + 1074).toNat = (f + 1074).toNat := by omega
    have hnat : n <<< (f - min e e').toNat * 2 ^ (min e e' + 1074).toNat = magnitude n f := by
      rw [Nat.shiftLeft_eq, Nat.mul_assoc, ← Nat.pow_add, hplaces]
      rfl
    rw [← hnat]
    cases r with
    | negative =>
        change -(_ : Int) * _ = -_
        push_cast
        ring
    | positive =>
        change (_ : Int) * _ = _
        push_cast
        rfl
  rw [Int.add_mul, haligned s m e (min_le_left _ _), haligned t m' e' (min_le_right _ _)] at hcounts
  exact hcounts

theorem counts_mul {m' : Nat} {e' : Int} {h : 0 < m} {h' : 0 < m'}
    (hu : Proper (.finite .positive m e h)) (hv : Proper (.finite .positive m' e' h')) :
    Counts (mul .binary64 (.finite .positive m e h) (.finite .positive m' e' h'))
      (rounded 1074 (magnitude m e * magnitude m' e') : Nat) := by
  rcases hu with ⟨hm, hlow, hfull⟩
  rcases hv with ⟨hm', hlow', hfull'⟩
  have hplace : e + e' ≤ place (m * m') (e + e') := by
    have hlog : 2 ^ 52 ≤ m * m' -> 52 ≤ (m * m').log2 :=
      (Nat.le_log2 (Nat.mul_ne_zero h.ne' h'.ne')).mpr
    rw [place_eq]
    rcases hfull with rfl | hfull
    · rcases hfull' with rfl | hfull'
      · omega
      · have hlog := hlog (Nat.le_trans hfull' (Nat.le_mul_of_pos_left m' h))
        omega
    · have hlog := hlog (Nat.le_trans hfull (Nat.le_mul_of_pos_right m h'))
      omega
  have hcounts := counts_roundWithAccuracy 1074 .positive
    (Nat.mul_ne_zero h.ne' h'.ne') hplace (by omega)
  have hproduct : m * m' * 2 ^ (e + e' + 1074 + (1074 : Nat)).toNat =
      magnitude m e * magnitude m' e' := by
    have hplaces : (e + e' + 1074 + (1074 : Nat)).toNat = (e + 1074).toNat + (e' + 1074).toNat := by
      omega
    unfold magnitude
    rw [hplaces, Nat.pow_add]
    ring
  rw [hproduct] at hcounts
  exact hcounts

/-!
## Packing
-/

def clamped (k : Int) : Int :=
  max (-limit) (min limit k)

theorem clamped_mono {j k : Int} (h : j ≤ k) : clamped j ≤ clamped k := by
  unfold clamped
  omega

theorem units_bounds (hu : Proper u) (hrange : InRange u) :
    -(limit : Int) ≤ units u ∧ units u ≤ limit := by
  have hlimit := limit_pos
  cases u with
  | notANumber | zero _ =>
      change -(limit : Int) ≤ 0 ∧ (0 : Int) ≤ limit
      omega
  | infinity sign =>
      cases sign with
      | negative =>
          change -(limit : Int) ≤ -limit ∧ -(limit : Int) ≤ limit
          omega
      | positive =>
          change -(limit : Int) ≤ limit ∧ (limit : Int) ≤ limit
          omega
  | finite sign m e h =>
      rcases units_finite_lt hu hrange with ⟨hlow, htop⟩
      exact ⟨le_of_lt hlow, le_of_lt htop⟩

theorem clamped_units (hu : Proper u) (hrange : InRange u) : clamped (units u) = units u := by
  rcases units_bounds hu hrange with ⟨hlow, htop⟩
  unfold clamped
  omega

theorem counts_unpack_pack {k : Int} (h : Counts u k) :
    InRange (unpack .binary64 (pack .binary64 u)) ∧
      Counts (unpack .binary64 (pack .binary64 u)) (clamped k) := by
  rcases h with ⟨hu, hnumber, rfl⟩
  by_cases hrange : InRange u
  · rw [unpack_pack hu hrange, clamped_units hu hrange]
    exact ⟨hrange, hu, hnumber, rfl⟩
  · cases u with
    | notANumber | infinity _ | zero _ =>
        exact absurd trivial hrange
    | finite sign m e h =>
        have he : 972 ≤ e := by
          change ¬e ≤ 971 at hrange
          omega
        have hfull : 2 ^ 52 ≤ m := hu.2.2.resolve_left (by omega)
        have hbig := le_magnitude hfull (by omega : 2046 ≤ (e + 1074).toNat)
        rw [← limit_eq] at hbig
        rw [unpack_pack_of_overflow he]
        refine ⟨trivial, trivial, nofun, ?_⟩
        unfold clamped
        cases sign with
        | negative =>
            change -(limit : Int) = max _ (min _ (-(magnitude m e : Int)))
            omega
        | positive =>
            change (limit : Int) = max _ (min _ (magnitude m e : Int))
            omega

end Double
end MixedState
