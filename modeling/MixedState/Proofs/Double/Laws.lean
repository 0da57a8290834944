import MixedState.Proofs.Double.Units
import MixedState.Proofs.Random.Draw

/-!
# Doubles are drawn like reals

The laws under which draws and running sums are proved right hold of doubles as they are
rounded: a draw scaled to a positive finite total is not negative and does not reach it.
-/

namespace MixedState
namespace Double

open Float.Model (UnpackedFloat Format)
open Float.Model.UnpackedFloat

variable {x y : Float}

/-!
## Natural numbers
-/

@[irreducible]
def whole : Nat :=
  2 ^ 1074

theorem fits_mul_whole {n : Nat} (hn : n < 2 ^ 53) : Fits (n * whole) := by
  unfold whole
  exact ⟨n, 1074, hn, rfl⟩

theorem mul_whole_lt_limit {n : Nat} (hn : n < 2 ^ 53) : n * whole < limit := by
  unfold whole limit
  exact mul_two_pow_lt hn (by omega)

theorem whole_lt_limit : whole < limit := by
  have hlt := mul_whole_lt_limit (n := 1) (by decide)
  rw [Nat.one_mul] at hlt
  exact hlt

theorem rounded_mul_whole {v : Nat} (h : Fits v) : rounded 1074 (v * whole) = v := by
  unfold whole
  exact rounded_of_fits 1074 h

theorem clamped_natCast {n : Nat} (hn : n < limit) : clamped n = n := by
  unfold clamped
  omega

theorem ofNat_eq {n : Nat} (hn : n < 2 ^ 53) :
    (Scalar.ofNat n : Float) = n.toUInt64.toFloat * Float.ofBits 0x3FF0000000000000 := by
  change Float.ofScientific n false 0 = _
  unfold Float.ofScientific
  rw [dif_pos ⟨hn, by decide⟩]
  rfl

theorem magnitude_full {e : Int} {k : Nat} (he : 52 + (e + 1074).toNat = k) :
    magnitude (2 ^ 52) e = 2 ^ k := by
  unfold magnitude
  rw [← Nat.pow_add, he]

theorem hasUnits_one : HasUnits (Float.ofBits 0x3FF0000000000000) whole := by
  have hone : (Float.ofBits 0x3FF0000000000000).toModel.unpack =
      .finite .positive (2 ^ 52) (-52) (by decide) := rfl
  refine ⟨by rw [hone]; nofun, ?_⟩
  have hunits : units (.finite .positive (2 ^ 52) (-52) (by decide)) = magnitude (2 ^ 52) (-52) :=
    rfl
  rw [hone, hunits, magnitude_full (by decide : 52 + (-52 + 1074 : Int).toNat = 1074)]
  unfold whole
  rfl

theorem counts_ofNat {n : Nat} (hn : n < 2 ^ 53) :
    Counts (UnpackedFloat.ofNat .binary64 n) (n * whole : Nat) := by
  have hcompare : UnpackedFloat.ofNat .binary64 n =
      UnpackedFloat.normalize .binary64 n 0 .positive := rfl
  rw [hcompare]
  unfold UnpackedFloat.normalize
  by_cases hzero : n = 0
  · rw [hzero, Nat.zero_mul]
    exact ⟨trivial, nofun, rfl⟩
  · have hcounts := counts_round (e := 0) 0 .positive hzero (by decide)
    have hplaces : (0 + 1074 + ((0 : Nat) : Int)).toNat = 1074 := rfl
    have hfits := fits_mul_whole hn
    unfold whole at hfits
    rw [hplaces, rounded_self hfits] at hcounts
    rw [compare_gt_iff_gt.mpr (by omega : (n : Int) > 0)]
    unfold whole
    exact hcounts

theorem hasUnits_toFloat {n : Nat} (hn : n < 2 ^ 53) :
    HasUnits n.toUInt64.toFloat (n * whole : Nat) := by
  have hword : n.toUInt64.toNat = n :=
    UInt64.toNat_ofNat_of_lt (by change n < 18446744073709551616; omega)
  have hfloat : n.toUInt64.toFloat.toModel.unpack =
      unpack .binary64 (pack .binary64 (UnpackedFloat.ofNat .binary64 n.toUInt64.toNat)) := rfl
  rw [hword] at hfloat
  have hunits := hasUnits_of_counts (counts_ofNat hn) hfloat
  rw [clamped_natCast (mul_whole_lt_limit hn)] at hunits
  exact hunits

theorem hasUnits_ofNat {n : Nat} (hn : n < 2 ^ 53) :
    HasUnits (Scalar.ofNat n : Float) (n * whole : Nat) := by
  have hproduct := (hasUnits_toFloat hn).mul (mul_whole_lt_limit hn) hasUnits_one whole_lt_limit
  rw [← ofNat_eq hn, rounded_mul_whole (fits_mul_whole hn),
    clamped_natCast (mul_whole_lt_limit hn)] at hproduct
  exact hproduct

/-!
## Draws in the unit interval
-/

theorem log2_of_full {m : Nat} (hlow : 2 ^ 52 ≤ m) (hm : m < 2 ^ 53) : m.log2 = 52 :=
  (Nat.log2_eq_iff (by omega)).mpr ⟨hlow, hm⟩

theorem divCore_eq {m : Nat} {e : Int} (hlow : 2 ^ 52 ≤ m) (hm : m < 2 ^ 53) (he : -1021 ≤ e) :
    divCore .binary64 m e (2 ^ 52) 0 = (2 * m, e - 53, .exact) := by
  have htarget : min (e - 0) (Format.binary64.targetExponent
      (Float.Model.totalExponent m e - Float.Model.totalExponent (2 ^ 52) 0)) = e - 53 := by
    unfold Float.Model.totalExponent
    rw [log2_of_full hlow hm, Nat.log2_two_pow]
    change min (e - 0) (max (_ - (53 : Int)) (-1074)) = e - 53
    omega
  have hshift : (e - 0 - (e - 53)).toNat = 53 := by omega
  have hdouble : m <<< 53 = 2 * m * 2 ^ 52 := by
    rw [Nat.shiftLeft_eq]
    omega
  unfold divCore
  rw [htarget]
  dsimp only
  rw [hshift, hdouble, Nat.mul_div_cancel _ (by decide), Nat.mul_mod_left]
  rfl

theorem lt_exponent_of_whole {n m : Nat} {e : Int} (hn : n ≠ 0) (hm : m < 2 ^ 53)
    (hunits : n * whole = magnitude m e) : -53 < e := by
  have hlow : whole ≤ n * whole := Nat.le_mul_of_pos_left _ (Nat.pos_of_ne_zero hn)
  have hlt := Nat.lt_of_le_of_lt (hunits ▸ hlow) (magnitude_lt hm (Nat.le_refl _))
  unfold whole at hlt
  have hplaces := (Nat.pow_lt_pow_iff_right (by decide : 1 < 2)).mp hlt
  omega

theorem mul_two_pow_52 {m : Nat} {e : Int} (he : -53 < e) :
    m * 2 ^ (e + 1022).toNat * 2 ^ 52 = magnitude m e := by
  have hplaces : (e + 1074).toNat = (e + 1022).toNat + 52 := by omega
  unfold magnitude
  rw [hplaces, Nat.pow_add, Nat.mul_assoc]

theorem counts_div {m : Nat} {e : Int} {h : 0 < m} (hfull : 2 ^ 52 ≤ m) (hm : m < 2 ^ 53)
    (he : -53 < e) :
    Counts (UnpackedFloat.div .binary64 (.finite .positive m e h)
      (.finite .positive (2 ^ 52) 0 (by decide))) (m * 2 ^ (e + 1022).toNat : Nat) := by
  have hdiv : UnpackedFloat.div .binary64 (.finite .positive m e h)
      (.finite .positive (2 ^ 52) 0 (by decide)) =
      roundWithAccuracy .binary64 .positive (2 * m) (e - 53) .exact := by
    unfold UnpackedFloat.div
    dsimp only
    rw [divCore_eq hfull hm (by omega)]
    rfl
  have hplace : e - 53 ≤ place (2 * m) (e - 53) := by
    have hlog := log2_mul_two_pow h.ne' 1
    rw [Nat.pow_one, Nat.mul_comm, log2_of_full hfull hm] at hlog
    rw [place_eq, hlog]
    omega
  have hcounts := counts_roundWithAccuracy 0 .positive (by omega : 2 * m ≠ 0) hplace
    (by omega)
  have hexact : 2 * m * 2 ^ (e - 53 + 1074 + (0 : Nat)).toNat = m * 2 ^ (e + 1022).toNat := by
    have hplaces : (e + 1022).toNat = (e - 53 + 1074 + (0 : Nat)).toNat + 1 := by omega
    rw [hplaces, Nat.pow_succ]
    ring
  have hfits : Fits (m * 2 ^ (e + 1022).toNat) := ⟨m, _, hm, rfl⟩
  rw [← hdiv, hexact, rounded_self hfits] at hcounts
  exact hcounts

theorem hasUnits_div {n : Nat} (hn : n < 2 ^ 53) :
    exists k : Nat, HasUnits ((Scalar.ofNat n : Float) / Scalar.ofNat drawSteps) k ∧
      k * 2 ^ 52 = n * whole := by
  have hsteps : (Scalar.ofNat drawSteps : Float).toModel.unpack =
      .finite .positive (2 ^ 52) 0 (by decide) := rfl
  have hquotient : ((Scalar.ofNat n : Float) / Scalar.ofNat drawSteps).toModel.unpack =
      unpack .binary64 (pack .binary64 (UnpackedFloat.div .binary64
        (Scalar.ofNat n : Float).toModel.unpack (Scalar.ofNat drawSteps : Float).toModel.unpack)) :=
    rfl
  have hproper := (proper_toModel (Scalar.ofNat n)).1
  have hlimit := mul_whole_lt_limit hn
  rw [hsteps] at hquotient
  rcases (hasUnits_ofNat hn).zero_or_positive hlimit with ⟨s, hu, hzero⟩ | ⟨m, e, h, hu, hunits⟩
  · rw [hu] at hquotient
    have hcounts : Counts (.zero (s / .positive)) (0 : Nat) := ⟨trivial, nofun, rfl⟩
    have hdrawn := hasUnits_of_counts hcounts hquotient
    rw [clamped_natCast limit_pos] at hdrawn
    exact ⟨0, hdrawn, by rw [hzero, Nat.zero_mul]⟩
  · rw [hu] at hquotient hproper
    have hnonzero : n ≠ 0 := by
      rintro rfl
      have hpos := magnitude_pos h e
      omega
    have he := lt_exponent_of_whole hnonzero hproper.1 hunits
    have hfull : 2 ^ 52 ≤ m := hproper.2.2.resolve_left (by omega)
    have hwhole := mul_two_pow_52 (m := m) he
    have hdrawn := hasUnits_of_counts (counts_div hfull hproper.1 he) hquotient
    rw [clamped_natCast (by omega)] at hdrawn
    exact ⟨_, hdrawn, hwhole.trans hunits.symm⟩

/-!
## Draws
-/

theorem exists_top : exists t : Nat, HasUnits (topDraw : Float) t ∧
    t * 2 ^ 52 = (2 ^ 52 - 1) * whole := by
  have htop : (topDraw : Float).toModel.unpack = .finite .positive (2 ^ 53 - 2) (-53) (by decide) :=
    rfl
  refine ⟨magnitude (2 ^ 53 - 2) (-53), ⟨by rw [htop]; nofun, by rw [htop]; rfl⟩, ?_⟩
  have hplaces : (-53 + 1074 : Int).toNat = 1021 := rfl
  have hdouble : (2 ^ 53 - 2 : Nat) = (2 ^ 52 - 1) * 2 := by decide
  have hpow : forall a b : Nat, 2 * 2 ^ a * 2 ^ b = 2 ^ (a + 1 + b) := by
    intro a b
    rw [← Nat.pow_succ', ← Nat.pow_add]
  have hsplit : whole = 2 * 2 ^ 1021 * 2 ^ 52 := by
    rw [hpow]
    unfold whole
    exact congrArg (2 ^ ·) (rfl : 1074 = 1021 + 1 + 52)
  unfold magnitude
  rw [hplaces, hdouble, hsplit, Nat.mul_assoc (2 ^ 52 - 1), Nat.mul_assoc (2 ^ 52 - 1)]

theorem HasUnits.fits {n : Nat} (hx : HasUnits x n) (hn : n < limit) : Fits n := by
  have hproper := (proper_toModel x).1
  rcases hx.zero_or_positive hn with ⟨s, hu, rfl⟩ | ⟨m, e, h, hu, rfl⟩
  · exact fits_zero
  · rw [hu] at hproper
    exact fits_magnitude hproper.1 e

theorem HasUnits.lt_limit {n : Nat} (hx : HasUnits x n) (hfinite : Scalar.isFinite x = true) :
    n < limit := by
  have hproper := proper_toModel x
  rcases hx with ⟨hnumber, hunits⟩
  have hlimit := limit_pos
  change x.toModel.unpack.isFinite = true at hfinite
  cases hu : x.toModel.unpack with
  | notANumber =>
      exact absurd hu hnumber
  | infinity s =>
      rw [hu] at hfinite
      cases hfinite
  | zero s =>
      rw [hu] at hunits
      change (0 : Int) = n at hunits
      omega
  | finite s m e h =>
      rw [hu] at hunits hproper
      have hlt := (units_finite_lt hproper.1 hproper.2).2
      omega

theorem rounded_mul_le {n t : Nat} (hn : Fits n) (ht : t ≤ whole) : rounded 1074 (n * t) ≤ n := by
  have hmono := rounded_mono 1074 (Nat.mul_le_mul_left n ht)
  rw [rounded_mul_whole hn] at hmono
  exact hmono

/-- The scale of a draw is the total or the double below it, whichever no draw brings to the
total. -/
theorem exists_drawScale {total : Float} {n t : Nat} (htotal : HasUnits total n) (hpos : 0 < n)
    (hn : n < limit) (ht : HasUnits (topDraw : Float) t) (hwhole : t ≤ whole) :
    exists s : Nat, HasUnits (drawScale 64 total total) s ∧ s < limit ∧
      clamped (rounded 1074 (s * t) : Nat) < n := by
  have htop : t < limit := Nat.lt_of_le_of_lt hwhole whole_lt_limit
  have hfirst := htotal.mul hn ht htop
  unfold drawScale
  cases hreach : Scalar.le total (total * topDraw) with
  | false =>
      rw [if_neg Bool.false_ne_true]
      refine ⟨n, htotal, hn, not_le.mp fun hle => ?_⟩
      rw [(htotal.le_iff hfirst).mpr hle] at hreach
      cases hreach
  | true =>
      rw [if_pos rfl]
      rcases htotal.below hpos hn with ⟨m, hm, hbelow⟩
      have hlimit := Nat.lt_trans hm hn
      have hsecond := hbelow.mul hlimit ht htop
      have hless : clamped (rounded 1074 (m * t) : Nat) < n := by
        have hle := rounded_mul_le (hbelow.fits hlimit) hwhole
        rw [clamped_natCast (Nat.lt_of_le_of_lt hle hlimit)]
        omega
      have hstop : Scalar.le total (Scalar.below total * topDraw) = false := by
        apply Bool.eq_false_iff.mpr
        intro hle
        exact absurd ((htotal.le_iff hsecond).mp hle) (not_le.mpr hless)
      unfold drawScale
      rw [hstop, if_neg Bool.false_ne_true]
      exact ⟨m, hbelow, hlimit, hless⟩

theorem hasUnits_scaledDraw {total : Float} {count : Nat} (hcount : count < drawSteps)
    (hpos : Scalar.lt 0 total = true) (hfinite : Scalar.isFinite total = true) :
    exists n d : Nat, HasUnits total n ∧ HasUnits (scaledDraw count total) d ∧ d < n := by
  rcases exists_of_lt hpos with ⟨zero, units, hzero, htotal, hlt⟩
  have hzero : zero = 0 := hzero.units_eq.symm
  obtain ⟨n, rfl⟩ := Int.eq_ofNat_of_zero_le (by omega : 0 ≤ units)
  have hn := htotal.lt_limit hfinite
  rcases exists_top with ⟨t, ht, htop⟩
  have hcount : count ≤ 2 ^ 52 - 1 := Nat.le_pred_of_lt hcount
  rcases hasUnits_div (by omega : count < 2 ^ 53) with ⟨k, hk, hunits⟩
  have hmono := Nat.mul_le_mul_right whole hcount
  have hwhole : t ≤ whole := by omega
  have hkt : k ≤ t := by omega
  rcases exists_drawScale htotal (by omega) hn ht hwhole with ⟨s, hs, hslimit, hless⟩
  have hklimit : k < limit := by
    have hlimit := whole_lt_limit
    omega
  have hdraw := hk.mul hklimit hs hslimit
  have hreach : clamped (rounded 1074 (k * s) : Nat) < n := by
    have hle : rounded 1074 (k * s) ≤ rounded 1074 (s * t) := by
      rw [Nat.mul_comm]
      exact rounded_mono 1074 (Nat.mul_le_mul_left s hkt)
    exact lt_of_le_of_lt (clamped_mono (Int.ofNat_le.mpr hle)) hless
  have hnat : clamped (rounded 1074 (k * s) : Nat) = (min limit (rounded 1074 (k * s)) : Nat) := by
    unfold clamped
    omega
  rw [hnat] at hdraw hreach
  unfold scaledDraw
  exact ⟨n, _, htotal, hdraw, Int.ofNat_lt.mp hreach⟩

theorem nonneg_packComponents {e : BitVec 11} {m : BitVec 52} (he : e ≠ -1#11) :
    unpack .binary64 (packComponents .binary64 .positive e m) ≠ .notANumber ∧
      0 ≤ units (unpack .binary64 (packComponents .binary64 .positive e m)) := by
  unfold unpack
  simp only [unpackMantissa_packComponents, unpackExponent_packComponents,
    unpackSign_packComponents, Sign.ofBitVec_toBitVec]
  rw [if_neg he]
  split
  · split
    · exact ⟨nofun, le_refl 0⟩
    · exact ⟨nofun, Int.natCast_nonneg _⟩
  · exact ⟨nofun, Int.natCast_nonneg _⟩

theorem nonneg_unpack_pack {m : Nat} {e : Int} (h : 0 < m) :
    unpack .binary64 (pack .binary64 (.finite .positive m e h)) ≠ .notANumber ∧
      0 ≤ units (unpack .binary64 (pack .binary64 (.finite .positive m e h))) := by
  by_cases he : 972 ≤ e
  · rw [unpack_pack_of_overflow he]
    exact ⟨nofun, Int.natCast_nonneg _⟩
  · unfold pack
    dsimp only
    rw [if_neg (by change ¬2048 ≤ (e + (1023 : Nat) + (52 : Nat)).toNat + 1; omega)]
    split
    · apply nonneg_packComponents
      intro hall
      have hsmall := congrArg BitVec.toNat hall
      rw [BitVec.toNat_ofNat] at hsmall
      change (e + (1023 : Nat) + (52 : Nat)).toNat % 2 ^ 11 = 2047 at hsmall
      omega
    · exact nonneg_packComponents (by decide)

theorem nonneg_roundWithAccuracy (m : Nat) (e : Int) (accuracy : Accuracy) :
    unpack .binary64 (pack .binary64 (roundWithAccuracy .binary64 .positive m e accuracy)) ≠
        .notANumber ∧
      0 ≤ units (unpack .binary64
        (pack .binary64 (roundWithAccuracy .binary64 .positive m e accuracy))) := by
  unfold roundWithAccuracy
  dsimp only
  split
  · exact ⟨nofun, le_refl 0⟩
  · exact nonneg_unpack_pack _

def IsNonneg (x : Float) : Prop :=
  exists k, HasUnits x k ∧ 0 ≤ k

theorem isNonneg_of_unpack (hnumber : x.toModel.unpack ≠ .notANumber)
    (hunits : 0 ≤ units x.toModel.unpack) : IsNonneg x :=
  ⟨_, ⟨hnumber, rfl⟩, hunits⟩

theorem mul_positive_eq {m m' : Nat} {e e' : Int} (h : 0 < m) (h' : 0 < m') :
    UnpackedFloat.mul .binary64 (.finite .positive m e h) (.finite .positive m' e' h') =
      roundWithAccuracy .binary64 .positive (m * m') (e + e') .exact :=
  rfl

theorem isNonneg_ofNat (n : Nat) : IsNonneg (Scalar.ofNat n) := by
  by_cases hn : n < 2 ^ 53
  · exact ⟨_, hasUnits_ofNat hn, Int.natCast_nonneg _⟩
  · have hlarge : (Scalar.ofNat n : Float).toModel.unpack = unpack .binary64
        (pack .binary64 (UnpackedFloat.ofScientific .binary64 n 0)) := by
      change (Float.ofScientific n false 0).toModel.unpack = _
      unfold Float.ofScientific
      rw [dif_neg fun h => hn h.1]
      rfl
    have hproduct : exists m e, UnpackedFloat.ofScientific .binary64 n 0 =
        roundWithAccuracy .binary64 .positive m e .exact := by
      unfold UnpackedFloat.ofScientific
      rw [dif_neg (by omega), if_neg (by decide),
        if_neg (by change ¬(0 : Int) < -(2048 + _); omega), if_pos (le_refl 0)]
      exact ⟨_, _, mul_positive_eq _ _⟩
    rcases hproduct with ⟨m, e, hproduct⟩
    have hnonneg := nonneg_roundWithAccuracy m e .exact
    rw [← hproduct, ← hlarge] at hnonneg
    exact isNonneg_of_unpack hnonneg.1 hnonneg.2

theorem IsNonneg.div {m : Nat} {e : Int} {h : 0 < m} (hx : IsNonneg x)
    (hy : y.toModel.unpack = .finite .positive m e h) : IsNonneg (x / y) := by
  have hquotient : (x / y).toModel.unpack = unpack .binary64 (pack .binary64
    (UnpackedFloat.div .binary64 x.toModel.unpack y.toModel.unpack)) := rfl
  rw [hy] at hquotient
  have hlimit := limit_pos
  rcases hx with ⟨k, ⟨hnumber, rfl⟩, hnonneg⟩
  -- It is enough to look at the packed quotient, for each kind of dividend.
  suffices hpacked : unpack .binary64 (pack .binary64 (UnpackedFloat.div .binary64
      x.toModel.unpack (.finite .positive m e h))) ≠ .notANumber ∧
      0 ≤ units (unpack .binary64 (pack .binary64 (UnpackedFloat.div .binary64
        x.toModel.unpack (.finite .positive m e h)))) by
    rw [← hquotient] at hpacked
    exact isNonneg_of_unpack hpacked.1 hpacked.2
  cases hu : x.toModel.unpack with
  | notANumber =>
      exact absurd hu hnumber
  | zero s =>
      change unpack .binary64 (pack .binary64 (.zero (s / .positive))) ≠ _ ∧
        0 ≤ units (unpack .binary64 (pack .binary64 (.zero (s / .positive))))
      rw [unpack_pack (u := .zero (s / .positive)) trivial trivial]
      exact ⟨nofun, le_refl 0⟩
  | infinity s =>
      rw [hu] at hnonneg
      cases s with
      | negative =>
          change 0 ≤ -(limit : Int) at hnonneg
          omega
      | positive =>
          change unpack .binary64 (pack .binary64 (.infinity .positive)) ≠ _ ∧
            0 ≤ units (unpack .binary64 (pack .binary64 (.infinity .positive)))
          rw [unpack_pack_infinity]
          exact ⟨nofun, Int.natCast_nonneg _⟩
  | finite s m' e' h' =>
      rw [hu] at hnonneg
      cases s with
      | negative =>
          have hpos := magnitude_pos h' e'
          change 0 ≤ -(magnitude m' e' : Int) at hnonneg
          omega
      | positive =>
          exact nonneg_roundWithAccuracy _ _ _

end Double

/-!
## The laws
-/

open Double

theorem Scalar.accumulates_double : Scalar.Accumulates Float where
  draw_nonneg n := by
    have hsteps : (Scalar.ofNat Source.variateSteps : Float).toModel.unpack =
        .finite .positive (2 ^ 52) 1 (by decide) := rfl
    rcases (isNonneg_ofNat n).div hsteps with ⟨k, hk, hnonneg⟩
    exact (hasUnits_zero.le_iff hk).mpr hnonneg
  le_of_add_le s w v hw hsum := by
    rcases exists_of_le hw with ⟨zero, k, hzero, hwunits, hnonneg⟩
    rcases exists_of_le hsum with ⟨l, n, hsunits, hvunits, hle⟩
    have hzero : 0 = zero := hzero.units_eq
    rcases exists_of_add hwunits (hzero ▸ hnonneg) hsunits with ⟨j, hj, hjl⟩
    exact (hj.le_iff hvunits).mpr (le_trans hjl hle)
  add_le_of_null s w v hw hnull hs := by
    rcases exists_of_le hw with ⟨zero, k, hzero, hwunits, hnonneg⟩
    rcases exists_of_le hs with ⟨j, n, hj, hv, hle⟩
    have hnull : ¬zero < k := by
      rw [← hzero.lt_iff hwunits, hnull]
      exact Bool.false_ne_true
    have hzero : 0 = zero := hzero.units_eq
    obtain rfl : k = 0 := by omega
    exact ((hj.add_null hwunits).le_iff hv).mpr hle

theorem Scalar.draws_double : Scalar.Draws Float where
  toAccumulates := Scalar.accumulates_double
  le_zero := (hasUnits_zero.le_iff hasUnits_zero).mpr (le_refl 0)
  lt_zero := by
    apply Bool.eq_false_iff.mpr
    intro h
    exact absurd ((hasUnits_zero.lt_iff hasUnits_zero).mp h) (lt_irrefl 0)
  le_of_lt x hx := by
    rcases exists_of_lt hx with ⟨j, k, hj, hk, hlt⟩
    exact (hj.le_iff hk).mpr (le_of_lt hlt)
  scaledDraw_nonneg n total hn hpos hfinite := by
    rcases hasUnits_scaledDraw hn hpos hfinite with ⟨_, d, _, hd, _⟩
    exact (hasUnits_zero.le_iff hd).mpr (Int.natCast_nonneg d)
  scaledDraw_lt n total hn hpos hfinite := by
    rcases hasUnits_scaledDraw hn hpos hfinite with ⟨k, d, hk, hd, hlt⟩
    apply Bool.eq_false_iff.mpr
    intro h
    exact absurd (Int.ofNat_le.mp ((hk.le_iff hd).mp h)) (not_le.mpr hlt)

end MixedState
