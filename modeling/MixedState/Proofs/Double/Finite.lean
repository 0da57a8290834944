import MixedState.Decimal.Scaled
import MixedState.Fault
import MixedState.Proofs.Double.Laws

/-!
# Doubles that stay finite

An operation overflows only where the last place of its exact result is too high, so that
words are finite as doubles, and so are their quotients by powers of ten.
-/

namespace MixedState
namespace Double

open Float.Model (UnpackedFloat Format)
open Float.Model.UnpackedFloat

variable {u : UnpackedFloat} {sign : Sign} {m : Nat} {e top : Int} {x y : Float}

/-- Zero, or a finite number whose last place is not above this exponent. -/
def PlacedBelow (top : Int) : UnpackedFloat -> Prop
  | .zero _ => True
  | .finite _ _ e _ => e ≤ top
  | _ => False

theorem isFinite_of_placedBelow (h : PlacedBelow top u) : u.isFinite = true := by
  cases u with
  | notANumber | infinity _ =>
      exact h.elim
  | zero _ | finite _ _ _ _ =>
      rfl

/-!
## Packing
-/

theorem placedBelow_packComponents {exponent : BitVec 11} {mantissa : BitVec 52}
    (hlow : -1074 ≤ top) (hfinite : exponent ≠ -1#11) (htop : (exponent.toNat : Int) - 1075 ≤ top) :
    PlacedBelow top (unpack .binary64 (packComponents .binary64 sign exponent mantissa)) := by
  unfold unpack
  simp only [unpackMantissa_packComponents, unpackExponent_packComponents]
  rw [if_neg hfinite]
  split
  · next hzero =>
      split
      · trivial
      · change (exponent.toNat : Int) - ((1023 : Nat) + (52 : Nat) : Int) + 1 ≤ top
        rw [hzero]
        exact hlow
  · change (exponent.toNat : Int) - ((1023 : Nat) + (52 : Nat) : Int) ≤ top
    omega

theorem placedBelow_unpack_pack (hlow : -1074 ≤ top) (htop : top ≤ 971) (h : PlacedBelow top u) :
    PlacedBelow top (unpack .binary64 (pack .binary64 u)) := by
  cases u with
  | notANumber | infinity _ =>
      exact h.elim
  | zero s =>
      cases s <;> trivial
  | finite s m e hm =>
      have he : e ≤ top := h
      unfold pack
      simp only [biasedExponent_eq e]
      rw [if_neg (by change ¬2048 ≤ (e + 1075).toNat + 1; omega)]
      split
      · have hexponent : (BitVec.ofNat 11 (e + 1075).toNat).toNat = (e + 1075).toNat := by
          rw [BitVec.toNat_ofNat, Nat.mod_eq_of_lt (by omega)]
        refine placedBelow_packComponents hlow ?_ (by omega)
        intro hall
        rw [hall] at hexponent
        change 2047 = _ at hexponent
        omega
      · exact placedBelow_packComponents hlow (by decide) (by change (0 : Int) - 1075 ≤ top; omega)

/-!
## Rounding
-/

theorem mantissa_shiftRight_le (em : ExtendedMantissa) (k : Nat) :
    (em >>> k).mantissa ≤ em.mantissa := by
  induction k with
  | zero =>
      exact Nat.le_refl _
  | succ k ih =>
      have hstep : em >>> (k + 1) = (em >>> k).shiftRightOne := rfl
      rw [hstep]
      exact Nat.le_trans (Nat.div_le_self _ 2) ih

theorem roundedMantissa_le (em : ExtendedMantissa) : em.roundedMantissa ≤ em.mantissa + 1 := by
  rcases em with ⟨m, round, sticky⟩
  unfold ExtendedMantissa.roundedMantissa
  cases round with
  | false =>
      cases sticky <;> exact Nat.le_succ m
  | true =>
      cases sticky with
      | false =>
          change m + m % 2 ≤ m + 1
          omega
      | true =>
          exact Nat.le_refl _

theorem mantissa_ofMantissaAndAccuracy (m : Nat) (accuracy : Accuracy) :
    (ExtendedMantissa.ofMantissaAndAccuracy m accuracy).mantissa = m := by
  cases accuracy with
  | exact =>
      rfl
  | inexact order =>
      cases order <;> rfl

theorem place_le {k : Nat} (hm : m ≤ 2 ^ k) : place m e ≤ max (k + e - 52) (-1074) := by
  have hlog : m.log2 ≤ k := by
    rw [← Nat.log2_two_pow (n := k)]
    exact log2_mono hm
  rw [place_eq]
  omega

theorem placedBelow_roundWithAccuracy (sign : Sign) (accuracy : Accuracy) (hm : m < 2 ^ 160)
    (hlow : -900 ≤ top) (he : e + 216 ≤ top) :
    PlacedBelow top (roundWithAccuracy .binary64 sign m e accuracy) := by
  have hfirst := place_le (e := e) (Nat.le_of_lt hm)
  have hrounded : ((ExtendedMantissa.ofMantissaAndAccuracy m accuracy) >>>
      (place m e - e).toNat).roundedMantissa ≤ 2 ^ 160 := by
    have hle := mantissa_shiftRight_le (ExtendedMantissa.ofMantissaAndAccuracy m accuracy)
      (place m e - e).toNat
    rw [mantissa_ofMantissaAndAccuracy] at hle
    exact Nat.le_trans (roundedMantissa_le _) (by omega)
  have hsecond := place_le (e := e + (place m e - e).toNat) hrounded
  generalize hr : ((ExtendedMantissa.ofMantissaAndAccuracy m accuracy) >>>
    (place m e - e).toNat).roundedMantissa = r at hsecond
  have hshift : (shiftToTargetExponent .binary64 m e accuracy).1.roundedMantissa = r := hr
  unfold roundWithAccuracy
  dsimp only
  rw [hshift]
  split
  · trivial
  · change e + (place m e - e).toNat + (place r (e + (place m e - e).toNat) -
      (e + (place m e - e).toNat)).toNat ≤ top
    omega

/-!
## Words
-/

def IsBounded (top : Int) (x : Float) : Prop :=
  PlacedBelow top x.toModel.unpack

theorem IsBounded.isFinite (h : IsBounded top x) : Scalar.isFinite x = true :=
  isFinite_of_placedBelow h

theorem isBounded_ofNat {n : Nat} (hn : n < 2 ^ 64) : IsBounded 200 (Scalar.ofNat n) := by
  unfold IsBounded
  by_cases hsmall : n < 2 ^ 53
  · have hlimit := mul_whole_lt_limit hsmall
    rcases (hasUnits_ofNat hsmall).zero_or_positive hlimit with ⟨s, hu, -⟩ | ⟨m, e, h, hu, hunits⟩
    · rw [hu]
      trivial
    · have hproper := (proper_toModel (Scalar.ofNat n)).1
      rw [hu] at hproper ⊢
      change e ≤ 200
      by_contra hlarge
      have hfull : 2 ^ 52 ≤ m := hproper.2.2.resolve_left (by omega)
      -- A normal number with a larger exponent has more units than one below `2 ^ 53`.
      have hbig := le_magnitude (e := e) hfull (by omega : 1075 ≤ (e + 1074).toNat)
      have hword : n * whole < 2 ^ (53 + 1074) := by
        unfold whole
        exact mul_two_pow_lt hsmall (Nat.le_refl _)
      omega
  · have hlarge : (Scalar.ofNat n : Float).toModel.unpack = unpack .binary64
        (pack .binary64 (UnpackedFloat.ofScientific .binary64 n 0)) := by
      change (Float.ofScientific n false 0).toModel.unpack = _
      unfold Float.ofScientific
      rw [dif_neg fun h => hsmall h.1]
      rfl
    have hproduct : exists m e, m < 2 ^ 160 ∧ e + 216 ≤ 200 ∧
        UnpackedFloat.ofScientific .binary64 n 0 =
          roundWithAccuracy .binary64 .positive m e .exact := by
      have hone : 10 ^ (0 : Int).toNat = 1 := rfl
      have hplaces : Format.binary64.mantissaBits = 53 := rfl
      unfold UnpackedFloat.ofScientific
      rw [dif_neg (by omega), if_neg (by decide),
        if_neg (by change ¬(0 : Int) < -(2048 + _); omega), if_pos (le_refl 0)]
      refine ⟨_, _, ?_, ?_, mul_positive_eq _ _⟩
      · rw [hone, hplaces, Nat.shiftLeft_eq]
        omega
      · rw [hplaces]
        decide
    rcases hproduct with ⟨m, e, hm, he, hproduct⟩
    rw [hlarge, hproduct]
    exact placedBelow_unpack_pack (by decide) (by decide)
      (placedBelow_roundWithAccuracy _ _ hm (by decide) he)

theorem IsBounded.neg (h : IsBounded top x) (hlow : -1074 ≤ top) (htop : top ≤ 971) :
    IsBounded top (-x) := by
  have hneg : (-x).toModel.unpack =
      unpack .binary64 (pack .binary64 (UnpackedFloat.neg x.toModel.unpack)) := rfl
  have hplaced : PlacedBelow top (UnpackedFloat.neg x.toModel.unpack) := by
    unfold IsBounded at h
    cases hu : x.toModel.unpack with
    | notANumber | infinity _ =>
        rw [hu] at h
        exact h.elim
    | zero _ | finite _ _ _ _ =>
        rw [hu] at h
        exact h
  unfold IsBounded
  rw [hneg]
  exact placedBelow_unpack_pack hlow htop hplaced

theorem isFinite_ofInt {n : Int} (hlow : -18446744073709551616 < n)
    (hhigh : n < 18446744073709551616) : Scalar.isFinite (Scalar.ofInt n : Float) = true := by
  cases n with
  | ofNat n =>
      exact (isBounded_ofNat (Int.ofNat_lt.mp hhigh)).isFinite
  | negSucc n =>
      exact ((isBounded_ofNat (by omega)).neg (by decide) (by decide)).isFinite

/-!
## Quotients
-/

theorem divCore_bounds {m' : Nat} (e e' : Int) (hm : m < 2 ^ 53) (hlow : 2 ^ 52 ≤ m')
    (hm' : m' < 2 ^ 53) :
    (divCore .binary64 m e m' e').1 < 2 ^ 160 ∧ (divCore .binary64 m e m' e').2.1 ≤ e - e' := by
  have htarget : (divCore .binary64 m e m' e').2.1 =
      min (e - e') (max (m.log2 + 1 + e - ((m'.log2 : Int) + 1 + e') - 53) (-1074)) := rfl
  have hquotient : (divCore .binary64 m e m' e').1 =
      m <<< (e - e' - (divCore .binary64 m e m' e').2.1).toNat / m' := rfl
  rw [log2_of_full hlow hm'] at htarget
  have hshift : (e - e' - (divCore .binary64 m e m' e').2.1).toNat ≤ 105 := by omega
  have hbig : m <<< (e - e' - (divCore .binary64 m e m' e').2.1).toNat < 2 ^ (53 + 105) := by
    rw [Nat.shiftLeft_eq]
    exact mul_two_pow_lt hm hshift
  refine ⟨?_, by omega⟩
  rw [hquotient]
  exact Nat.lt_of_le_of_lt (Nat.div_le_self _ _) (Nat.lt_trans hbig (by decide))

theorem IsBounded.div {m' : Nat} {e' bound : Int} {h' : 0 < m'} (hx : IsBounded top x)
    (hy : y.toModel.unpack = .finite .positive m' e' h') (hfull : 2 ^ 52 ≤ m')
    (hlow : -900 ≤ bound) (hbound : top - e' + 216 ≤ bound) (htop : bound ≤ 971) :
    IsBounded bound (x / y) := by
  have hquotient : (x / y).toModel.unpack = unpack .binary64 (pack .binary64
    (UnpackedFloat.div .binary64 x.toModel.unpack y.toModel.unpack)) := rfl
  have hxproper := (proper_toModel x).1
  have hyproper := (proper_toModel y).1
  rw [hy] at hyproper hquotient
  unfold IsBounded at hx ⊢
  rw [hquotient]
  refine placedBelow_unpack_pack (by omega) htop ?_
  cases hu : x.toModel.unpack with
  | notANumber | infinity _ =>
      rw [hu] at hx
      exact hx.elim
  | zero s =>
      trivial
  | finite s m e h =>
      rw [hu] at hx hxproper
      have he : e ≤ top := hx
      rcases divCore_bounds e e' hxproper.1 hfull hyproper.1 with ⟨hm, hexponent⟩
      exact placedBelow_roundWithAccuracy _ _ hm hlow (by omega)

/-!
## Powers of ten
-/

def fullPlace? (x : Float) : Option Int :=
  match x.toModel.unpack with
  | .finite .positive m e _ => if 2 ^ 52 ≤ m then some e else none
  | _ => none

theorem exists_of_fullPlace? (h : fullPlace? y = some e) :
    exists m : Nat, exists hm : 0 < m, 2 ^ 52 ≤ m ∧
      y.toModel.unpack = .finite .positive m e hm := by
  unfold fullPlace? at h
  split at h
  · next m e' hm hu =>
      split at h
      · next hfull =>
          cases h
          exact ⟨m, hm, hfull, hu⟩
      · cases h
  · cases h

theorem tenPowFloat_place : forall k, k < 309 ->
    (fullPlace? (Decimal.tenPowFloat k)).any (fun e => decide (-52 ≤ e)) = true := by
  decide +kernel

theorem tenPowFloat_last : fullPlace? (Decimal.tenPowFloat 308) = some 971 := by
  decide +kernel

theorem IsBounded.div_tenPow {k : Nat} {bound : Int} (hk : k ≤ 308) (hx : IsBounded top x)
    (hlow : -900 ≤ bound) (hbound : top + 268 ≤ bound) (htop : bound ≤ 971) :
    IsBounded bound (x / Decimal.tenPowFloat k) := by
  rcases (Option.any_eq_true _ _).mp (tenPowFloat_place k (by omega)) with ⟨e, he, hplace⟩
  rcases exists_of_fullPlace? he with ⟨m, hm, hfull, hu⟩
  have hleast := of_decide_eq_true hplace
  exact hx.div hu hfull hlow (by omega) htop

theorem isBounded_of_isFinite (h : Scalar.isFinite x = true) : IsBounded 971 x := by
  have hrange := (proper_toModel x).2
  change x.toModel.unpack.isFinite = true at h
  unfold IsBounded
  cases hu : x.toModel.unpack with
  | notANumber | infinity _ =>
      rw [hu] at h
      cases h
  | zero _ =>
      trivial
  | finite _ _ _ _ =>
      rw [hu] at hrange
      exact hrange

theorem isBounded_toFloat? {s : Decimal.Scaled} (hword : s.word < wordSize)
    (h : s.toFloat? = some x) : IsBounded 971 x := by
  have hword : IsBounded 200 (Float.ofScientific s.word false 0) := isBounded_ofNat hword
  unfold Decimal.Scaled.toFloat? at h
  dsimp only at h
  split at h
  · cases h
    exact trivial
  · split at h
    · cases h
    · split at h
      · split at h
        · next hfinite =>
            cases h
            exact isBounded_of_isFinite hfinite
        · cases h
      · split at h
        · cases h
          exact hword.div_tenPow (by omega) (by decide) (by decide) (by decide)
        · split at h
          · rcases exists_of_fullPlace? tenPowFloat_last with ⟨m, hm, hfull, hu⟩
            cases h
            -- The largest power brings any word far below one.
            have hsmall : IsBounded (-500) (Float.ofScientific s.word false 0 /
                Decimal.tenPowFloat 308) :=
              hword.div hu hfull (by decide) (by decide) (by decide)
            exact hsmall.div_tenPow (by omega) (by decide) (by decide) (by decide)
          · cases h
            exact trivial

theorem isFinite_signedFloat? {s : Decimal.Scaled} {negative : Bool} (hword : s.word < wordSize)
    (h : s.signedFloat? negative = some x) : Scalar.isFinite x = true := by
  rcases Option.map_eq_some_iff.mp h with ⟨y, hy, rfl⟩
  have hbounded := isBounded_toFloat? hword hy
  cases negative with
  | false =>
      exact hbounded.isFinite
  | true =>
      exact (hbounded.neg (by decide) (by decide)).isFinite

end Double
end MixedState
