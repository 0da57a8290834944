import Mathlib

/-!
# Doubles as numbers of units

A double other than a result that is no number counts units of the smallest positive one.
Comparisons of doubles are those of the numbers of units.
-/

namespace MixedState
namespace Double

open Float.Model (UnpackedFloat Format)
open Float.Model.UnpackedFloat

@[irreducible]
def limit : Nat :=
  2 ^ (53 + 2045)

/-- The number of units of a mantissa with an exponent; the smallest positive double is one. -/
def magnitude (m : Nat) (e : Int) : Nat :=
  m * 2 ^ (e + 1074).toNat

/-- The signed number of units of a double; a result that is no number counts none. -/
def units : UnpackedFloat -> Int
  | .notANumber => 0
  | .infinity sign => sign.apply limit
  | .zero _ => 0
  | .finite sign m e _ => sign.apply (magnitude m e)

def Proper : UnpackedFloat -> Prop
  | .finite _ m e _ => m < 2 ^ 53 ∧ -1074 ≤ e ∧ (e = -1074 ∨ 2 ^ 52 ≤ m)
  | _ => True

def InRange : UnpackedFloat -> Prop
  | .finite _ _ e _ => e ≤ 971
  | _ => True

variable {u v : UnpackedFloat} {sign : Sign} {m : Nat} {e : Int} {h : 0 < m}

/-!
## Packing
-/

theorem toNat_one_append {w : Nat} (b : BitVec w) : (1#1 ++ b).toNat = 2 ^ w + b.toNat := by
  rw [BitVec.toNat_append, ← Nat.shiftLeft_add_eq_or_of_lt b.isLt, BitVec.toNat_ofNat,
    Nat.shiftLeft_eq]
  simp

theorem proper_unpack (b : BitVec Format.binary64.numBits) :
    Proper (unpack .binary64 b) ∧ InRange (unpack .binary64 b) := by
  have hmantissa := (unpackMantissa b).isLt
  have hexponent := (unpackExponent b).isLt
  have hbias : (Format.binary64.exponentBias : Int) = 1023 := rfl
  unfold unpack
  dsimp only
  split
  · split
    · exact ⟨trivial, trivial⟩
    · exact ⟨trivial, trivial⟩
  · next hall =>
      split
      · next hzero =>
          split
          · exact ⟨trivial, trivial⟩
          · change (_ ∧ _ ∧ _) ∧ _ ≤ (971 : Int)
            rw [hzero, hbias]
            change (unpackMantissa b).toNat < 2 ^ 52 at hmantissa
            exact ⟨⟨by omega, by decide, Or.inl (by decide)⟩, by decide⟩
      · next hzero =>
          change (_ ∧ _ ∧ _) ∧ _ ≤ (971 : Int)
          rw [toNat_one_append, hbias]
          change (unpackMantissa b).toNat < 2 ^ 52 at hmantissa
          change (unpackExponent b).toNat < 2 ^ 11 at hexponent
          have hall : (unpackExponent b).toNat ≠ 2047 := by
            intro h
            exact hall (BitVec.eq_of_toNat_eq h)
          have hzero : (unpackExponent b).toNat ≠ 0 := by
            intro h
            exact hzero (BitVec.eq_of_toNat_eq h)
          dsimp only
          exact ⟨⟨by omega, by omega, Or.inr (by omega)⟩, by omega⟩

theorem finite_congr {m' : Nat} {e' : Int} {h' : 0 < m'} (hm : m = m') (he : e = e') :
    UnpackedFloat.finite sign m e h = .finite sign m' e' h' := by
  subst hm he
  rfl

theorem biasedExponent_eq (e : Int) : (e + (Format.binary64.exponentBias : Int) +
    (Format.binary64.mantissaBitsWithoutImplicit : Int)).toNat = (e + 1075).toNat := by
  change (e + (1023 : Nat) + (52 : Nat)).toNat = _
  omega

theorem unpack_pack_of_full (hfull : 2 ^ 52 ≤ m) (hm : m < 2 ^ 53) (hlow : -1074 ≤ e)
    (htop : e ≤ 971) :
    unpack .binary64 (pack .binary64 (.finite sign m e h)) = .finite sign m e h := by
  have hlog : m.log2 = 52 := (Nat.log2_eq_iff h.ne').mpr ⟨hfull, hm⟩
  have hmantissa : (1#1 ++ BitVec.ofNat 52 m).toNat = m := by
    rw [toNat_one_append, BitVec.toNat_ofNat]
    omega
  have hexponent : (BitVec.ofNat 11 (e + 1075).toNat).toNat = (e + 1075).toNat := by
    rw [BitVec.toNat_ofNat, Nat.mod_eq_of_lt (by omega)]
  have hall : BitVec.ofNat 11 (e + 1075).toNat ≠ -1#11 := by
    intro hsame
    rw [hsame] at hexponent
    change 2047 = _ at hexponent
    omega
  have hzero : BitVec.ofNat 11 (e + 1075).toNat ≠ 0#11 := by
    intro hsame
    rw [hsame] at hexponent
    change 0 = _ at hexponent
    omega
  unfold pack
  simp only [biasedExponent_eq e]
  rw [if_neg (by change ¬2048 ≤ _; omega), if_pos (by rw [hlog]; rfl)]
  unfold unpack
  simp only [unpackMantissa_packComponents, unpackExponent_packComponents,
    unpackSign_packComponents, Sign.ofBitVec_toBitVec]
  rw [if_neg hall, if_neg hzero]
  apply finite_congr hmantissa
  rw [hexponent]
  change _ - ((1023 : Nat) + (52 : Nat) : Int) = e
  omega

theorem unpack_pack_of_last (hm : m < 2 ^ 52) :
    unpack .binary64 (pack .binary64 (.finite sign m (-1074) h)) = .finite sign m (-1074) h := by
  have hlog : m.log2 < 52 := (Nat.log2_lt h.ne').mpr hm
  have hmantissa : (BitVec.ofNat 52 m).toNat = m := by
    rw [BitVec.toNat_ofNat]
    omega
  have hzero : BitVec.ofNat 52 m ≠ 0#52 := by
    intro hsame
    rw [hsame] at hmantissa
    exact h.ne hmantissa
  unfold pack
  simp only [biasedExponent_eq (-1074)]
  rw [if_neg (by decide), if_neg (by change ¬_ = 53; omega)]
  unfold unpack
  simp only [unpackMantissa_packComponents, unpackExponent_packComponents,
    unpackSign_packComponents, Sign.ofBitVec_toBitVec]
  rw [if_neg (by decide), if_pos trivial, dif_neg hzero]
  exact finite_congr hmantissa rfl

theorem unpack_pack (hu : Proper u) (hrange : InRange u) :
    unpack .binary64 (pack .binary64 u) = u := by
  cases u with
  | notANumber =>
      rfl
  | infinity sign =>
      cases sign <;> rfl
  | zero sign =>
      cases sign <;> rfl
  | finite sign m e h =>
      rcases hu with ⟨hm, hlow, hplace⟩
      by_cases hfull : 2 ^ 52 ≤ m
      · exact unpack_pack_of_full hfull hm hlow hrange
      · obtain rfl : e = -1074 := hplace.resolve_right hfull
        exact unpack_pack_of_last (not_le.mp hfull)

theorem unpack_pack_of_overflow (he : 972 ≤ e) :
    unpack .binary64 (pack .binary64 (.finite sign m e h)) = .infinity sign := by
  unfold pack
  dsimp only
  rw [if_pos]
  · cases sign <;> rfl
  · change 2048 ≤ (e + (1023 : Nat) + (52 : Nat)).toNat + 1
    omega

/-!
## Comparisons
-/

theorem magnitude_pos (hm : 0 < m) (e : Int) : 0 < magnitude m e :=
  Nat.mul_pos hm (Nat.two_pow_pos _)

theorem mul_two_pow_lt {x k : Nat} (hm : m < 2 ^ 53) (hx : x ≤ k) : m * 2 ^ x < 2 ^ (53 + k) := by
  rw [Nat.pow_add]
  exact Nat.mul_lt_mul_of_lt_of_le hm (Nat.pow_le_pow_right Nat.two_pos hx) (Nat.two_pow_pos _)

theorem magnitude_lt {k : Nat} (hm : m < 2 ^ 53) (he : (e + 1074).toNat ≤ k) :
    magnitude m e < 2 ^ (53 + k) :=
  mul_two_pow_lt hm he

theorem le_magnitude {k : Nat} (hm : 2 ^ 52 ≤ m) (he : k ≤ (e + 1074).toNat) :
    2 ^ (52 + k) ≤ magnitude m e := by
  rw [Nat.pow_add]
  exact Nat.mul_le_mul hm (Nat.pow_le_pow_right Nat.two_pos he)

/-- Where the exponent is larger the mantissa is full, so that the number is larger. -/
theorem magnitude_lt_magnitude {m' : Nat} {e' : Int} (hm : m < 2 ^ 53) (hlow : -1074 ≤ e)
    (hm' : 2 ^ 52 ≤ m') (he : e < e') : magnitude m e < magnitude m' e' := by
  have hlt := magnitude_lt hm (Nat.le_refl (e + 1074).toNat)
  have hle := le_magnitude hm' (by omega : (e + 1074).toNat + 1 ≤ (e' + 1074).toNat)
  rw [← Nat.add_assoc, Nat.add_right_comm] at hle
  exact Nat.lt_of_lt_of_le hlt hle

theorem compare_magnitude {m' : Nat} {e' : Int} {h' : 0 < m'}
    (hu : Proper (.finite sign m e h)) (hv : Proper (.finite sign m' e' h')) :
    (compare e e').then (compare m m') = compare (magnitude m e) (magnitude m' e') := by
  rcases hu with ⟨hm, hlow, hfull⟩
  rcases hv with ⟨hm', hlow', hfull'⟩
  rcases lt_trichotomy e e' with he | rfl | he
  · rw [compare_lt_iff_lt.mpr he,
      compare_lt_iff_lt.mpr (magnitude_lt_magnitude hm hlow (hfull'.resolve_left (by omega)) he)]
    rfl
  · have hpos := Nat.two_pow_pos (e + 1074).toNat
    rw [compare_eq_iff_eq.mpr rfl]
    change compare m m' = compare (m * _) (m' * _)
    rcases lt_trichotomy m m' with hlt | rfl | hlt
    · rw [compare_lt_iff_lt.mpr hlt, compare_lt_iff_lt.mpr (Nat.mul_lt_mul_of_pos_right hlt hpos)]
    · rw [compare_eq_iff_eq.mpr rfl, compare_eq_iff_eq.mpr rfl]
    · rw [compare_gt_iff_gt.mpr hlt, compare_gt_iff_gt.mpr (Nat.mul_lt_mul_of_pos_right hlt hpos)]
  · rw [compare_gt_iff_gt.mpr he,
      compare_gt_iff_gt.mpr (magnitude_lt_magnitude hm' hlow' (hfull.resolve_left (by omega)) he)]
    rfl

theorem magnitude_lt_limit (hu : Proper (.finite sign m e h))
    (hrange : InRange (.finite sign m e h)) :
    magnitude m e < limit := by
  have he : e ≤ 971 := hrange
  unfold limit
  exact magnitude_lt hu.1 (by omega)

theorem limit_eq : limit = 2 ^ (52 + 2046) := by
  unfold limit
  exact congrArg (2 ^ ·) (rfl : 53 + 2045 = 52 + 2046)

theorem limit_pos : 0 < limit := by
  unfold limit
  have hlt := magnitude_lt (m := 0) (e := -1074) (k := 2045) (by decide) (by decide)
  exact Nat.lt_of_le_of_lt (Nat.zero_le _) hlt

section Compare

variable {a b : Int}

theorem some_lt_eq (h : a < b) : some .lt = some (compare a b) := by
  rw [compare_lt_iff_lt.mpr h]

theorem some_gt_eq (h : b < a) : some .gt = some (compare a b) := by
  rw [compare_gt_iff_gt.mpr h]

theorem some_eq_eq (h : a = b) : some .eq = some (compare a b) := by
  rw [compare_eq_iff_eq.mpr h]

theorem compare_natCast (m n : Nat) : compare (m : Int) n = compare m n := by
  rcases lt_trichotomy m n with h | rfl | h
  · rw [compare_lt_iff_lt.mpr h, compare_lt_iff_lt.mpr (Int.ofNat_lt.mpr h)]
  · rw [compare_eq_iff_eq.mpr rfl, compare_eq_iff_eq.mpr rfl]
  · rw [compare_gt_iff_gt.mpr h, compare_gt_iff_gt.mpr (Int.ofNat_lt.mpr h)]

theorem compare_neg (m n : Nat) : compare (-(m : Int)) (-(n : Int)) = (compare m n).swap := by
  rcases lt_trichotomy m n with h | rfl | h
  · rw [compare_lt_iff_lt.mpr h, compare_gt_iff_gt.mpr (by omega)]
    rfl
  · rw [compare_eq_iff_eq.mpr rfl, compare_eq_iff_eq.mpr rfl]
    rfl
  · rw [compare_gt_iff_gt.mpr h, compare_lt_iff_lt.mpr (by omega)]
    rfl

end Compare

theorem units_finite_lt (hu : Proper (.finite sign m e h)) (hrange : InRange (.finite sign m e h)) :
    -(limit : Int) < units (.finite sign m e h) ∧ units (.finite sign m e h) < limit := by
  have hlt := magnitude_lt_limit hu hrange
  cases sign with
  | negative =>
      change -(limit : Int) < -(magnitude m e : Int) ∧ -(magnitude m e : Int) < limit
      omega
  | positive =>
      change -(limit : Int) < (magnitude m e : Int) ∧ (magnitude m e : Int) < limit
      omega

theorem compare_eq (hu : Proper u) (hurange : InRange u) (hv : Proper v) (hvrange : InRange v)
    (hun : u ≠ .notANumber) (hvn : v ≠ .notANumber) :
    UnpackedFloat.compare u v = some (compare (units u) (units v)) := by
  have hlimit : 0 < (limit : Int) := Int.natCast_pos.mpr limit_pos
  -- Signs and kinds decide, unless both numbers are finite, not zero and of one sign.
  cases u with
  | notANumber =>
      exact absurd rfl hun
  | infinity s =>
      cases v with
      | notANumber =>
          exact absurd rfl hvn
      | infinity t =>
          cases s <;> cases t
          · exact some_eq_eq rfl
          · exact some_lt_eq (by change -(limit : Int) < limit; omega)
          · exact some_gt_eq (by change -(limit : Int) < limit; omega)
          · exact some_eq_eq rfl
      | zero t =>
          cases s
          · exact some_lt_eq (by change -(limit : Int) < 0; omega)
          · exact some_gt_eq hlimit
      | finite t n f hn =>
          have hbounds := units_finite_lt hv hvrange
          cases s
          · exact some_lt_eq hbounds.1
          · exact some_gt_eq hbounds.2
  | zero s =>
      cases v with
      | notANumber =>
          exact absurd rfl hvn
      | infinity t =>
          cases t
          · exact some_gt_eq (by change -(limit : Int) < 0; omega)
          · exact some_lt_eq hlimit
      | zero t =>
          exact some_eq_eq rfl
      | finite t n f hn =>
          have hpos := magnitude_pos hn f
          cases t
          · exact some_gt_eq (by change -(magnitude n f : Int) < 0; omega)
          · exact some_lt_eq (by change 0 < (magnitude n f : Int); omega)
  | finite s n f hn =>
      have hpos := magnitude_pos hn f
      cases v with
      | notANumber =>
          exact absurd rfl hvn
      | infinity t =>
          have hbounds := units_finite_lt hu hurange
          cases t
          · cases s <;> exact some_gt_eq hbounds.1
          · cases s <;> exact some_lt_eq hbounds.2
      | zero t =>
          cases s
          · exact some_lt_eq (by change -(magnitude n f : Int) < 0; omega)
          · exact some_gt_eq (by change 0 < (magnitude n f : Int); omega)
      | finite t n' f' hn' =>
          have hpos' := magnitude_pos hn' f'
          cases s <;> cases t
          · change some ((compare f f').then (compare n n')).swap = some (compare (-_) (-_))
            rw [compare_magnitude hu hv, compare_neg]
          · exact some_lt_eq (by change -(magnitude n f : Int) < (magnitude n' f' : Int); omega)
          · exact some_gt_eq (by change -(magnitude n' f' : Int) < (magnitude n f : Int); omega)
          · change some ((compare f f').then (compare n n')) = some (compare _ _)
            rw [compare_magnitude hu hv]
            exact congrArg some (compare_natCast _ _).symm

theorem le_iff (hu : Proper u) (hurange : InRange u) (hv : Proper v) (hvrange : InRange v)
    (hun : u ≠ .notANumber) (hvn : v ≠ .notANumber) :
    UnpackedFloat.le u v = true ↔ units u ≤ units v := by
  unfold UnpackedFloat.le
  rw [compare_eq hu hurange hv hvrange hun hvn]
  change (compare (units u) (units v)).isLE = true ↔ _
  rw [Ordering.isLE_iff_ne_gt, compare_gt_iff_gt, not_lt]

theorem lt_iff (hu : Proper u) (hurange : InRange u) (hv : Proper v) (hvrange : InRange v)
    (hun : u ≠ .notANumber) (hvn : v ≠ .notANumber) :
    UnpackedFloat.lt u v = true ↔ units u < units v := by
  unfold UnpackedFloat.lt
  rw [compare_eq hu hurange hv hvrange hun hvn, ← compare_lt_iff_lt]
  simp

end Double
end MixedState
