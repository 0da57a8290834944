import MixedState.Proofs.Double.Arithmetic
import MixedState.Scalar

/-!
# Operations on doubles

Comparisons of doubles are those of their numbers of units, sums with numbers that are not
negative do not fall, products are the exact ones, rounded, and below a positive double there
is one of fewer units.
-/

namespace MixedState
namespace Double

open Float.Model (UnpackedFloat Format)
open Float.Model.UnpackedFloat

variable {x y : Float} {j k : Int}

structure HasUnits (x : Float) (k : Int) : Prop where
  isNumber : x.toModel.unpack ≠ .notANumber
  units_eq : units x.toModel.unpack = k

theorem proper_toModel (x : Float) : Proper x.toModel.unpack ∧ InRange x.toModel.unpack :=
  proper_unpack _

theorem le_eq (x y : Float) : Scalar.le x y = x.toModel.unpack.le y.toModel.unpack := by
  change decide ((decide ((x.toModel.unpack.le y.toModel.unpack) = true)) = true) = _
  simp

theorem lt_eq (x y : Float) : Scalar.lt x y = x.toModel.unpack.lt y.toModel.unpack := by
  change decide ((decide ((x.toModel.unpack.lt y.toModel.unpack) = true)) = true) = _
  simp

theorem HasUnits.le_iff (hx : HasUnits x j) (hy : HasUnits y k) : Scalar.le x y = true ↔ j ≤ k := by
  rw [le_eq, ← hx.units_eq, ← hy.units_eq]
  exact Double.le_iff (proper_toModel x).1 (proper_toModel x).2 (proper_toModel y).1
    (proper_toModel y).2 hx.isNumber hy.isNumber

theorem HasUnits.lt_iff (hx : HasUnits x j) (hy : HasUnits y k) : Scalar.lt x y = true ↔ j < k := by
  rw [lt_eq, ← hx.units_eq, ← hy.units_eq]
  exact Double.lt_iff (proper_toModel x).1 (proper_toModel x).2 (proper_toModel y).1
    (proper_toModel y).2 hx.isNumber hy.isNumber

theorem isNumber_of_compare {u v : UnpackedFloat}
    (h : u.le v = true ∨ u.lt v = true) : u ≠ .notANumber ∧ v ≠ .notANumber := by
  constructor
  · rintro rfl
    rcases h with h | h <;> cases h
  · rintro rfl
    cases u <;> rcases h with h | h <;> cases h

theorem exists_of_le (h : Scalar.le x y = true) :
    exists j k, HasUnits x j ∧ HasUnits y k ∧ j ≤ k := by
  rcases isNumber_of_compare (Or.inl (le_eq x y ▸ h)) with ⟨hx, hy⟩
  have hxunits : HasUnits x _ := ⟨hx, rfl⟩
  have hyunits : HasUnits y _ := ⟨hy, rfl⟩
  exact ⟨_, _, hxunits, hyunits, (hxunits.le_iff hyunits).mp h⟩

theorem exists_of_lt (h : Scalar.lt x y = true) :
    exists j k, HasUnits x j ∧ HasUnits y k ∧ j < k := by
  rcases isNumber_of_compare (Or.inr (lt_eq x y ▸ h)) with ⟨hx, hy⟩
  have hxunits : HasUnits x _ := ⟨hx, rfl⟩
  have hyunits : HasUnits y _ := ⟨hy, rfl⟩
  exact ⟨_, _, hxunits, hyunits, (hxunits.lt_iff hyunits).mp h⟩

theorem hasUnits_zero : HasUnits 0 0 :=
  ⟨nofun, rfl⟩

theorem hasUnits_of_counts {u : UnpackedFloat} (h : Counts u k)
    (hx : x.toModel.unpack = unpack .binary64 (pack .binary64 u)) : HasUnits x (clamped k) := by
  have hpacked := (counts_unpack_pack h).2
  rw [← hx] at hpacked
  exact ⟨hpacked.isNumber, hpacked.units_eq⟩

/-!
## Sums
-/

section Add

variable {u v : UnpackedFloat}

theorem unpack_pack_infinity (s : Sign) :
    unpack .binary64 (pack .binary64 (.infinity s)) = .infinity s :=
  unpack_pack trivial trivial

theorem infinity_positive {s : Sign} (hnonneg : 0 ≤ units (.infinity s)) : s = .positive := by
  have hlimit := limit_pos
  cases s with
  | negative =>
      change 0 ≤ -(limit : Int) at hnonneg
      omega
  | positive =>
      rfl

theorem add_of_infinity {s : Sign} (hv : v ≠ .notANumber) (hnonneg : 0 ≤ units v)
    (hsum : unpack .binary64 (pack .binary64 (add .binary64 (.infinity s) v)) ≠ .notANumber) :
    unpack .binary64 (pack .binary64 (add .binary64 (.infinity s) v)) = .infinity s := by
  cases v with
  | notANumber =>
      exact absurd rfl hv
  | infinity t =>
      obtain rfl := infinity_positive hnonneg
      cases s with
      | negative =>
          exact absurd rfl hsum
      | positive =>
          exact unpack_pack_infinity _
  | zero t | finite t m e h =>
      exact unpack_pack_infinity _

theorem units_zero_add (s : Sign) (hv : Proper v) (hvrange : InRange v) (hvn : v ≠ .notANumber) :
    units (unpack .binary64 (pack .binary64 (add .binary64 (.zero s) v))) = units v := by
  cases v with
  | notANumber =>
      exact absurd rfl hvn
  | zero t =>
      cases s <;> cases t <;> rfl
  | infinity t | finite t m e h =>
      exact congrArg units (unpack_pack hv hvrange)

theorem units_le_finite_add {s : Sign} {m : Nat} {e : Int} {h : 0 < m}
    (hu : Proper (.finite s m e h)) (hurange : InRange (.finite s m e h)) (hv : Proper v)
    (hvn : v ≠ .notANumber) (hnonneg : 0 ≤ units v) :
    units (.finite s m e h) ≤
      units (unpack .binary64 (pack .binary64 (add .binary64 (.finite s m e h) v))) := by
  cases v with
  | notANumber =>
      exact absurd rfl hvn
  | infinity t =>
      obtain rfl := infinity_positive hnonneg
      change _ ≤ units (unpack .binary64 (pack .binary64 (.infinity .positive)))
      rw [unpack_pack_infinity]
      exact (units_bounds hu hurange).2
  | zero t =>
      change _ ≤ units (unpack .binary64 (pack .binary64 (.finite s m e h)))
      rw [unpack_pack hu hurange]
  | finite t m' e' h' =>
      have hcounts := (counts_unpack_pack (counts_add hu hv)).2
      have hsum := le_add_of_nonneg_right (a := units (.finite s m e h)) hnonneg
      have hmono := clamped_mono (roundedInt_mono hsum)
      rw [roundedInt_units hu, clamped_units hu hurange] at hmono
      rw [hcounts.units_eq]
      exact hmono

theorem units_le_add (hu : Proper u) (hurange : InRange u) (hv : Proper v) (hvrange : InRange v)
    (hvn : v ≠ .notANumber) (hnonneg : 0 ≤ units v)
    (hsum : unpack .binary64 (pack .binary64 (add .binary64 u v)) ≠ .notANumber) :
    u ≠ .notANumber ∧
      units u ≤ units (unpack .binary64 (pack .binary64 (add .binary64 u v))) := by
  cases u with
  | notANumber =>
      have hadd : add .binary64 .notANumber v = .notANumber := by cases v <;> rfl
      rw [hadd] at hsum
      exact absurd rfl hsum
  | infinity s =>
      rw [add_of_infinity hvn hnonneg hsum]
      exact ⟨nofun, le_refl _⟩
  | zero s =>
      rw [units_zero_add s hv hvrange hvn]
      exact ⟨nofun, hnonneg⟩
  | finite s m e h =>
      exact ⟨nofun, units_le_finite_add hu hurange hv hvn hnonneg⟩

theorem add_zero_eq (hu : Proper u) (hurange : InRange u) (hun : u ≠ .notANumber) (t : Sign) :
    unpack .binary64 (pack .binary64 (add .binary64 u (.zero t))) ≠ .notANumber ∧
      units (unpack .binary64 (pack .binary64 (add .binary64 u (.zero t)))) = units u := by
  cases u with
  | notANumber =>
      exact absurd rfl hun
  | infinity s =>
      change unpack .binary64 (pack .binary64 (.infinity s)) ≠ _ ∧
        units (unpack .binary64 (pack .binary64 (.infinity s))) = _
      rw [unpack_pack_infinity]
      exact ⟨nofun, rfl⟩
  | zero s =>
      cases s <;> cases t <;> exact ⟨nofun, rfl⟩
  | finite s m e h =>
      change unpack .binary64 (pack .binary64 (.finite s m e h)) ≠ _ ∧
        units (unpack .binary64 (pack .binary64 (.finite s m e h))) = _
      rw [unpack_pack hu hurange]
      exact ⟨nofun, rfl⟩

theorem eq_zero_of_units (hu : Proper u) (hun : u ≠ .notANumber) (hzero : units u = 0) :
    exists t, u = .zero t := by
  have hlimit := limit_pos
  cases u with
  | notANumber =>
      exact absurd rfl hun
  | infinity s =>
      cases s with
      | negative =>
          change -(limit : Int) = 0 at hzero
          omega
      | positive =>
          change (limit : Int) = 0 at hzero
          omega
  | zero t =>
      exact ⟨t, rfl⟩
  | finite s m e h =>
      have hpos := magnitude_pos h e
      cases s with
      | negative =>
          change -(magnitude m e : Int) = 0 at hzero
          omega
      | positive =>
          change (magnitude m e : Int) = 0 at hzero
          omega

end Add

theorem unpack_add (x y : Float) : (x + y).toModel.unpack =
    unpack .binary64 (pack .binary64 (add .binary64 x.toModel.unpack y.toModel.unpack)) :=
  rfl

theorem exists_of_add (hy : HasUnits y k) (hnonneg : 0 ≤ k) {l : Int} (h : HasUnits (x + y) l) :
    exists j, HasUnits x j ∧ j ≤ l := by
  have hsum := units_le_add (proper_toModel x).1 (proper_toModel x).2 (proper_toModel y).1
    (proper_toModel y).2 hy.isNumber (hy.units_eq ▸ hnonneg) h.isNumber
  refine ⟨_, ⟨hsum.1, rfl⟩, ?_⟩
  rw [← h.units_eq]
  exact hsum.2

theorem HasUnits.add_null (hx : HasUnits x j) (hy : HasUnits y 0) : HasUnits (x + y) j := by
  rcases eq_zero_of_units (proper_toModel y).1 hy.isNumber hy.units_eq with ⟨t, ht⟩
  have hsum := add_zero_eq (proper_toModel x).1 (proper_toModel x).2 hx.isNumber t
  rw [← ht, ← unpack_add, hx.units_eq] at hsum
  exact ⟨hsum.1, hsum.2⟩

/-!
## Products
-/

theorem HasUnits.zero_or_positive {n : Nat} (hx : HasUnits x n) (hn : n < limit) :
    (exists s, x.toModel.unpack = .zero s ∧ n = 0) ∨
      exists m e h, x.toModel.unpack = .finite .positive m e h ∧ n = magnitude m e := by
  rcases hx with ⟨hnumber, hunits⟩
  cases hu : x.toModel.unpack with
  | notANumber =>
      exact absurd hu hnumber
  | infinity s =>
      rw [hu] at hunits
      cases s with
      | negative =>
          change -(limit : Int) = n at hunits
          omega
      | positive =>
          change (limit : Int) = n at hunits
          omega
  | zero s =>
      rw [hu] at hunits
      change (0 : Int) = n at hunits
      exact Or.inl ⟨s, rfl, by omega⟩
  | finite s m e h =>
      rw [hu] at hunits
      have hpos := magnitude_pos h e
      cases s with
      | negative =>
          change -(magnitude m e : Int) = n at hunits
          omega
      | positive =>
          change (magnitude m e : Int) = n at hunits
          exact Or.inr ⟨m, e, h, rfl, by omega⟩

theorem counts_zero (s : Sign) : Counts (.zero s) (rounded 1074 0 : Nat) := by
  have hzero := rounded_of_fits 1074 fits_zero
  rw [Nat.zero_mul] at hzero
  rw [hzero]
  exact ⟨trivial, nofun, rfl⟩

theorem HasUnits.mul {m n : Nat} (hx : HasUnits x m) (hm : m < limit) (hy : HasUnits y n)
    (hn : n < limit) : HasUnits (x * y) (clamped (rounded 1074 (m * n) : Nat)) := by
  have hproduct : (x * y).toModel.unpack = unpack .binary64 (pack .binary64
    (UnpackedFloat.mul .binary64 x.toModel.unpack y.toModel.unpack)) := rfl
  have hxproper := (proper_toModel x).1
  have hyproper := (proper_toModel y).1
  apply hasUnits_of_counts _ hproduct
  rcases hx.zero_or_positive hm with ⟨s, hxu, rfl⟩ | ⟨mx, ex, hmx, hxu, rfl⟩
  · rw [hxu, Nat.zero_mul]
    rcases hy.zero_or_positive hn with ⟨t, hyu, _⟩ | ⟨my, ey, hmy, hyu, _⟩
    · rw [hyu]
      exact counts_zero _
    · rw [hyu]
      exact counts_zero _
  · rw [hxu] at hxproper ⊢
    rcases hy.zero_or_positive hn with ⟨t, hyu, rfl⟩ | ⟨my, ey, hmy, hyu, rfl⟩
    · rw [hyu, Nat.mul_zero]
      exact counts_zero _
    · rw [hyu] at hyproper ⊢
      exact counts_mul hxproper hyproper

/-!
## The next smaller double
-/

theorem toNat_unpackMantissa (b : BitVec Format.binary64.numBits) :
    (unpackMantissa b).toNat = b.toNat % 2 ^ 52 := by
  rw [unpackMantissa_def, BitVec.extractLsb'_toNat]
  rfl

theorem toNat_unpackExponent (b : BitVec Format.binary64.numBits) :
    (unpackExponent b).toNat = b.toNat / 2 ^ 52 % 2 ^ 11 := by
  rw [unpackExponent_def, BitVec.extractLsb'_toNat, Nat.shiftRight_eq_div_pow]

theorem toNat_unpackSign (b : BitVec Format.binary64.numBits) :
    (unpackSign b).toNat = b.toNat / 2 ^ 63 % 2 := by
  rw [unpackSign_def, BitVec.extractLsb'_toNat, Nat.shiftRight_eq_div_pow]
  rfl

theorem sign_of_bits {b : BitVec Format.binary64.numBits} (hb : b.toNat < 2 ^ 63) :
    Sign.ofBitVec (unpackSign b) = .positive := by
  have hzero : unpackSign b = 0#1 := by
    apply BitVec.eq_of_toNat_eq
    rw [toNat_unpackSign, Nat.div_eq_of_lt hb]
    rfl
  rw [hzero]
  rfl

/-- The units of the double with given bits, for a positive one. -/
def bitUnits (bits : Nat) : Nat :=
  if bits / 2 ^ 52 = 0 then bits % 2 ^ 52
  else (2 ^ 52 + bits % 2 ^ 52) * 2 ^ (bits / 2 ^ 52 - 1)

theorem bitUnits_pred_lt {bits : Nat} (hpos : 0 < bits) : bitUnits (bits - 1) < bitUnits bits := by
  unfold bitUnits
  by_cases hrest : bits % 2 ^ 52 = 0
  · have hquotient : (bits - 1) / 2 ^ 52 = bits / 2 ^ 52 - 1 := by omega
    have hlast : (bits - 1) % 2 ^ 52 = 2 ^ 52 - 1 := by omega
    rw [hquotient, hlast, hrest, if_neg (by omega : ¬bits / 2 ^ 52 = 0)]
    rcases Nat.exists_eq_add_of_lt (by omega : 0 < bits / 2 ^ 52) with ⟨k, hk⟩
    rw [hk, Nat.zero_add, Nat.add_sub_cancel]
    cases k with
    | zero =>
        decide
    | succ k =>
        have hpow := Nat.two_pow_pos k
        rw [if_neg (Nat.succ_ne_zero k), Nat.add_sub_cancel, Nat.pow_succ]
        omega
  · have hquotient : (bits - 1) / 2 ^ 52 = bits / 2 ^ 52 := by omega
    have hlast : (bits - 1) % 2 ^ 52 = bits % 2 ^ 52 - 1 := by omega
    rw [hquotient, hlast]
    split
    · omega
    · exact Nat.mul_lt_mul_of_pos_right (by omega) (Nat.two_pow_pos _)

theorem units_of_bits {b : BitVec Format.binary64.numBits} (hb : b.toNat < 2047 * 2 ^ 52) :
    unpack .binary64 b ≠ .notANumber ∧ units (unpack .binary64 b) = bitUnits b.toNat := by
  have hsign := sign_of_bits (by omega : b.toNat < 2 ^ 63)
  have hexponent : (unpackExponent b).toNat = b.toNat / 2 ^ 52 := by
    rw [toNat_unpackExponent]
    omega
  have hall : unpackExponent b ≠ -1#11 := by
    intro hsame
    rw [hsame] at hexponent
    change 2047 = _ at hexponent
    omega
  have hbias : (Format.binary64.exponentBias : Int) = 1023 := rfl
  unfold bitUnits unpack
  dsimp only
  rw [hsign, if_neg hall]
  by_cases hzero : b.toNat / 2 ^ 52 = 0
  · have hnone : unpackExponent b = 0#11 :=
      BitVec.eq_of_toNat_eq (hexponent.trans hzero)
    rw [if_pos hnone, if_pos hzero, ← toNat_unpackMantissa]
    split
    · next hmantissa =>
        rw [hmantissa]
        exact ⟨nofun, rfl⟩
    · refine ⟨nofun, ?_⟩
      change ((_ * 2 ^ (_ + 1 + 1074 : Int).toNat : Nat) : Int) = _
      rw [hnone, hbias]
      change ((_ * 2 ^ 0 : Nat) : Int) = _
      rw [Nat.pow_zero, Nat.mul_one]
  · have hsome : unpackExponent b ≠ 0#11 := by
      intro hsame
      rw [hsame] at hexponent
      exact hzero hexponent.symm
    rw [if_neg hsome, if_neg hzero]
    refine ⟨nofun, ?_⟩
    change ((_ * 2 ^ (_ + 1074 : Int).toNat : Nat) : Int) = _
    rw [toNat_one_append, toNat_unpackMantissa, hexponent, hbias]
    congr 3
    omega

theorem sign_of_high_bits {b : BitVec Format.binary64.numBits} (hb : 2 ^ 63 ≤ b.toNat) :
    Sign.ofBitVec (unpackSign b) = .negative := by
  have hone : unpackSign b = 1#1 := by
    have hlt : b.toNat < 2 ^ 64 := b.isLt
    apply BitVec.eq_of_toNat_eq
    rw [toNat_unpackSign]
    change b.toNat / 2 ^ 63 % 2 = 1
    omega
  rw [hone]
  rfl

theorem units_nonpos_of_bits {b : BitVec Format.binary64.numBits} (hb : 2 ^ 63 ≤ b.toNat) :
    units (unpack .binary64 b) ≤ 0 := by
  unfold unpack
  dsimp only
  rw [sign_of_high_bits hb]
  split
  · split
    · change -(limit : Int) ≤ 0
      omega
    · exact le_refl 0
  · split
    · split
      · exact le_refl 0
      · change -((_ : Nat) : Int) ≤ 0
        omega
    · change -((_ : Nat) : Int) ≤ 0
      omega

theorem units_of_full_exponent {b : BitVec Format.binary64.numBits} (hlow : 2047 * 2 ^ 52 ≤ b.toNat)
    (hhigh : b.toNat < 2 ^ 63) :
    units (unpack .binary64 b) = limit ∨ units (unpack .binary64 b) = 0 := by
  have hall : unpackExponent b = -1#11 := by
    apply BitVec.eq_of_toNat_eq
    rw [toNat_unpackExponent]
    change b.toNat / 2 ^ 52 % 2 ^ 11 = 2047
    omega
  unfold unpack
  dsimp only
  rw [if_pos hall, sign_of_bits hhigh]
  split
  · exact Or.inl rfl
  · exact Or.inr rfl

theorem bits_of_units {b : BitVec Format.binary64.numBits} {n : Nat}
    (hunits : units (unpack .binary64 b) = n) (hpos : 0 < n) (hn : n < limit) :
    0 < b.toNat ∧ b.toNat < 2047 * 2 ^ 52 := by
  constructor
  · apply Nat.pos_of_ne_zero
    intro hzero
    have hnone := (units_of_bits (by omega : b.toNat < 2047 * 2 ^ 52)).2
    rw [hunits, hzero] at hnone
    change (n : Int) = (0 : Nat) at hnone
    omega
  · apply not_le.mp
    intro hlow
    rcases Nat.lt_or_ge b.toNat (2 ^ 63) with hhigh | hhigh
    · rcases units_of_full_exponent hlow hhigh with hfull | hfull <;> omega
    · have hnonpos := units_nonpos_of_bits hhigh
      omega

theorem HasUnits.below {n : Nat} (hx : HasUnits x n) (hpos : 0 < n) (hn : n < limit) :
    exists m : Nat, m < n ∧ HasUnits (Scalar.below x) m := by
  let bits := x.toModel.toBits
  rcases bits_of_units (b := bits.toBitVec) hx.units_eq hpos hn with ⟨hlow, htop⟩
  have hpred : (bits - 1).toBitVec.toNat = bits.toBitVec.toNat - 1 := by
    have hle : 1 ≤ bits := UInt64.le_iff_toNat_le.mpr hlow
    exact UInt64.toNat_sub_of_le bits 1 hle
  have hbelow : (Scalar.below x).toModel.unpack = unpack .binary64 (pack .binary64
    (unpack .binary64 (bits - 1).toBitVec)) := rfl
  rw [unpack_pack (proper_unpack _).1 (proper_unpack _).2] at hbelow
  have hunits : (n : Int) = bitUnits bits.toBitVec.toNat :=
    hx.units_eq.symm.trans (units_of_bits htop).2
  have hunits' := units_of_bits (b := (bits - 1).toBitVec) (by rw [hpred]; omega)
  rw [← hbelow, hpred] at hunits'
  have hless := bitUnits_pred_lt hlow
  exact ⟨_, by omega, hunits'.1, hunits'.2⟩

end Double
end MixedState
