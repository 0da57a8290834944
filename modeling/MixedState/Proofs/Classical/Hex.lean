import Mathlib.Data.List.Forall2
import Mathlib.Data.Nat.Digits.Defs
import MixedState.Classical.Hex
import MixedState.Proofs.Basis.Bits

/-!
# Bit lists and their hexadecimal texts as numbers

A bit list has the number that its bits spell.  Comparing lists of any lengths compares
their numbers, and writing a list in hexadecimal digits gives the label of its number.
-/

namespace MixedState
namespace Hex

open MixedState.Basis

/-!
## Numbers of bit lists
-/

@[simp] theorem value_nil : value [] = 0 :=
  rfl

theorem value_cons (b : Bool) (bits : List Bool) : value (b :: bits) = b.toNat + 2 * value bits :=
  rfl

theorem testBit_value (bits : List Bool) (i : Nat) : (value bits).testBit i = bitAt bits i := by
  induction bits generalizing i with
  | nil =>
      exact Nat.zero_testBit i
  | cons b rest ih =>
      cases i with
      | zero =>
          exact testBit_zero_bit b (value rest)
      | succ i =>
          rw [Nat.testBit_succ, value_cons, bit_div_two]
          exact ih i

theorem value_lt (bits : List Bool) : value bits < 2 ^ bits.length := by
  induction bits with
  | nil =>
      exact Nat.one_pos
  | cons b rest ih =>
      have hb := Bool.toNat_lt b
      rw [value_cons, List.length_cons, Nat.pow_succ]
      omega

theorem value_append (front back : List Bool) :
    value (front ++ back) = value front + 2 ^ front.length * value back := by
  induction front with
  | nil =>
      simp
  | cons b rest ih =>
      rw [List.cons_append, value_cons, value_cons, ih, List.length_cons, Nat.pow_succ]
      ring

theorem value_eq_iff {bits : List Bool} {n : Nat} :
    value bits = n ↔ forall i, bitAt bits i = n.testBit i := by
  constructor
  · rintro rfl i
    exact (testBit_value bits i).symm
  · intro h
    apply Nat.eq_of_testBit_eq
    intro i
    rw [testBit_value, h i]

/-!
## Comparison
-/

theorem compareBits_go (a b : List Bool) (n : Nat) :
    compareBits.go a b n = compare (value a % 2 ^ n) (value b % 2 ^ n) := by
  induction n with
  | zero =>
      rw [Nat.pow_zero, Nat.mod_one, Nat.mod_one]
      rfl
  | succ n ih =>
      have ha : value a % 2 ^ n < 2 ^ n := Nat.mod_lt _ (Nat.two_pow_pos n)
      have hb : value b % 2 ^ n < 2 ^ n := Nat.mod_lt _ (Nat.two_pow_pos n)
      rw [compareBits.go, ih, Nat.mod_pow_succ, Nat.mod_pow_succ, ← Nat.toNat_testBit,
        ← Nat.toNat_testBit, testBit_value, testBit_value]
      generalize value a % 2 ^ n = x at ha
      generalize value b % 2 ^ n = y at hb
      generalize 2 ^ n = top at ha hb
      cases bitAt a n <;> cases bitAt b n
      · rfl
      · exact (Nat.compare_eq_lt.mpr (by simp only [Bool.toNat_false, Bool.toNat_true]; omega)).symm
      · exact (Nat.compare_eq_gt.mpr (by simp only [Bool.toNat_false, Bool.toNat_true]; omega)).symm
      · simp only [Bool.toNat_true, Nat.compare_eq_ite_lt, Nat.add_lt_add_iff_right]

theorem compareBits_eq (a b : List Bool) : compareBits a b = compare (value a) (value b) := by
  have ha := Nat.lt_of_lt_of_le (value_lt a)
    (Nat.pow_le_pow_right Nat.two_pos (Nat.le_max_left a.length b.length))
  have hb := Nat.lt_of_lt_of_le (value_lt b)
    (Nat.pow_le_pow_right Nat.two_pos (Nat.le_max_right a.length b.length))
  unfold compareBits
  rw [compareBits_go, Nat.mod_eq_of_lt ha, Nat.mod_eq_of_lt hb]

/-!
## Writing
-/

theorem dropWhile_digitChar {n : Nat} (hn : n < 16) :
    ([Nat.digitChar n].dropWhile fun c => c = '0') =
      if n = 0 then [] else Nat.toDigits 16 n := by
  rw [List.dropWhile_cons, List.dropWhile_nil, Nat.toDigits_of_lt_base hn]
  simp only [Nat.digitChar_eq_zero, decide_eq_true_eq]

/-- Without its leading zeros the text of a list has the digits of its number; the
induction takes off four bits at a time. -/
theorem dropWhile_digits (bits : List Bool) :
    ((digits bits).reverse.dropWhile fun c => c = '0') =
      if value bits = 0 then [] else Nat.toDigits 16 (value bits) := by
  fun_induction digits bits with
  | case1 =>
      rfl
  | case2 a =>
      exact dropWhile_digitChar (Nat.lt_trans (value_lt [a]) (by decide : 2 ^ 1 < 16))
  | case3 a b =>
      exact dropWhile_digitChar (Nat.lt_trans (value_lt [a, b]) (by decide : 2 ^ 2 < 16))
  | case4 a b c =>
      exact dropWhile_digitChar (Nat.lt_trans (value_lt [a, b, c]) (by decide : 2 ^ 3 < 16))
  | case5 a b c d rest ih =>
      have hlow : value [a, b, c, d] < 16 := value_lt [a, b, c, d]
      have hvalue : value (a :: b :: c :: d :: rest) = value [a, b, c, d] + 16 * value rest :=
        value_append [a, b, c, d] rest
      rw [List.reverse_cons, List.dropWhile_append, ih, dropWhile_digitChar hlow, hvalue]
      by_cases hrest : value rest = 0
      · simp [hrest]
      · have hpos := Nat.pos_of_ne_zero hrest
        have hfilled : ¬(Nat.toDigits 16 (value rest)).isEmpty = true := by simp
        rw [if_neg hrest, if_neg hfilled, if_neg (by omega), Nat.add_comm,
          ← Nat.toDigits_append_toDigits (by decide) hpos hlow, Nat.toDigits_of_lt_base hlow]

theorem ofBits_eq_label (bits : List Bool) : ofBits bits = label (value bits) := by
  unfold ofBits label
  rw [dropWhile_digits]
  by_cases hzero : value bits = 0
  · rw [if_pos hzero, hzero, Nat.toDigits_zero]
    rfl
  · rw [if_neg hzero]
    split
    · next hnil =>
        exact absurd hnil Nat.toDigits_ne_nil
    · rfl

/-!
## Reading
-/

def lowerDigits : List Char :=
  ['0', '1', '2', '3', '4', '5', '6', '7', '8', '9', 'a', 'b', 'c', 'd', 'e', 'f']

def upperDigits : List Char :=
  ['0', '1', '2', '3', '4', '5', '6', '7', '8', '9', 'A', 'B', 'C', 'D', 'E', 'F']

def IsDigit (c : Char) (d : Nat) : Prop :=
  lowerDigits[d]? = some c ∨ upperDigits[d]? = some c

instance (c : Char) (d : Nat) : Decidable (IsDigit c d) :=
  inferInstanceAs (Decidable (_ ∨ _))

/-- The text is at least one hexadecimal digit behind an optional `0x` or `0X`, and its
digits spell the number, the highest digit first. -/
def Denotes (text : String) (n : Nat) : Prop :=
  exists lead cs ds, lead ∈ [[], ['0', 'x'], ['0', 'X']] ∧ text.toList = lead ++ cs ∧ cs ≠ [] ∧
    List.Forall₂ IsDigit cs ds ∧ n = Nat.ofDigits 16 ds.reverse

theorem lt_of_isDigit {c : Char} {d : Nat} (h : IsDigit c d) : d < 16 := by
  rcases h with h | h
  · exact (List.getElem?_eq_some_iff.mp h).1
  · exact (List.getElem?_eq_some_iff.mp h).1

theorem lt_of_hexDigit? {c : Char} {d : Nat} (h : Text.hexDigit? c = some d) : c.toNat < 128 := by
  unfold Text.hexDigit? at h
  split at h
  · next hrange =>
      exact Nat.lt_of_le_of_lt hrange.2 (by decide)
  · split at h
    · next hrange =>
        exact Nat.lt_of_le_of_lt hrange.2 (by decide)
    · split at h
      · next hrange =>
          exact Nat.lt_of_le_of_lt hrange.2 (by decide)
      · cases h

theorem hexDigit?_eq_some_iff {c : Char} {d : Nat} :
    Text.hexDigit? c = some d ↔ IsDigit c d := by
  have hread : forall n, n < 128 -> forall d, d ∈ Text.hexDigit? (Char.ofNat n) ->
      IsDigit (Char.ofNat n) d := by
    decide
  have hlower : forall d, d < 16 -> lowerDigits[d]?.bind Text.hexDigit? = some d := by
    decide
  have hupper : forall d, d < 16 -> upperDigits[d]?.bind Text.hexDigit? = some d := by
    decide
  constructor
  · intro h
    rw [← Char.ofNat_toNat c] at h ⊢
    exact hread c.toNat (by rw [Char.ofNat_toNat] at h; exact lt_of_hexDigit? h) d h
  · intro h
    have hd := lt_of_isDigit h
    rcases h with h | h
    · have hdigit := hlower d hd
      rw [h] at hdigit
      exact hdigit
    · have hdigit := hupper d hd
      rw [h] at hdigit
      exact hdigit

theorem mapM_hexDigit?_eq_some_iff {cs : List Char} {ds : List Nat} :
    cs.mapM Text.hexDigit? = some ds ↔ List.Forall₂ IsDigit cs ds := by
  induction cs generalizing ds with
  | nil =>
      rw [List.forall₂_nil_left_iff]
      constructor
      · intro h
        cases h
        rfl
      · rintro rfl
        rfl
  | cons c rest ih =>
      rw [List.mapM_cons, List.forall₂_cons_left_iff]
      constructor
      · intro h
        rcases Option.bind_eq_some_iff.mp h with ⟨d, hd, h⟩
        rcases Option.bind_eq_some_iff.mp h with ⟨others, hothers, h⟩
        cases h
        exact ⟨d, others, hexDigit?_eq_some_iff.mp hd, ih.mp hothers, rfl⟩
      · rintro ⟨d, others, hd, hothers, rfl⟩
        rw [hexDigit?_eq_some_iff.mpr hd, ih.mpr hothers]
        rfl

theorem value_nibble {d : Nat} (hd : d < 16) : value (nibble d) = d := by
  have hall : forall d, d < 16 -> value (nibble d) = d := by decide
  exact hall d hd

theorem value_flatMap_nibble {ds : List Nat} (hds : forall d, d ∈ ds -> d < 16) :
    value (ds.flatMap nibble) = Nat.ofDigits 16 ds := by
  induction ds with
  | nil =>
      rfl
  | cons d rest ih =>
      rcases List.forall_mem_cons.mp hds with ⟨hd, hrest⟩
      rw [List.flatMap_cons, value_append, value_nibble hd, ih hrest, Nat.ofDigits_cons]
      rfl

theorem exists_lead (cs : List Char) :
    exists lead, lead ∈ [[], ['0', 'x'], ['0', 'X']] ∧ cs = lead ++ body cs := by
  unfold body
  split
  · exact ⟨['0', 'x'], by decide, rfl⟩
  · exact ⟨['0', 'X'], by decide, rfl⟩
  · exact ⟨[], by decide, rfl⟩

theorem body_of_digits {cs : List Char} {ds : List Nat} (h : List.Forall₂ IsDigit cs ds) :
    body cs = cs := by
  have hx : forall d, ¬IsDigit 'x' d ∧ ¬IsDigit 'X' d := by
    intro d
    rw [← hexDigit?_eq_some_iff, ← hexDigit?_eq_some_iff]
    exact ⟨nofun, nofun⟩
  unfold body
  split
  · rcases List.forall₂_cons_left_iff.mp h with ⟨_, _, _, h, _⟩
    rcases List.forall₂_cons_left_iff.mp h with ⟨d, _, hd, _, _⟩
    exact absurd hd (hx d).1
  · rcases List.forall₂_cons_left_iff.mp h with ⟨_, _, _, h, _⟩
    rcases List.forall₂_cons_left_iff.mp h with ⟨d, _, hd, _, _⟩
    exact absurd hd (hx d).2
  · rfl

theorem body_append {lead cs : List Char} {ds : List Nat}
    (hlead : lead ∈ [[], ['0', 'x'], ['0', 'X']]) (h : List.Forall₂ IsDigit cs ds) :
    body (lead ++ cs) = cs := by
  rcases List.mem_cons.mp hlead with rfl | hlead
  · exact body_of_digits h
  · rcases List.mem_cons.mp hlead with rfl | hlead
    · rfl
    · obtain rfl := List.mem_singleton.mp hlead
      rfl

theorem toBits?_eq_some_iff {text : String} {bits : List Bool} :
    toBits? text = some bits ↔ body text.toList ≠ [] ∧
      exists ds, List.Forall₂ IsDigit (body text.toList) ds ∧ ds.reverse.flatMap nibble = bits := by
  unfold toBits?
  constructor
  · intro h
    split at h
    · cases h
    · next cs hne =>
        rcases Option.map_eq_some_iff.mp h with ⟨ds, hds, hbits⟩
        refine ⟨hne, ds.reverse, ?_, by rw [List.reverse_reverse, hbits]⟩
        rw [← List.forall₂_reverse_iff, List.reverse_reverse]
        exact mapM_hexDigit?_eq_some_iff.mp hds
  · rintro ⟨hne, ds, hds, rfl⟩
    split
    · next hnil =>
        exact absurd hnil hne
    · rw [mapM_hexDigit?_eq_some_iff.mpr (List.forall₂_reverse_iff.mpr hds)]
      rfl

theorem lt_of_digits {cs : List Char} {ds : List Nat} (h : List.Forall₂ IsDigit cs ds) :
    forall d, d ∈ ds -> d < 16 := by
  induction h with
  | nil =>
      nofun
  | cons hd _ ih =>
      exact List.forall_mem_cons.mpr ⟨lt_of_isDigit hd, ih⟩

theorem denotes_iff {text : String} {n : Nat} :
    Denotes text n ↔ exists bits, toBits? text = some bits ∧ value bits = n := by
  constructor
  · rintro ⟨lead, cs, ds, hlead, htext, hne, hds, rfl⟩
    have hbody : body text.toList = cs := by rw [htext, body_append hlead hds]
    refine ⟨ds.reverse.flatMap nibble, ?_, ?_⟩
    · rw [toBits?_eq_some_iff, hbody]
      exact ⟨hne, ds, hds, rfl⟩
    · apply value_flatMap_nibble
      intro d hd
      exact lt_of_digits hds d (List.mem_reverse.mp hd)
  · rintro ⟨bits, hbits, rfl⟩
    rcases toBits?_eq_some_iff.mp hbits with ⟨hne, ds, hds, rfl⟩
    rcases exists_lead text.toList with ⟨lead, hlead, htext⟩
    refine ⟨lead, body text.toList, ds, hlead, htext, hne, hds, ?_⟩
    apply value_flatMap_nibble
    intro d hd
    exact lt_of_digits hds d (List.mem_reverse.mp hd)

theorem Denotes.unique {text : String} {m n : Nat} (hm : Denotes text m) (hn : Denotes text n) :
    m = n := by
  rcases denotes_iff.mp hm with ⟨bits, hbits, rfl⟩
  rcases denotes_iff.mp hn with ⟨bits', hbits', rfl⟩
  rw [hbits] at hbits'
  cases hbits'
  rfl

/-!
## Labels
-/

theorem exists_digits (n : Nat) :
    exists ds, List.Forall₂ (fun c d => lowerDigits[d]? = some c) (Nat.toDigits 16 n) ds ∧
      n = Nat.ofDigits 16 ds.reverse := by
  have hdigit : forall d, d < 16 -> lowerDigits[d]? = some (Nat.digitChar d) := by decide
  induction n using Nat.strong_induction_on with
  | h n ih =>
      by_cases hn : n < 16
      · rw [Nat.toDigits_of_lt_base hn]
        exact ⟨[n], .cons (hdigit n hn) .nil, Nat.ofDigits_singleton.symm⟩
      · rcases ih (n / 16) (by omega) with ⟨ds, hds, hvalue⟩
        rw [Nat.toDigits_of_base_le (by decide) (by omega)]
        refine ⟨ds ++ [n % 16], List.rel_append hds (.cons (hdigit _ (by omega)) .nil), ?_⟩
        rw [List.reverse_append, List.reverse_singleton, List.singleton_append,
          Nat.ofDigits_cons, ← hvalue]
        exact (Nat.mod_add_div n 16).symm

theorem mem_lowerDigits {n : Nat} {c : Char} (hc : c ∈ Nat.toDigits 16 n) : c ∈ lowerDigits := by
  rcases exists_digits n with ⟨ds, hds, hvalue⟩
  clear hvalue
  generalize Nat.toDigits 16 n = cs at hc hds
  induction hds with
  | nil =>
      exact absurd hc List.not_mem_nil
  | cons hd _ ih =>
      rcases List.mem_cons.mp hc with rfl | hc
      · exact List.mem_of_getElem? hd
      · exact ih hc

theorem eq_zero_of_head? {n : Nat} (h : (Nat.toDigits 16 n).head? = some '0') : n = 0 := by
  induction n using Nat.strong_induction_on with
  | h n ih =>
      by_cases hlow : n < 16
      · rw [Nat.toDigits_of_lt_base hlow, List.head?_singleton] at h
        exact Nat.digitChar_eq_zero.mp (Option.some.inj h)
      · rw [Nat.toDigits_of_base_le (by decide) (by omega),
          List.head?_append_of_ne_nil _ Nat.toDigits_ne_nil] at h
        have hquotient := ih (n / 16) (by omega) h
        omega

theorem denotes_label (n : Nat) : Denotes (label n) n := by
  rcases exists_digits n with ⟨ds, hds, hvalue⟩
  refine ⟨['0', 'x'], Nat.toDigits 16 n, ds, by decide, ?_, Nat.toDigits_ne_nil,
    hds.imp fun _ _ => Or.inl, hvalue⟩
  rw [label, String.toList_append]
  exact congrArg _ String.toList_ofList

theorem label_injective {m n : Nat} (h : label m = label n) : m = n :=
  (h ▸ denotes_label m).unique (denotes_label n)

end Hex
end MixedState
