import MixedState.Proofs.Density.Kraus
import MixedState.Proofs.Density.Reduced
import MixedState.Proofs.Pauli

/-!
# Pauli strings as matrices

A Pauli string is the Kronecker product of the matrices of its letters.  Each column of
it has one entry, in the row where the letters X and Y turn bits, and lifted to a
register it is the entry that the masks of the string name.
-/

namespace MixedState

open MixedState.Basis

noncomputable def letterMatrix (c : Char) : Mat ℝ :=
  match c with
  | 'X' => Mat.two 0 1 1 0
  | 'Y' => Mat.two 0 (-Amplitude.unit) Amplitude.unit 0
  | 'Z' => Mat.two 1 0 0 (-1)
  | _ => Mat.two 1 0 0 1

/-- The product of the letters in turn, the last of which acts on bit zero. -/
noncomputable def pauliMatrix (string : String) : Mat ℝ :=
  string.toList.foldl (fun m c => m.kron (letterMatrix c)) (Mat.ofFn 1 1 fun _ _ => 1)

/-!
## One letter
-/

def flipsBit (c : Char) : Bool :=
  c == 'X' || c == 'Y'

noncomputable def letterFactor (c : Char) (bit : Bool) : Amplitude ℝ :=
  match c with
  | 'Y' => if bit then -Amplitude.unit else Amplitude.unit
  | 'Z' => if bit then -1 else 1
  | _ => 1

theorem shape_letterMatrix (c : Char) : (letterMatrix c).rows = 2 ∧ (letterMatrix c).cols = 2 := by
  unfold letterMatrix
  split <;> exact ⟨rfl, rfl⟩

theorem entry_letterMatrix {c : Char} (hc : isPauliLetter c = true) (x y : Bool) :
    (letterMatrix c).entry x.toNat y.toNat =
      if x = (y ^^ flipsBit c) then letterFactor c y else 0 := by
  simp only [isPauliLetter, Bool.or_eq_true, beq_iff_eq] at hc
  rcases hc with ((rfl | rfl) | rfl) | rfl
  all_goals
    cases x <;> cases y <;> rfl

/-!
## Letters in turn
-/

def flipIndex : List Char -> Nat
  | [] => 0
  | c :: rest => (flipsBit c).toNat + 2 * flipIndex rest

noncomputable def columnFactor : List Char -> Nat -> Amplitude ℝ
  | [], _ => 1
  | c :: rest, b => letterFactor c (b.testBit 0) * columnFactor rest (b / 2)

noncomputable def lettersMatrix : List Char -> Mat ℝ
  | [] => Mat.ofFn 1 1 fun _ _ => 1
  | c :: rest => (lettersMatrix rest).kron (letterMatrix c)

theorem pauliMatrix_eq (string : String) :
    pauliMatrix string = lettersMatrix string.toList.reverse := by
  have hfold : forall cs, lettersMatrix cs =
      cs.foldr (fun c m => m.kron (letterMatrix c)) (Mat.ofFn 1 1 fun _ _ => 1) := by
    intro cs
    induction cs with
    | nil =>
        rfl
    | cons c rest ih =>
        unfold lettersMatrix
        rw [ih]
        rfl
  unfold pauliMatrix
  rw [List.foldl_eq_foldr_reverse, hfold]

theorem shape_lettersMatrix (cs : List Char) :
    (lettersMatrix cs).rows = twoPow cs.length ∧ (lettersMatrix cs).cols = twoPow cs.length := by
  induction cs with
  | nil =>
      exact ⟨rfl, rfl⟩
  | cons c rest ih =>
      rcases ih with ⟨hrows, hcols⟩
      rcases shape_letterMatrix c with ⟨hrows2, hcols2⟩
      constructor
      · change (lettersMatrix rest).rows * (letterMatrix c).rows = _
        rw [hrows, hrows2]
        rfl
      · change (lettersMatrix rest).cols * (letterMatrix c).cols = _
        rw [hcols, hcols2]
        rfl

theorem eq_bit (a : Nat) : a = (a.testBit 0).toNat + 2 * (a / 2) := by
  rw [Nat.testBit_zero]
  rcases Nat.mod_two_eq_zero_or_one a with h | h <;> simp [h] <;> omega

theorem xor_bit (b x : Nat) (f : Bool) :
    b ^^^ (f.toNat + 2 * x) = (b.testBit 0 ^^ f).toNat + 2 * (b / 2 ^^^ x) := by
  apply Nat.eq_of_testBit_eq
  intro k
  cases k with
  | zero =>
      rw [Nat.testBit_xor, testBit_zero_bit, testBit_zero_bit]
  | succ k =>
      rw [Nat.testBit_xor, Nat.testBit_succ, Nat.testBit_succ, Nat.testBit_succ, bit_div_two,
        bit_div_two, Nat.testBit_xor]

theorem flipIndex_lt (cs : List Char) : flipIndex cs < twoPow cs.length := by
  induction cs with
  | nil =>
      exact Nat.one_pos
  | cons c rest ih =>
      have hbit := Bool.toNat_lt (flipsBit c)
      rw [List.length_cons, twoPow_succ]
      change (flipsBit c).toNat + 2 * flipIndex rest < _
      omega

theorem entry_lettersMatrix {cs : List Char} (hcs : forall c, c ∈ cs -> isPauliLetter c = true)
    {a b : Nat} (ha : a < twoPow cs.length) (hb : b < twoPow cs.length) :
    (lettersMatrix cs).entry a b = if a = b ^^^ flipIndex cs then columnFactor cs b else 0 := by
  induction cs generalizing a b with
  | nil =>
      obtain rfl : a = 0 := Nat.lt_one_iff.mp ha
      obtain rfl : b = 0 := Nat.lt_one_iff.mp hb
      exact Mat.entry_ofFn _ Nat.one_pos Nat.one_pos
  | cons c rest ih =>
      rcases List.forall_mem_cons.mp hcs with ⟨hc, hrest⟩
      rcases shape_lettersMatrix rest with ⟨hrows, hcols⟩
      rcases shape_letterMatrix c with ⟨hrows2, hcols2⟩
      rw [List.length_cons, twoPow_succ] at ha hb
      have hlow : forall x : Nat, x % 2 = (x.testBit 0).toNat := by
        intro x
        rw [Nat.testBit_zero]
        rcases Nat.mod_two_eq_zero_or_one x with h | h <;> simp [h]
      have hentry : (lettersMatrix (c :: rest)).entry a b =
          (lettersMatrix rest).entry (a / 2) (b / 2) *
            (letterMatrix c).entry (a.testBit 0).toNat (b.testBit 0).toNat := by
        change (Mat.ofFn ((lettersMatrix rest).rows * (letterMatrix c).rows)
          ((lettersMatrix rest).cols * (letterMatrix c).cols) _).entry a b = _
        rw [Mat.entry_ofFn _ (by rw [hrows, hrows2]; exact ha) (by rw [hcols, hcols2]; exact hb),
          hrows2, hcols2, hlow, hlow]
      have hsame : a = b ^^^ flipIndex (c :: rest) ↔
          a.testBit 0 = (b.testBit 0 ^^ flipsBit c) ∧ a / 2 = b / 2 ^^^ flipIndex rest := by
        change a = b ^^^ ((flipsBit c).toNat + 2 * flipIndex rest) ↔ _
        rw [xor_bit, ← bit_eq_bit_iff, ← eq_bit]
      rw [hentry, ih hrest (by omega) (by omega), entry_letterMatrix hc]
      by_cases hbit : a.testBit 0 = (b.testBit 0 ^^ flipsBit c)
      · by_cases hhalf : a / 2 = b / 2 ^^^ flipIndex rest
        · rw [if_pos hbit, if_pos hhalf, if_pos (hsame.mpr ⟨hbit, hhalf⟩)]
          exact mul_comm _ _
        · rw [if_neg hhalf, zero_mul, if_neg fun h => hhalf (hsame.mp h).2]
      · rw [if_neg hbit, mul_zero, if_neg fun h => hbit (hsame.mp h).1]

/-!
## Masks
-/

theorem scatter_zero (qs : List Nat) : scatter qs 0 = 0 := by
  induction qs with
  | nil =>
      rfl
  | cons q rest ih =>
      rw [scatter_cons, Nat.zero_div, ih, Nat.or_zero, Nat.zero_testBit,
        if_neg Bool.false_ne_true]

theorem bitMask_flippedOf (qs : List Nat) (cs : List Char) :
    bitMask (flippedOf (qs.zip cs)) = scatter qs (flipIndex cs) := by
  induction qs generalizing cs with
  | nil =>
      rfl
  | cons q rest ih =>
      cases cs with
      | nil =>
          exact (scatter_zero (q :: rest)).symm
      | cons c cs =>
          rw [List.zip_cons_cons, scatter_cons]
          change _ = (if ((flipsBit c).toNat + 2 * flipIndex cs).testBit 0 then twoPow q else 0)
            ||| scatter rest (((flipsBit c).toNat + 2 * flipIndex cs) / 2)
          rw [testBit_zero_bit, bit_div_two, ← ih]
          change bitMask (flippedOf ([(q, c)] ++ rest.zip cs)) = _
          rw [PauliMasks.flippedOf_append, PauliMasks.bitMask_append]
          cases hflip : flipsBit c with
          | false =>
              simp [flippedOf, show (c == 'X' || c == 'Y') = false from hflip]
          | true =>
              simp [flippedOf, show (c == 'X' || c == 'Y') = true from hflip]

theorem PauliMasks.globalPhase_eq_pow (masks : PauliMasks) :
    (masks.globalPhase : Amplitude ℝ) = Amplitude.unit ^ masks.countY := by
  have hsquare : (Amplitude.unit : Amplitude ℝ) ^ 2 = -1 := by
    rw [pow_two]
    ext <;> simp
  have hturn : (Amplitude.unit : Amplitude ℝ) ^ 4 = 1 := by
    rw [show 4 = 2 + 2 from rfl, pow_add, hsquare, neg_mul_neg, one_mul]
  have hpower : (Amplitude.unit : Amplitude ℝ) ^ masks.countY =
      Amplitude.unit ^ (masks.countY % 4) := by
    conv_lhs => rw [← Nat.div_add_mod masks.countY 4, pow_add, pow_mul, hturn, one_pow, one_mul]
  have hlt := Nat.mod_lt masks.countY (show 4 > 0 by decide)
  unfold globalPhase
  rw [hpower]
  have hcases : masks.countY % 4 = 0 ∨ masks.countY % 4 = 1 ∨ masks.countY % 4 = 2 ∨
      masks.countY % 4 = 3 := by omega
  rcases hcases with h | h | h | h
  · rw [h, pow_zero]
    rfl
  · rw [h, pow_one]
    rfl
  · rw [h, hsquare]
    ext <;> simp
  · rw [h, pow_succ, hsquare]
    ext <;> simp

theorem pow_mul_signAt_signedOf {qs : List Nat} {cs : List Char} (hlen : qs.length = cs.length)
    (x : Nat) :
    Amplitude.unit ^ ((qs.zip cs).map Prod.snd).count 'Y' * signAt (signedOf (qs.zip cs)) x =
      columnFactor cs (gather qs x) := by
  induction qs generalizing cs with
  | nil =>
      obtain rfl := List.length_eq_zero_iff.mp hlen.symm
      simp [signedOf, signAt, columnFactor]
  | cons q rest ih =>
      cases cs with
      | nil =>
          cases hlen
      | cons c cs =>
          have hone : Amplitude.unit ^ [c].count 'Y' * signAt (signedOf [(q, c)]) x =
              letterFactor c (x.testBit q) := by
            unfold letterFactor
            split
            · cases hbit : x.testBit q <;> simp [signedOf, signAt, hbit]
            · cases hbit : x.testBit q <;> simp [signedOf, signAt, hbit]
            · next hY hZ =>
                have hcount : [c].count 'Y' = 0 :=
                  List.count_eq_zero.mpr (by simpa using fun h => hY h.symm)
                have hsigned : signedOf [(q, c)] = [] := by
                  simp [signedOf, show ¬c = 'Y' from hY, show ¬c = 'Z' from hZ]
                simp [signAt, hsigned, hcount]
          have hrest := ih (Nat.succ.inj hlen)
          change Amplitude.unit ^ ([c] ++ (rest.zip cs).map Prod.snd).count 'Y' *
            signAt (signedOf ([(q, c)] ++ rest.zip cs)) x = _
          rw [List.count_append, pow_add, PauliMasks.signedOf_append, signAt_append]
          unfold columnFactor
          rw [gather_cons, testBit_zero_bit, bit_div_two, ← hone, ← hrest]
          ring

def masksOf (qs : List Nat) (string : String) : PauliMasks :=
  PauliMasks.extend ⟨0, 0, 0⟩ (lettered qs string)

namespace Spells

variable {qs : List Nat} {string : String}

theorem ofString_eq_ok_single (h : Spells qs string) (hqs : forall q, q ∈ qs -> q < wordBits) :
    PauliMasks.ofString qs string = .ok (masksOf qs string) := by
  rw [PauliMasks.ofString_eq_ok_iff]
  refine ⟨h.bytes, ?_, rfl⟩
  intro pair hpair
  have hmem := List.of_mem_zip hpair
  exact ⟨hqs pair.1 hmem.1, h.letters pair.2 (List.mem_reverse.mp hmem.2)⟩

theorem x_masksOf (qs : List Nat) (string : String) :
    (masksOf qs string).x = scatter qs (flipIndex string.toList.reverse) := by
  unfold masksOf PauliMasks.extend lettered
  rw [Nat.zero_or, bitMask_flippedOf]

theorem phase_masksOf (h : Spells qs string) (hnodup : qs.Nodup)
    (hqs : forall q, q ∈ qs -> q < wordBits) (x : Nat) :
    (masksOf qs string).phase x = columnFactor string.toList.reverse (gather qs x) := by
  have hparity := oddParity_and_bitMask x (h.nodup_signed hnodup)
    fun q hq => hqs q (mem_of_mem_signed hq)
  unfold PauliMasks.phase
  rw [PauliMasks.globalPhase_eq_pow, ← pow_mul_signAt_signedOf (by
    rw [List.length_reverse, h.length])]
  unfold masksOf PauliMasks.extend
  dsimp only
  rw [Nat.zero_or, Nat.zero_add]
  change (if oddParity (x &&& bitMask (signed qs string)) then _ else _) =
    _ * signAt (signed qs string) x
  rw [hparity]
  unfold signAt
  simp only [beq_iff_eq]
  split
  · exact (mul_neg_one _).symm
  · exact (mul_one _).symm

end Spells

/-!
## Strings on a register
-/

theorem xor_scatter {qs : List Nat} {y : Nat} (x : Nat) (hnodup : qs.Nodup)
    (hy : y < twoPow qs.length) : x ^^^ scatter qs y = overwrite qs x (gather qs x ^^^ y) := by
  have houtside : forall q, q ∉ qs -> (x ^^^ scatter qs y).testBit q = x.testBit q := by
    intro q hq
    rw [Nat.testBit_xor, testBit_scatter_of_not_mem y hq, Bool.xor_false]
  have hspelled : gather qs (x ^^^ scatter qs y) = gather qs x ^^^ y := by
    apply Nat.eq_of_testBit_eq
    intro j
    by_cases hj : j < qs.length
    · have hget : qs[j]? = some qs[j] := List.getElem?_eq_getElem hj
      rw [testBit_gather _ hget, Nat.testBit_xor, Nat.testBit_xor, testBit_gather x hget,
        testBit_scatter y hnodup hget]
    · have hfar : forall z, z < twoPow qs.length -> z.testBit j = false := fun z hz =>
        (lt_twoPow_iff z _).mp hz j (Nat.le_of_not_lt hj)
      rw [Nat.testBit_xor, hfar _ (gather_lt qs _), hfar _ (gather_lt qs x), hfar y hy]
      rfl
  rw [eq_overwrite_gather hnodup houtside, hspelled]

theorem sum_liftOn_pauliMatrix {n x : Nat} {qs : List Nat} {string : String}
    (h : Spells qs string) (hnodup : qs.Nodup) (hqs : forall q, q ∈ qs -> q < n)
    (hword : n ≤ wordBits) (hx : x < twoPow n) (f : Nat -> Amplitude ℝ) :
    ∑ r ∈ Finset.range (twoPow n), liftOn qs (pauliMatrix string).entry r x * f r =
      (masksOf qs string).phase x * f (x ^^^ (masksOf qs string).x) := by
  have hlen : string.toList.reverse.length = qs.length := by
    rw [List.length_reverse, h.length]
  have hletters : forall c, c ∈ string.toList.reverse -> isPauliLetter c = true :=
    fun c hc => h.letters c (List.mem_reverse.mp hc)
  have hflip : flipIndex string.toList.reverse < twoPow qs.length := by
    rw [← hlen]
    exact flipIndex_lt _
  have hrow : gather qs x ^^^ flipIndex string.toList.reverse < twoPow qs.length :=
    Nat.xor_lt_two_pow (gather_lt qs x) hflip
  have hentry : forall a, a ∈ Finset.range (twoPow qs.length) ->
      (pauliMatrix string).entry a (gather qs x) * f (overwrite qs x a) =
        if a = gather qs x ^^^ flipIndex string.toList.reverse then
          columnFactor string.toList.reverse (gather qs x) * f (overwrite qs x a) else 0 := by
    intro a ha
    rw [pauliMatrix_eq, entry_lettersMatrix hletters (by rw [hlen]; exact Finset.mem_range.mp ha)
      (by rw [hlen]; exact gather_lt qs x), ite_mul, zero_mul]
  rw [sum_liftOn_column hnodup hqs hx, Finset.sum_congr rfl hentry, sum_range_single hrow,
    h.phase_masksOf hnodup (fun q hq => Nat.lt_of_lt_of_le (hqs q hq) hword), Spells.x_masksOf,
    xor_scatter x hnodup hflip]

end MixedState
