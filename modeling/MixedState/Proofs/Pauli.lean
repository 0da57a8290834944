import MixedState.Proofs.Basis.Parity
import MixedState.Proofs.Density.Store

/-!
# Pauli strings as flips and signs

The masks of a string are those of its flipped and of its signed qubits.  Over
rows and columns at once the powers of the imaginary unit cancel: what is left
flips bits and turns signs.
-/

namespace MixedState

open MixedState.Basis

def lettered (qs : List Nat) (string : String) : List (Nat × Char) :=
  qs.zip string.toList.reverse

def flippedOf (pairs : List (Nat × Char)) : List Nat :=
  (pairs.filter fun pair => pair.2 == 'X' || pair.2 == 'Y').map Prod.fst

def signedOf (pairs : List (Nat × Char)) : List Nat :=
  (pairs.filter fun pair => pair.2 == 'Y' || pair.2 == 'Z').map Prod.fst

def isPauliLetter (c : Char) : Bool :=
  c == 'I' || c == 'X' || c == 'Y' || c == 'Z'

/-- Minus one when an odd number of the listed bits is set. -/
noncomputable def signAt (positions : List Nat) (x : Nat) : Amplitude ℝ :=
  if positions.countP x.testBit % 2 = 1 then -1 else 1

theorem signAt_append (ps qs : List Nat) (x : Nat) :
    signAt (ps ++ qs) x = signAt ps x * signAt qs x := by
  unfold signAt
  rw [List.countP_append]
  rcases Nat.mod_two_eq_zero_or_one (ps.countP x.testBit) with hp | hp <;>
    rcases Nat.mod_two_eq_zero_or_one (qs.countP x.testBit) with hq | hq <;>
      simp [Nat.add_mod, hp, hq]

theorem signAt_mul_self (ps : List Nat) (x : Nat) : signAt ps x * signAt ps x = 1 := by
  unfold signAt
  split <;> simp

theorem conj_signAt (ps : List Nat) (x : Nat) : (signAt ps x).conj = signAt ps x := by
  unfold signAt
  split <;> simp

/-!
## Masks
-/

namespace PauliMasks

theorem add_eq_ok_iff {masks masks' : PauliMasks} {q : Nat} {letter : Char} :
    masks.add q letter = .ok masks' ↔ q < wordBits ∧ isPauliLetter letter = true ∧
      masks' =
        { x := masks.x ||| bitMask (flippedOf [(q, letter)])
          z := masks.z ||| bitMask (signedOf [(q, letter)])
          countY := masks.countY + [letter].count 'Y' } := by
  unfold add
  by_cases hq : q < wordBits
  · rw [checkedShift_of_lt hq, ok_bind]
    split
    · simp [isPauliLetter, flippedOf, signedOf, hq, pure, Except.pure]
      exact eq_comm
    · simp [isPauliLetter, flippedOf, signedOf, hq, eq_comm, pure, Except.pure]
    · simp [isPauliLetter, flippedOf, signedOf, hq, eq_comm, pure, Except.pure]
    · simp [isPauliLetter, flippedOf, signedOf, hq, eq_comm, pure, Except.pure]
    · next hI hX hZ hY =>
        have hletter : isPauliLetter letter = false := by
          simp only [isPauliLetter, Bool.or_eq_false_iff, beq_eq_false_iff_ne]
          exact ⟨⟨⟨hI, hX⟩, hY⟩, hZ⟩
        simp [refuse, hletter]
  · simp [checkedShift, hq, crash, bind, Except.bind]

theorem noCrash_add {masks : PauliMasks} {q : Nat} {letter : Char} (hq : q < wordBits) :
    NoCrash (masks.add q letter) := by
  unfold add
  rw [checkedShift_of_lt hq, ok_bind]
  split
  · exact noCrash_ok _
  · exact noCrash_ok _
  · exact noCrash_ok _
  · exact noCrash_ok _
  · exact noCrash_refuse _

theorem noCrash_ofString {qs : List Nat} (hqs : forall q, q ∈ qs -> q < wordBits)
    (string : String) : NoCrash (ofString qs string) := by
  unfold ofString
  split
  · apply NoCrash.foldlM
    intro masks pair hpair
    exact noCrash_add (hqs pair.1 (List.of_mem_zip hpair).1)
  · exact noCrash_refuse _

def extend (masks : PauliMasks) (pairs : List (Nat × Char)) : PauliMasks where
  x := masks.x ||| bitMask (flippedOf pairs)
  z := masks.z ||| bitMask (signedOf pairs)
  countY := masks.countY + (pairs.map Prod.snd).count 'Y'

theorem bitMask_append (ps qs : List Nat) :
    bitMask (ps ++ qs) = bitMask ps ||| bitMask qs := by
  apply Nat.eq_of_testBit_eq
  intro i
  rw [Nat.testBit_or, testBit_bitMask, testBit_bitMask, testBit_bitMask]
  simp

theorem flippedOf_append (xs ys : List (Nat × Char)) :
    flippedOf (xs ++ ys) = flippedOf xs ++ flippedOf ys := by
  unfold flippedOf
  rw [List.filter_append, List.map_append]

theorem signedOf_append (xs ys : List (Nat × Char)) :
    signedOf (xs ++ ys) = signedOf xs ++ signedOf ys := by
  unfold signedOf
  rw [List.filter_append, List.map_append]

theorem extend_cons (masks : PauliMasks) (pair : Nat × Char) (rest : List (Nat × Char)) :
    masks.extend (pair :: rest) = (masks.extend [pair]).extend rest := by
  unfold extend
  rw [← List.singleton_append, flippedOf_append, signedOf_append, bitMask_append,
    bitMask_append, Nat.or_assoc, Nat.or_assoc, List.map_append, List.count_append,
    Nat.add_assoc]

theorem foldlM_add_eq_ok_iff {masks masks' : PauliMasks} {pairs : List (Nat × Char)} :
    pairs.foldlM (fun masks (pair : Nat × Char) => masks.add pair.1 pair.2) masks
        = (.ok masks' : Outcome PauliMasks) ↔
      (forall pair, pair ∈ pairs -> pair.1 < wordBits ∧ isPauliLetter pair.2 = true) ∧
        masks' = masks.extend pairs := by
  induction pairs generalizing masks with
  | nil =>
      have hnil : masks.extend [] = masks := by
        simp [extend, flippedOf, signedOf]
      rw [List.foldlM_nil, hnil]
      constructor
      · intro h
        cases h
        exact ⟨fun _ hmem => absurd hmem List.not_mem_nil, rfl⟩
      · rintro ⟨_, rfl⟩
        rfl
  | cons pair rest ih =>
      rw [List.foldlM_cons, bind_eq_ok_iff, extend_cons]
      constructor
      · rintro ⟨masks1, hadd, hrest⟩
        rcases add_eq_ok_iff.mp hadd with ⟨hq, hletter, hmasks⟩
        rcases ih.mp hrest with ⟨hall, rfl⟩
        rw [hmasks]
        exact ⟨List.forall_mem_cons.mpr ⟨⟨hq, hletter⟩, hall⟩, rfl⟩
      · rintro ⟨hall, rfl⟩
        rcases List.forall_mem_cons.mp hall with ⟨⟨hq, hletter⟩, hall⟩
        exact ⟨_, add_eq_ok_iff.mpr ⟨hq, hletter, rfl⟩, ih.mpr ⟨hall, rfl⟩⟩

/-- A string has masks exactly when it has a byte for each qubit and every qubit that
gets a letter is in the word and gets one of the four letters. -/
theorem ofString_eq_ok_iff {qs : List Nat} {string : String} {masks : PauliMasks} :
    ofString qs string = .ok masks ↔
      string.utf8ByteSize = qs.length ∧
        (forall pair, pair ∈ lettered qs string ->
          pair.1 < wordBits ∧ isPauliLetter pair.2 = true) ∧
        masks = extend ⟨0, 0, 0⟩ (lettered qs string) := by
  unfold ofString
  by_cases hlen : string.utf8ByteSize = qs.length
  · rw [if_pos hlen]
    exact foldlM_add_eq_ok_iff.trans ⟨fun h => ⟨hlen, h⟩, fun h => h.2⟩
  · rw [if_neg hlen]
    constructor
    · intro h
      cases h
    · intro h
      exact absurd h.1 hlen

theorem add_alike {q q' : Nat} (masks masks' : PauliMasks) (hq : q < wordBits)
    (hq' : q' < wordBits) (letter : Char) :
    Alike (fun _ _ => True) (masks.add q letter) (masks'.add q' letter) := by
  unfold add
  rw [checkedShift_of_lt hq, checkedShift_of_lt hq', ok_bind, ok_bind]
  split
  · exact .ok trivial
  · exact .ok trivial
  · exact .ok trivial
  · exact .ok trivial
  · exact .error _

theorem foldlM_add_alike {qs qs' : List Nat} (masks masks' : PauliMasks) (letters : List Char)
    (hlen : qs.length = qs'.length) (hqs : forall q, q ∈ qs -> q < wordBits)
    (hqs' : forall q, q ∈ qs' -> q < wordBits) :
    Alike (fun _ _ => True)
      ((qs.zip letters).foldlM (fun masks (q, letter) => masks.add q letter) masks)
      ((qs'.zip letters).foldlM (fun masks (q, letter) => masks.add q letter) masks') := by
  -- The first letter that is refused is at the same place of both lists.
  induction qs generalizing qs' masks masks' letters with
  | nil =>
      rw [List.length_eq_zero_iff.mp hlen.symm]
      exact .ok trivial
  | cons q rest ih =>
      rcases List.exists_cons_of_length_eq_add_one hlen.symm with ⟨q', rest', rfl⟩
      rcases List.forall_mem_cons.mp hqs with ⟨hq, hrest⟩
      rcases List.forall_mem_cons.mp hqs' with ⟨hq', hrest'⟩
      cases letters with
      | nil =>
          exact .ok trivial
      | cons letter letters =>
          rw [List.zip_cons_cons, List.zip_cons_cons, List.foldlM_cons, List.foldlM_cons]
          exact (add_alike masks masks' hq hq' letter).bind fun _ _ _ =>
            ih _ _ letters (Nat.succ.inj hlen) hrest hrest'

theorem ofString_alike {qs qs' : List Nat} (string : String) (hlen : qs.length = qs'.length)
    (hqs : forall q, q ∈ qs -> q < wordBits) (hqs' : forall q, q ∈ qs' -> q < wordBits) :
    Alike (fun _ _ => True) (ofString qs string) (ofString qs' string) := by
  unfold ofString
  rw [hlen]
  split
  · exact foldlM_add_alike _ _ _ hlen hqs hqs'
  · exact .error _

end PauliMasks

/-!
## Strings over rows and columns
-/

theorem utf8ByteSize_ofList (cs : List Char) :
    (String.ofList cs).utf8ByteSize = (cs.map Char.utf8Size).sum := by
  induction cs with
  | nil =>
      rfl
  | cons c rest ih =>
      rw [String.ofList_cons, String.utf8ByteSize_append, String.utf8ByteSize_singleton, ih,
        List.map_cons, List.sum_cons]

theorem length_le_utf8ByteSize (string : String) :
    string.toList.length ≤ string.utf8ByteSize := by
  rw [← String.ofList_toList (s := string), utf8ByteSize_ofList, String.toList_ofList]
  induction string.toList with
  | nil =>
      exact Nat.le_refl 0
  | cons c rest ih =>
      have hpos := Char.utf8Size_pos c
      rw [List.map_cons, List.sum_cons, List.length_cons]
      omega

theorem length_eq_utf8ByteSize {string : String}
    (h : forall c, c ∈ string.toList -> isPauliLetter c = true) :
    string.toList.length = string.utf8ByteSize := by
  rw [← String.ofList_toList (s := string), utf8ByteSize_ofList, String.toList_ofList]
  generalize string.toList = cs at h
  induction cs with
  | nil =>
      rfl
  | cons c rest ih =>
      rcases List.forall_mem_cons.mp h with ⟨hc, hrest⟩
      have hone : c.utf8Size = 1 := by
        simp only [isPauliLetter, Bool.or_eq_true, beq_iff_eq] at hc
        rcases hc with ((rfl | rfl) | rfl) | rfl <;> rfl
      rw [List.map_cons, List.sum_cons, List.length_cons, hone, ← ih hrest, Nat.add_comm]

structure Spells (qs : List Nat) (string : String) : Prop where
  bytes : string.utf8ByteSize = qs.length
  letters : forall c, c ∈ string.toList -> isPauliLetter c = true

def flipped (qs : List Nat) (string : String) : List Nat :=
  flippedOf (lettered qs string)

def signed (qs : List Nat) (string : String) : List Nat :=
  signedOf (lettered qs string)

theorem Spells.length {qs : List Nat} {string : String} (h : Spells qs string) :
    string.toList.length = qs.length := by
  rw [length_eq_utf8ByteSize h.letters, h.bytes]

theorem lettered_append {ps qs : List Nat} {s t : String}
    (hlen : ps.length = t.toList.length) :
    lettered (ps ++ qs) (s ++ t) = lettered ps t ++ lettered qs s := by
  unfold lettered
  rw [String.toList_append, List.reverse_append]
  exact List.zip_append (by rw [List.length_reverse, hlen])

theorem lettered_map (f : Nat -> Nat) (qs : List Nat) (string : String) :
    lettered (qs.map f) string = (lettered qs string).map (Prod.map f id) :=
  List.zip_map_left

theorem flippedOf_map (f : Nat -> Nat) (pairs : List (Nat × Char)) :
    flippedOf (pairs.map (Prod.map f id)) = (flippedOf pairs).map f := by
  unfold flippedOf
  rw [List.filter_map, List.map_map, List.map_map]
  rfl

theorem signedOf_map (f : Nat -> Nat) (pairs : List (Nat × Char)) :
    signedOf (pairs.map (Prod.map f id)) = (signedOf pairs).map f := by
  unfold signedOf
  rw [List.filter_map, List.map_map, List.map_map]
  rfl

theorem flipped_map (f : Nat -> Nat) (qs : List Nat) (string : String) :
    flipped (qs.map f) string = (flipped qs string).map f := by
  unfold flipped
  rw [lettered_map, flippedOf_map]

theorem signed_map (f : Nat -> Nat) (qs : List Nat) (string : String) :
    signed (qs.map f) string = (signed qs string).map f := by
  unfold signed
  rw [lettered_map, signedOf_map]

theorem signed_sideBits (onColumns : Bool) (n : Nat) (qs : List Nat) (string : String) :
    signed (sideBits onColumns n qs) string = sideBits onColumns n (signed qs string) :=
  signed_map _ qs string

theorem mem_of_mem_flipped {qs : List Nat} {string : String} {q : Nat}
    (h : q ∈ flipped qs string) : q ∈ qs := by
  rcases List.mem_map.mp h with ⟨pair, hpair, rfl⟩
  exact (List.of_mem_zip (List.mem_of_mem_filter hpair)).1

theorem mem_of_mem_signed {qs : List Nat} {string : String} {q : Nat}
    (h : q ∈ signed qs string) : q ∈ qs := by
  rcases List.mem_map.mp h with ⟨pair, hpair, rfl⟩
  exact (List.of_mem_zip (List.mem_of_mem_filter hpair)).1

theorem Spells.nodup_signed {qs : List Nat} {string : String} (h : Spells qs string)
    (hnodup : qs.Nodup) : (signed qs string).Nodup := by
  have hfst : (lettered qs string).map Prod.fst = qs :=
    List.map_fst_zip (by rw [List.length_reverse, h.length])
  have hsub : (signed qs string).Sublist ((lettered qs string).map Prod.fst) :=
    List.filter_sublist.map _
  rw [hfst] at hsub
  exact hsub.nodup hnodup

theorem spells_of_ofString_eq_ok {qs : List Nat} {string : String} {masks : PauliMasks}
    (h : PauliMasks.ofString qs string = .ok masks) : Spells qs string := by
  rcases PauliMasks.ofString_eq_ok_iff.mp h with ⟨hbytes, hpairs, _⟩
  refine ⟨hbytes, ?_⟩
  intro c hc
  -- There are no more letters than bytes, so each letter goes to a qubit.
  have hsnd : (lettered qs string).map Prod.snd = string.toList.reverse := by
    apply List.map_snd_zip
    rw [List.length_reverse, ← hbytes]
    exact length_le_utf8ByteSize string
  have hmem : c ∈ (lettered qs string).map Prod.snd := by
    rw [hsnd, List.mem_reverse]
    exact hc
  rcases List.mem_map.mp hmem with ⟨pair, hpair, rfl⟩
  exact (hpairs pair hpair).2

theorem Spells.of_bothSides {n : Nat} {qs : List Nat} {string : String}
    (h : Spells (bothSides n qs) (string ++ string)) : Spells qs string := by
  constructor
  · have hbytes := h.bytes
    rw [String.utf8ByteSize_append, length_bothSides] at hbytes
    omega
  · intro c hc
    apply h.letters c
    rw [String.toList_append]
    exact List.mem_append_left _ hc

theorem spells_of_pauli_eq_ok {n : Nat} {qs : List Nat} {string : String}
    {factor : Amplitude ℝ} {b b' : Buffer ℝ}
    (h : Kernel.pauli (bothSides n qs) (string ++ string) factor b = .ok b') :
    Spells qs string := by
  rcases bind_eq_ok_iff.mp h with ⟨masks, hmasks, _⟩
  exact (spells_of_ofString_eq_ok hmasks).of_bothSides

theorem Spells.ofString_eq_ok {n : Nat} {qs : List Nat} {string : String}
    (h : Spells qs string) (hn : 2 * n < wordBits) (hqs : forall q, q ∈ qs -> q < n) :
    PauliMasks.ofString (bothSides n qs) (string ++ string) = .ok
      { x := bitMask (bothSides n (flipped qs string))
        z := bitMask (bothSides n (signed qs string))
        countY := 2 * string.toList.count 'Y' } := by
  have hcount : ((lettered qs string).map Prod.snd).count 'Y' = string.toList.count 'Y' := by
    have hsnd : (lettered qs string).map Prod.snd = string.toList.reverse :=
      List.map_snd_zip (by rw [List.length_reverse, h.length])
    rw [hsnd, List.count_reverse]
  have hpairs : lettered (bothSides n qs) (string ++ string) = lettered qs string ++
      (lettered qs string).map (Prod.map (fun q => q + n) id) := by
    unfold bothSides
    rw [lettered_append h.length.symm, ← lettered_map]
    rfl
  rw [PauliMasks.ofString_eq_ok_iff]
  refine ⟨?_, ?_, ?_⟩
  · rw [String.utf8ByteSize_append, length_bothSides, h.bytes, Nat.two_mul]
  · intro pair hpair
    have hmem := List.of_mem_zip hpair
    refine ⟨bothSides_lt_wordBits hn hqs _ hmem.1, h.letters _ ?_⟩
    rw [List.mem_reverse, String.toList_append] at hmem
    rcases List.mem_append.mp hmem.2 with hc | hc <;> exact hc
  · have hsnd : ((lettered qs string).map (Prod.map (fun q => q + n) id)).map Prod.snd =
        (lettered qs string).map Prod.snd := by
      rw [List.map_map]
      rfl
    rw [hpairs]
    unfold PauliMasks.extend
    rw [PauliMasks.flippedOf_append, PauliMasks.signedOf_append, flippedOf_map, signedOf_map,
      List.map_append, List.count_append, hsnd, hcount, Nat.zero_or, Nat.zero_or,
      Nat.zero_add, ← Nat.two_mul]
    rfl

/-- The sign of a string over rows and columns, where each Y turns it. -/
noncomputable def ySign (string : String) : Amplitude ℝ :=
  if (string.toList.filter fun c => c == 'Y').length % 2 = 0 then 1 else -1

theorem ySign_mul_globalPhase (string : String) (x z : Nat) :
    ySign string * (⟨x, z, 2 * string.toList.count 'Y'⟩ : PauliMasks).globalPhase = 1 := by
  have hlen : (string.toList.filter fun c => c == 'Y').length = string.toList.count 'Y' :=
    List.countP_eq_length_filter.symm
  unfold ySign PauliMasks.globalPhase
  rw [hlen]
  dsimp only
  rcases Nat.mod_two_eq_zero_or_one (string.toList.count 'Y') with h | h
  · have hfour : 2 * string.toList.count 'Y' % 4 = 0 := by omega
    rw [h, hfour, if_pos rfl, one_mul]
    rfl
  · have hfour : 2 * string.toList.count 'Y' % 4 = 2 := by omega
    rw [h, hfour, if_neg Nat.one_ne_zero]
    ext <;> simp

/-- Over rows and columns at once a string flips its X and Y and signs its Y and Z.  A
qubit that is signed twice is signed once. -/
theorem Kernel.pauli_eq_ok_of_mem {n : Nat} {qs zs : List Nat} {string : String} {b : Buffer ℝ}
    (h : Spells qs string) (hnodup : zs.Nodup) (hzs : forall q, q ∈ zs ↔ q ∈ signed qs string)
    (hqs : forall q, q ∈ qs -> q < n) (hn : 2 * n < wordBits) (hb : b.size = twoPow (2 * n)) :
    Kernel.pauli (bothSides n qs) (string ++ string) (ySign string) b =
      .ok (Buffer.tabulate b.size fun i =>
        signAt (bothSides n zs) (i ^^^ bitMask (bothSides n (flipped qs string))) *
          b.entry (i ^^^ bitMask (bothSides n (flipped qs string)))) := by
  have hflipped : forall q, q ∈ flipped qs string -> q < n :=
    fun q hq => hqs q (mem_of_mem_flipped hq)
  have hsigned : forall q, q ∈ zs -> q < n :=
    fun q hq => hqs q (mem_of_mem_signed ((hzs q).mp hq))
  have hx : bitMask (bothSides n (flipped qs string)) < b.size := by
    rw [hb]
    exact bitMask_lt (lt_of_mem_bothSides hflipped)
  have hz : bitMask (bothSides n (signed qs string)) = bitMask (bothSides n zs) := by
    apply Nat.eq_of_testBit_eq
    intro i
    simp only [testBit_bitMask, bothSides, sideBits, List.mem_append, List.mem_map, hzs]
  unfold wordBits at hn
  have hphase : forall i, ySign string * PauliMasks.phase
      { x := bitMask (bothSides n (flipped qs string))
        z := bitMask (bothSides n zs)
        countY := 2 * string.toList.count 'Y' } i = signAt (bothSides n zs) i := by
    intro i
    unfold PauliMasks.phase signAt
    dsimp only
    rw [oddParity_and_bitMask i (nodup_bothSides hnodup hsigned)
      (fun q hq => by have hlt := lt_of_mem_bothSides hsigned q hq; omega)]
    simp only [beq_iff_eq]
    split
    · rw [mul_neg, ySign_mul_globalPhase]
    · rw [ySign_mul_globalPhase]
  unfold Kernel.pauli
  rw [h.ofString_eq_ok hn hqs, hz, ok_bind, orCrash_of_true (by simp [hx]), ok_bind]
  congr 1
  apply Buffer.tabulate_congr
  intro i _
  dsimp only
  rw [hphase, hphase]
  split
  · next hzero =>
      rw [hzero, Nat.xor_zero, mul_comm]
  · rfl

theorem Kernel.pauli_eq_ok {n : Nat} {qs : List Nat} {string : String} {b : Buffer ℝ}
    (h : Spells qs string) (hnodup : qs.Nodup) (hqs : forall q, q ∈ qs -> q < n)
    (hn : 2 * n < wordBits) (hb : b.size = twoPow (2 * n)) :
    Kernel.pauli (bothSides n qs) (string ++ string) (ySign string) b =
      .ok (Buffer.tabulate b.size fun i =>
        signAt (bothSides n (signed qs string))
            (i ^^^ bitMask (bothSides n (flipped qs string))) *
          b.entry (i ^^^ bitMask (bothSides n (flipped qs string)))) :=
  pauli_eq_ok_of_mem h (h.nodup_signed hnodup) (fun _ => Iff.rfl) hqs hn hb

/-!
## Diagonal strings
-/

def placesOfZ (cs : List Char) (k : Nat) : List Nat :=
  (cs.zipIdx k).filterMap fun (c, i) => if c = 'Z' then some i else none

theorem placesOfZ_cons_self (cs : List Char) (k : Nat) :
    placesOfZ ('Z' :: cs) k = k :: placesOfZ cs (k + 1) :=
  rfl

theorem placesOfZ_cons_of_ne {c : Char} (hc : c ≠ 'Z') (cs : List Char) (k : Nat) :
    placesOfZ (c :: cs) k = placesOfZ cs (k + 1) :=
  List.filterMap_cons_none (if_neg hc)

theorem placesOfZ_sublist (cs : List Char) (k : Nat) :
    (placesOfZ cs k).Sublist (List.range' k cs.length) := by
  induction cs generalizing k with
  | nil =>
      exact List.Sublist.refl _
  | cons c rest ih =>
      rw [List.length_cons, List.range'_succ]
      by_cases hc : c = 'Z'
      · rw [hc, placesOfZ_cons_self]
        exact (ih (k + 1)).cons_cons k
      · rw [placesOfZ_cons_of_ne hc]
        exact (ih (k + 1)).cons k

theorem signedOf_zip {cs : List Char} {qs : List Nat} {k : Nat} {g : Nat -> Nat}
    (hlen : qs.length = cs.length) (hcs : forall c, c ∈ cs -> c ≠ 'Y')
    (hg : forall j, j < qs.length -> qs[j]? = some (g (k + j))) :
    signedOf (qs.zip cs) = (placesOfZ cs k).map g := by
  induction cs generalizing qs k with
  | nil =>
      rw [List.zip_nil_right]
      rfl
  | cons c rest ih =>
      cases qs with
      | nil =>
          cases hlen
      | cons q qs =>
          have hq : q = g k := Option.some.inj (hg 0 (Nat.succ_pos _))
          have hrest : signedOf (qs.zip rest) = (placesOfZ rest (k + 1)).map g := by
            apply ih (Nat.succ.inj hlen) (fun c hc => hcs c (List.mem_cons_of_mem _ hc))
            intro j hj
            have hsucc := hg (j + 1) (Nat.succ_lt_succ hj)
            rw [List.getElem?_cons_succ] at hsucc
            rw [hsucc, Nat.add_assoc, Nat.add_comm 1 j]
          have hY : c ≠ 'Y' := hcs c List.mem_cons_self
          rw [List.zip_cons_cons]
          change signedOf ([(q, c)] ++ qs.zip rest) = _
          rw [PauliMasks.signedOf_append, hrest]
          by_cases hc : c = 'Z'
          · rw [hc, hq, placesOfZ_cons_self]
            simp [signedOf]
          · rw [placesOfZ_cons_of_ne hc]
            simp [signedOf, hc, hY]

theorem isPauliLetter_of_isDiagonalPauli {string : String} (h : isDiagonalPauli string = true) :
    forall c, c ∈ string.toList -> (c = 'I' ∨ c = 'Z') := by
  intro c hc
  have hall := List.all_eq_true.mp h c hc
  simpa using hall

theorem spells_of_isDiagonalPauli {qs : List Nat} {string : String}
    (hbytes : string.utf8ByteSize = qs.length) (h : isDiagonalPauli string = true) :
    Spells qs string where
  bytes := hbytes
  letters c hc := by
    rcases isPauliLetter_of_isDiagonalPauli h c hc with rfl | rfl <;> rfl

theorem flipped_eq_nil {qs : List Nat} {string : String} (h : isDiagonalPauli string = true) :
    flipped qs string = [] := by
  have hnone : (lettered qs string).filter (fun pair => pair.2 == 'X' || pair.2 == 'Y') = [] := by
    rw [List.filter_eq_nil_iff]
    intro pair hpair
    have hmem := (List.of_mem_zip hpair).2
    rw [List.mem_reverse] at hmem
    rcases isPauliLetter_of_isDiagonalPauli h pair.2 hmem with hc | hc <;> simp [hc]
  unfold flipped flippedOf
  rw [hnone]
  rfl

theorem lt_of_mem_placesOfZ {string : String} {j : Nat}
    (hj : j ∈ placesOfZ string.toList.reverse 0) : j < string.toList.length := by
  have hmem := (placesOfZ_sublist string.toList.reverse 0).subset hj
  rw [List.mem_range'_1, List.length_reverse] at hmem
  omega

theorem signAt_placesOfZ {qs : List Nat} {string : String}
    (hbytes : string.utf8ByteSize = qs.length) (h : isDiagonalPauli string = true) (x : Nat) :
    signAt (placesOfZ string.toList.reverse 0) (gather qs x) = signAt (signed qs string) x := by
  have hchars := (spells_of_isDiagonalPauli hbytes h).length
  have hgetD : forall j, j < qs.length -> qs[j]? = some (qs.getD j 0) := by
    intro j hj
    rw [List.getD_eq_getElem?_getD, List.getElem?_eq_getElem hj]
    rfl
  have hplaces : signed qs string =
      (placesOfZ string.toList.reverse 0).map fun j => qs.getD j 0 := by
    apply signedOf_zip
    · rw [List.length_reverse, hchars]
    · intro c hc
      rcases isPauliLetter_of_isDiagonalPauli h c (List.mem_reverse.mp hc) with rfl | rfl <;>
        decide
    · intro j hj
      rw [Nat.zero_add, hgetD j hj]
  have hbit : forall j, j ∈ placesOfZ string.toList.reverse 0 ->
      ((gather qs x).testBit j = true ↔ (x.testBit ∘ fun j => qs.getD j 0) j = true) := by
    intro j hj
    rw [testBit_gather x (hgetD j (hchars ▸ lt_of_mem_placesOfZ hj))]
    rfl
  unfold signAt
  rw [hplaces, List.countP_map, List.countP_congr hbit]

theorem pauliDiagonal_of_lt {width : Nat} (hwidth : width < 59) (string : String) :
    pauliDiagonal width string = .ok (Buffer.tabulate (twoPow width) fun i =>
      if oddParity (i &&& bitMask (placesOfZ string.toList.reverse 0)) then (-1 : Amplitude ℝ)
      else 1) := by
  unfold pauliDiagonal
  rw [checkedShift_of_lt (Nat.lt_trans hwidth (by decide)), ok_bind,
    allocate_sixteen_of_lt hwidth, ok_bind]
  rfl

theorem pauliDiagonal_eq_ok {qs : List Nat} {string : String} (hlen : qs.length < 59)
    (hbytes : string.utf8ByteSize = qs.length) (h : isDiagonalPauli string = true) :
    exists d : Buffer ℝ, pauliDiagonal qs.length string = .ok d ∧
      d.size = twoPow qs.length ∧
      forall x, d.entry (gather qs x) = signAt (signed qs string) x := by
  have hchars := (spells_of_isDiagonalPauli hbytes h).length
  have hword : wordBits = 64 := rfl
  refine ⟨_, pauliDiagonal_of_lt hlen string, Buffer.size_tabulate _ _, ?_⟩
  intro x
  rw [Buffer.entry_tabulate_of_lt _ (gather_lt qs x), ← signAt_placesOfZ hbytes h,
    oddParity_and_bitMask _ ((placesOfZ_sublist _ 0).nodup List.nodup_range') (fun j hj => by
    have hlt := lt_of_mem_placesOfZ hj
    omega)]
  unfold signAt
  simp only [beq_iff_eq]

theorem Kernel.pauli_eq_diagonalUnitary {n : Nat} {qs : List Nat} {string : String}
    {d b : Buffer ℝ} (hnodup : qs.Nodup) (hqs : forall q, q ∈ qs -> q < n)
    (hn : 2 * n < wordBits) (hb : b.size = twoPow (2 * n))
    (hbytes : string.utf8ByteSize = qs.length) (h : isDiagonalPauli string = true)
    (hd : pauliDiagonal qs.length string = .ok d) :
    pauli (bothSides n qs) (string ++ string) (ySign string) b =
      diagonalUnitary n qs d b := by
  have hlen := length_le_of_nodup hnodup hqs
  have hside : forall onColumns, d.size = twoPow (sideBits onColumns n qs).length ∧
      forall x, d.entry (gather (sideBits onColumns n qs) x) =
        signAt (sideBits onColumns n (signed qs string)) x := by
    intro onColumns
    have hword : wordBits = 64 := rfl
    have hshort : (sideBits onColumns n qs).length < 59 := by
      rw [length_sideBits]
      omega
    obtain ⟨d', hd', hsize, hentry⟩ :=
      pauliDiagonal_eq_ok hshort (by rw [length_sideBits]; exact hbytes) h
    rw [length_sideBits, hd] at hd'
    cases hd'
    rw [signed_sideBits] at hentry
    exact ⟨hsize, hentry⟩
  rcases hside false with ⟨hrowSize, hrow⟩
  rcases hside true with ⟨hcolumnSize, hcolumn⟩
  rw [sideBits_false] at hrowSize hrow
  have hsize : twoPow (bothSides n qs).length ≤ (d.conj.tensor d).size := by
    rw [length_bothSides, twoPow_two_mul, Buffer.size_tensor, Buffer.size_conj, hrowSize]
  unfold diagonalUnitary
  rw [Kernel.pauli_eq_ok (spells_of_isDiagonalPauli hbytes h) hnodup hqs hn hb,
    Kernel.diagonal_eq_ok (bothSides_lt_wordBits hn hqs)
      (by rw [length_bothSides]; omega) hsize]
  congr 1
  apply Buffer.tabulate_congr
  intro x _
  have hnone : bitMask (bothSides n (flipped qs string)) = 0 := by
    rw [flipped_eq_nil h]
    rfl
  rw [hnone, Nat.xor_zero]
  unfold bothSides
  rw [Buffer.entry_tensor_gather hrowSize ((Buffer.size_conj d).trans hcolumnSize),
    Buffer.entry_conj, hrow, hcolumn, conj_signAt, signAt_append, sideBits_false, mul_comm,
    mul_comm (signAt (signed qs string) x)]

end MixedState
