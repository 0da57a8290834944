import MixedState.Proofs.Density.Store
import MixedState.Proofs.Partition.Chunk
import MixedState.Proofs.Pauli

/-!
# Kernels on a chunk

A kernel on local bits does to the chunk what it does to the whole register.  Of
a controlled kernel the global controls are decided by the chunk: when they hold,
what is left acts on the chunk, and otherwise the chunk stays as it is.
-/

namespace MixedState

open MixedState.Basis

namespace Place

variable {place : Place}

def localOf (place : Place) (qs : List Nat) : List Nat :=
  qs.filter place.isLocal

def globalOf (place : Place) (qs : List Nat) : List Nat :=
  qs.filter fun q => !place.isLocal q

def holds (place : Place) (onColumns : Bool) (known : List Nat) : Bool :=
  covers (bitMask (known.map fun q => q - place.width)) (place.globalBits onColumns)

theorem mem_localOf {q : Nat} {qs : List Nat} :
    q ∈ place.localOf qs ↔ q ∈ qs ∧ q < place.width := by
  simp [localOf, isLocal]

theorem mem_globalOf {q : Nat} {qs : List Nat} :
    q ∈ place.globalOf qs ↔ q ∈ qs ∧ ¬q < place.width := by
  simp [globalOf, isLocal]

theorem length_localOf_add_length_globalOf (place : Place) (qs : List Nat) :
    (place.localOf qs).length + (place.globalOf qs).length = qs.length :=
  (List.length_eq_length_filter_add place.isLocal).symm

theorem localOf_eq_self (place : Place) {qs : List Nat}
    (hqs : forall q, q ∈ qs -> q < place.width) : place.localOf qs = qs :=
  List.filter_eq_self.mpr fun q hq => decide_eq_true (hqs q hq)

theorem globalOf_eq_nil (place : Place) {qs : List Nat}
    (hqs : forall q, q ∈ qs -> q < place.width) : place.globalOf qs = [] := by
  apply List.filter_eq_nil_iff.mpr
  intro q hq hglobal
  exact absurd (hqs q hq) (by simpa [isLocal] using hglobal)

theorem holds_nil (place : Place) (onColumns : Bool) : place.holds onColumns [] = true := by
  simp [holds, covers]

theorem holds_iff {onColumns : Bool} {known : List Nat} :
    place.holds onColumns known = true ↔
      forall q, q ∈ known -> (place.globalBits onColumns).testBit (q - place.width) = true := by
  unfold holds
  rw [covers_bitMask_iff]
  simp

theorem covers_embed (hplace : place.Valid) (onColumns : Bool) {qs : List Nat} {x : Nat}
    (hqs : forall q, q ∈ qs -> q < place.register) (hx : x < twoPow (2 * place.width)) :
    covers (bitMask (sideBits onColumns place.register qs)) (place.embed x) =
      (place.holds onColumns (place.globalOf qs)
        && covers (bitMask (sideBits onColumns place.width (place.localOf qs))) x) := by
  rw [Bool.eq_iff_iff, Bool.and_eq_true, covers_bitMask_iff, covers_bitMask_iff, holds_iff]
  constructor
  · intro h
    constructor
    · intro q hq
      rcases mem_globalOf.mp hq with ⟨hmem, hglobal⟩
      have hbit := h _ (mem_sideBits_iff.mpr hmem)
      rw [testBit_embed hplace onColumns hx (hqs q hmem), if_neg hglobal] at hbit
      exact hbit
    · intro p hp
      rcases List.mem_map.mp hp with ⟨q, hq, rfl⟩
      rcases mem_localOf.mp hq with ⟨hmem, hlocal⟩
      have hbit := h _ (mem_sideBits_iff.mpr hmem)
      rw [testBit_embed hplace onColumns hx (hqs q hmem), if_pos hlocal] at hbit
      exact hbit
  · rintro ⟨hglobals, hlocals⟩ p hp
    rcases List.mem_map.mp hp with ⟨q, hmem, rfl⟩
    rw [testBit_embed hplace onColumns hx (hqs q hmem)]
    by_cases hlocal : q < place.width
    · rw [if_pos hlocal]
      exact hlocals _ (mem_sideBits_iff.mpr (mem_localOf.mpr ⟨hmem, hlocal⟩))
    · rw [if_neg hlocal]
      exact hglobals q (mem_globalOf.mpr ⟨hmem, hlocal⟩)

theorem embed_xor (hplace : place.Valid) {onColumns : Bool} {q x : Nat}
    (hq : q < place.width) (hx : x < twoPow (2 * place.width)) :
    place.embed (x ^^^ twoPow (q + side onColumns place.width)) =
      place.embed x ^^^ twoPow (q + side onColumns place.register) := by
  have hle := side_le onColumns place.width
  rw [(frame hplace).xor_twoPow_move (by omega) hx, move_local hq]

end Place

/-!
## Operators under controls
-/

namespace IsChunk

variable {place : Place} {full part : Buffer ℝ}

/-- What a kernel leaves on a chunk when the global controls hold or fail. -/
structure Decided (place : Place) (onColumns : Bool) (known : List Nat)
    (full' part : Buffer ℝ) (kernel : Buffer ℝ -> Outcome (Buffer ℝ)) : Prop where
  of_holds : place.holds onColumns known = true ->
    exists part', kernel part = .ok part' ∧ IsChunk place full' part'
  of_fails : place.holds onColumns known = false -> IsChunk place full' part

theorem decided_phase (hplace : place.Valid) (h : IsChunk place full part)
    (onColumns : Bool) (factor : Amplitude ℝ) {qs : List Nat}
    (hqs : forall q, q ∈ qs -> q < place.register) :
    exists full',
      Kernel.phase (sideBits onColumns place.register qs) factor full = .ok full' ∧
        Decided place onColumns (place.globalOf qs) full' part
          (Kernel.phase (sideBits onColumns place.width (place.localOf qs)) factor) := by
  have hbits : forall p, p ∈ sideBits onColumns place.register qs -> p < wordBits :=
    sideBits_lt_wordBits hplace.word hqs
  have hlocals : forall p,
      p ∈ sideBits onColumns place.width (place.localOf qs) -> p < wordBits :=
    sideBits_lt_wordBits hplace.word_width fun q hq => (Place.mem_localOf.mp hq).2
  refine ⟨_, Kernel.phase_eq_ok factor hbits, ?_, ?_⟩
  · intro hholds
    refine ⟨_, Kernel.phase_eq_ok factor hlocals, h.tabulate hplace ?_⟩
    intro x hx
    rw [Place.covers_embed hplace onColumns hqs hx, hholds, Bool.true_and, h.entry_eq x hx]
  · intro hfails
    have hsame := h.tabulate hplace (f := fun x =>
        if covers (bitMask (sideBits onColumns place.register qs)) x then
          full.entry x * factor else full.entry x)
      (g := part.entry) (by
        intro x hx
        rw [Place.covers_embed hplace onColumns hqs hx, hfails, Bool.false_and,
          if_neg Bool.false_ne_true, h.entry_eq x hx])
    rwa [Buffer.tabulate_entry] at hsame

theorem decided_controlled (hplace : place.Valid) (h : IsChunk place full part)
    (onColumns : Bool) {f g : Nat -> Amplitude ℝ -> Amplitude ℝ} {controls : List Nat}
    {target : Nat} (hnot : target ∉ controls)
    (hcontrols : forall q, q ∈ controls -> q < place.register) (htarget : target < place.width)
    (hfg : forall x a, x < twoPow (2 * place.width) -> g x a = f (place.embed x) a) :
    exists full',
      Kernel.controlled (sideBits onColumns place.register (controls ++ [target])) f full
          = .ok full' ∧
        Decided place onColumns (place.globalOf controls) full' part
          (Kernel.controlled
            (sideBits onColumns place.width (place.localOf controls ++ [target])) g) := by
  have hword := hplace.word
  have hwidth := hplace.width_lt
  have hbits : forall p, p ∈ sideBits onColumns place.register controls -> p < wordBits :=
    sideBits_lt_wordBits hplace.word hcontrols
  have hlocals : forall p,
      p ∈ sideBits onColumns place.width (place.localOf controls) -> p < wordBits :=
    sideBits_lt_wordBits hplace.word_width fun q hq => (Place.mem_localOf.mp hq).2
  have hside := side_le onColumns place.register
  have hsideLocal := side_le onColumns place.width
  have hfull := Kernel.controlled_eq_ok (b := full) f
    (fun hmem => hnot (mem_sideBits_iff.mp hmem)) hbits
    (t := target + side onColumns place.register) (by omega) (by omega) h.full_size
  have hpart := Kernel.controlled_eq_ok (b := part) g
    (fun hmem => hnot (Place.mem_localOf.mp (mem_sideBits_iff.mp hmem)).1) hlocals
    (t := target + side onColumns place.width) (by omega) (by omega) h.part_size
  have hflip : forall x, x < twoPow (2 * place.width) ->
      x ^^^ twoPow (target + side onColumns place.width) < twoPow (2 * place.width) :=
    fun x hx => xor_twoPow_lt (by omega) hx
  refine ⟨_, by rw [sideBits_append]; exact hfull, ?_, ?_⟩
  · intro hholds
    refine ⟨_, by rw [sideBits_append]; exact hpart, h.tabulate hplace ?_⟩
    intro x hx
    rw [Place.covers_embed hplace onColumns hcontrols hx, hholds, Bool.true_and,
      h.entry_eq x hx, h.entry_eq _ (hflip x hx), Place.embed_xor hplace htarget hx,
      hfg x _ hx]
  · intro hfails
    have hsame := h.tabulate hplace (f := fun x =>
        if covers (bitMask (sideBits onColumns place.register controls)) x then
          f x (full.entry (x ^^^ twoPow (target + side onColumns place.register)))
        else full.entry x)
      (g := part.entry) (by
        intro x hx
        rw [Place.covers_embed hplace onColumns hcontrols hx, hfails, Bool.false_and,
          if_neg Bool.false_ne_true, h.entry_eq x hx])
    rwa [Buffer.tabulate_entry] at hsame

/-- Of an operator under controls, the global bits of a chunk leave the operator under
the local controls, or nothing. -/
theorem decided_sided (hplace : place.Valid) (h : IsChunk place full part) (s : Sided)
    (onColumns : Bool) {controls targets : List Nat} (hlen : targets.length = s.targetCount)
    (hnodup : (controls ++ targets).Nodup)
    (hcontrols : forall q, q ∈ controls -> q < place.register)
    (htargets : forall q, q ∈ targets -> q < place.width) :
    exists full',
      s.kernel onColumns (sideBits onColumns place.register (controls ++ targets)) full
          = .ok full' ∧
        Decided place onColumns (place.globalOf controls) full' part
          (s.kernel onColumns
            (sideBits onColumns place.width (place.localOf controls ++ targets))) := by
  cases s with
  | phase factor =>
      have hnil : targets = [] := List.eq_nil_of_length_eq_zero hlen
      subst hnil
      rw [List.append_nil, List.append_nil, Sided.kernel_phase, Sided.kernel_phase]
      exact h.decided_phase hplace onColumns _ hcontrols
  | flip =>
      rcases List.length_eq_one_iff.mp hlen with ⟨target, rfl⟩
      have hnot : target ∉ controls := fun hmem =>
        (List.nodup_append.mp hnodup).2.2 target hmem target (List.mem_singleton_self target) rfl
      rw [Sided.kernel_flip, Sided.kernel_flip]
      exact h.decided_controlled hplace onColumns hnot hcontrols
        (htargets target (List.mem_singleton_self target)) fun _ _ _ => rfl
  | flipY =>
      rcases List.length_eq_one_iff.mp hlen with ⟨target, rfl⟩
      have hnot : target ∉ controls := fun hmem =>
        (List.nodup_append.mp hnodup).2.2 target hmem target (List.mem_singleton_self target) rfl
      have htarget := htargets target (List.mem_singleton_self target)
      have hwidth := hplace.width_lt
      have hfactor : forall x, x < twoPow (2 * place.width) ->
          Sided.yFactor onColumns (target + side onColumns place.width) x =
            Sided.yFactor onColumns (target + side onColumns place.register)
              (place.embed x) := by
        intro x hx
        have hbit := Place.testBit_embed hplace onColumns hx (q := target) (by omega)
        rw [if_pos htarget] at hbit
        unfold Sided.yFactor
        rw [hbit]
      have hstep := h.decided_controlled hplace onColumns
        (f := fun x a =>
          Sided.yFactor onColumns (target + side onColumns place.register) x * a)
        (g := fun x a =>
          Sided.yFactor onColumns (target + side onColumns place.width) x * a)
        hnot hcontrols htarget fun x a hx => congrArg (· * a) (hfactor x hx)
      rw [sideBits_append, sideBits_append] at hstep ⊢
      rw [sideBits_singleton, sideBits_singleton] at hstep ⊢
      rw [Sided.kernel_flipY, Sided.kernel_flipY]
      exact hstep

/-!
## Local bits
-/

theorem dense (hplace : place.Valid) (h : IsChunk place full part) {bits : List Nat}
    {columns : Buffer ℝ} (hfew : bits.length < 59) (hnodup : bits.Nodup)
    (hbits : forall p, p ∈ bits -> p < 2 * place.width)
    (hcolumns : twoPow bits.length * twoPow bits.length ≤ columns.size) :
    exists full' part', Kernel.dense (bits.map place.move) columns full = .ok full' ∧
      Kernel.dense bits columns part = .ok part' ∧ IsChunk place full' part' := by
  have hwidth := hplace.width_lt
  have hword := hplace.word
  have hframe := Place.frame hplace
  have hmoved : forall p, p ∈ bits.map place.move -> p < 2 * place.register := by
    intro p hp
    rcases List.mem_map.mp hp with ⟨q, hq, rfl⟩
    have hlt := hbits q hq
    unfold Place.move
    split <;> omega
  refine ⟨_, _,
    Kernel.dense_eq_ok (hframe.nodup_map hbits hnodup) hmoved (by omega)
      (by rw [List.length_map]; exact hfew) h.full_size
      (by rw [List.length_map]; exact hcolumns),
    Kernel.dense_eq_ok hnodup hbits (by omega) hfew h.part_size hcolumns,
    h.tabulate hplace ?_⟩
  intro x hx
  rw [List.length_map, hframe.act_map hbits hnodup hx]
  unfold act
  apply Finset.sum_congr rfl
  intro j _
  rw [h.entry_eq _ (overwrite_lt j hbits hx)]

theorem exchange (hplace : place.Valid) (h : IsChunk place full part) (onColumns : Bool)
    {p q : Nat} (hp : p < place.width) (hq : q < place.width) :
    exists full' part',
      Kernel.exchange (p + side onColumns place.register)
        (q + side onColumns place.register) full = .ok full' ∧
      Kernel.exchange (p + side onColumns place.width)
        (q + side onColumns place.width) part = .ok part' ∧
      IsChunk place full' part' := by
  have hword := hplace.word
  have hwidth := hplace.width_lt
  have hside := side_le onColumns place.register
  have hsideLocal := side_le onColumns place.width
  refine ⟨_, _,
    Kernel.exchange_eq_ok (n := 2 * place.register) (by omega) (by omega) (by omega)
      h.full_size,
    Kernel.exchange_eq_ok (n := 2 * place.width) (by omega) (by omega) (by omega)
      h.part_size, h.tabulate hplace ?_⟩
  intro x hx
  have hflip : x ^^^ twoPow (p + side onColumns place.width)
      < twoPow (2 * place.width) := xor_twoPow_lt (by omega) hx
  have hflips : x ^^^ twoPow (p + side onColumns place.width)
      ^^^ twoPow (q + side onColumns place.width) < twoPow (2 * place.width) :=
    xor_twoPow_lt (by omega) hflip
  rw [h.entry_eq x hx, h.entry_eq _ hflips, Place.embed_xor hplace hq hflip,
    Place.embed_xor hplace hp hx, Place.testBit_embed hplace onColumns hx (by omega),
    Place.testBit_embed hplace onColumns hx (by omega), if_pos hp, if_pos hq]

theorem unitary (hplace : place.Valid) (h : IsChunk place full part) {qs : List Nat}
    {columns : Buffer ℝ} (hnodup : qs.Nodup) (hqs : forall q, q ∈ qs -> q < place.width)
    (hcolumns : twoPow qs.length * twoPow qs.length ≤ columns.size) :
    exists full' part', Kernel.unitary place.register qs columns full = .ok full' ∧
      Kernel.unitary place.width qs columns part = .ok part' ∧ IsChunk place full' part' := by
  have hfew : qs.length < 59 := by
    have hle := Basis.length_le_of_nodup hnodup hqs
    have hword := hplace.word_width
    unfold wordBits at hword
    omega
  have hside : forall (onColumns : Bool) (entries full part : Buffer ℝ),
      IsChunk place full part -> entries.size = columns.size ->
      exists full' part',
        Kernel.dense (sideBits onColumns place.register qs) entries full = .ok full' ∧
        Kernel.dense (sideBits onColumns place.width qs) entries part = .ok part' ∧
        IsChunk place full' part' := by
    intro onColumns entries full part hchunk hentries
    rw [← Place.map_move_sideBits hqs]
    apply hchunk.dense hplace (by rw [length_sideBits]; exact hfew) (nodup_sideBits hnodup)
      (lt_of_mem_sideBits hqs)
    rw [length_sideBits, hentries]
    exact hcolumns
  rcases hside false columns full part h rfl with ⟨full1, part1, hfull1, hpart1, h1⟩
  obtain ⟨full2, part2, hfull2, hpart2, h2⟩ :=
    hside true columns.conj full1 part1 h1 (Buffer.size_conj columns)
  rw [sideBits_false] at hfull1 hpart1
  exact ⟨full2, part2, bind_eq_ok_iff.mpr ⟨full1, hfull1, hfull2⟩,
    bind_eq_ok_iff.mpr ⟨part1, hpart1, hpart2⟩, h2⟩

theorem diagonalLocal (hplace : place.Valid) (h : IsChunk place full part) {qs : List Nat}
    {entries : Buffer ℝ} (hqs : forall q, q ∈ qs -> q < place.width)
    (hlen : qs.length ≤ place.width) (hsize : entries.size = twoPow qs.length) :
    exists full' part', Kernel.diagonalUnitary place.register qs entries full = .ok full' ∧
      Kernel.diagonalUnitary place.width qs entries part = .ok part' ∧
      IsChunk place full' part' := by
  have hwidth := hplace.width_lt
  have hword := hplace.word_width
  have hregister : forall q, q ∈ qs -> q < place.register := by
    intro q hq
    have hlt := hqs q hq
    omega
  have htensor : twoPow (2 * qs.length) ≤ (entries.conj.tensor entries).size := by
    rw [twoPow_two_mul, Buffer.size_tensor, Buffer.size_conj, hsize]
  refine ⟨_, _,
    Kernel.diagonal_eq_ok (bothSides_lt_wordBits hplace.word hregister)
      (by rw [length_bothSides]; omega) (by rw [length_bothSides]; exact htensor),
    Kernel.diagonal_eq_ok (bothSides_lt_wordBits hword hqs)
      (by rw [length_bothSides]; omega) (by rw [length_bothSides]; exact htensor),
    h.tabulate hplace ?_⟩
  intro x hx
  rw [h.entry_eq x hx, ← Place.map_move_bothSides hqs,
    (Place.frame hplace).gather_map (lt_of_mem_bothSides hqs) hx]

theorem swap (hplace : place.Valid) (h : IsChunk place full part) {p q : Nat}
    (hp : p < place.width) (hq : q < place.width) :
    exists full' part', Kernel.swap place.register p q full = .ok full' ∧
      Kernel.swap place.width p q part = .ok part' ∧ IsChunk place full' part' := by
  rcases h.exchange hplace false hp hq with ⟨full1, part1, hfull1, hpart1, h1⟩
  rcases h1.exchange hplace true hp hq with ⟨full2, part2, hfull2, hpart2, h2⟩
  exact ⟨full2, part2, bind_eq_ok_iff.mpr ⟨full1, hfull1, hfull2⟩,
    bind_eq_ok_iff.mpr ⟨part1, hpart1, hpart2⟩, h2⟩

theorem pauli (hplace : place.Valid) (h : IsChunk place full part) {qs : List Nat}
    {string : String} (hspells : Spells qs string) (hnodup : qs.Nodup)
    (hqs : forall q, q ∈ qs -> q < place.width) :
    exists full' part',
      Kernel.pauli (bothSides place.register qs) (string ++ string) (ySign string) full
        = .ok full' ∧
      Kernel.pauli (bothSides place.width qs) (string ++ string) (ySign string) part
        = .ok part' ∧
      IsChunk place full' part' := by
  have hwidth := hplace.width_lt
  have hframe := Place.frame hplace
  have hregister : forall q, q ∈ qs -> q < place.register := by
    intro q hq
    have hlt := hqs q hq
    omega
  have hflipped : forall q, q ∈ flipped qs string -> q < place.width :=
    fun q hq => hqs q (mem_of_mem_flipped hq)
  have hsigned : forall q, q ∈ signed qs string -> q < place.width :=
    fun q hq => hqs q (mem_of_mem_signed hq)
  refine ⟨_, _, Kernel.pauli_eq_ok hspells hnodup hregister hplace.word h.full_size,
    Kernel.pauli_eq_ok hspells hnodup hqs hplace.word_width h.part_size,
    h.tabulate hplace ?_⟩
  intro x hx
  have hsource : x ^^^ bitMask (bothSides place.width (flipped qs string))
      < twoPow (2 * place.width) := xor_bitMask_lt (lt_of_mem_bothSides hflipped) hx
  have hembed := hframe.xor_bitMask_map (lt_of_mem_bothSides hflipped) hx
  rw [Place.map_move_bothSides hflipped] at hembed
  rw [h.entry_eq _ hsource, ← hembed, ← Place.map_move_bothSides hsigned]
  unfold signAt
  rw [hframe.countP_map (lt_of_mem_bothSides hsigned) hsource]

end IsChunk

end MixedState
