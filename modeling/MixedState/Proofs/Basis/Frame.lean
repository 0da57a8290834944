import MixedState.Proofs.Density.Kernel

/-!
# Frames

A frame embeds indices of `m` bits into longer ones: bit `p` goes to bit `move p`
and every other bit is fixed.  The rows of one column, the columns of one row and
the entries of one chunk are frames of a buffer.  Reading, overwriting and
flipping bits commute with a frame, and so does a matrix that acts on them.
-/

namespace MixedState

/-- `embed` moves bit `p` below `m` to bit `move p`; the other bits do not depend on
the index. -/
structure Frame (m : Nat) (move embed : Nat -> Nat) : Prop where
  bit : forall p x, p < m -> x < twoPow m -> (embed x).testBit (move p) = x.testBit p
  fixed : forall s x y, (forall p, p < m -> move p ≠ s) -> x < twoPow m -> y < twoPow m ->
    (embed x).testBit s = (embed y).testBit s
  injective : forall p q, p < m -> q < m -> move p = move q -> p = q

namespace Basis

theorem getElem?_getD {qs : List Nat} {j : Nat} (hj : j < qs.length) :
    qs[j]? = some (qs.getD j 0) := by
  rw [List.getD_eq_getElem?_getD, List.getElem?_eq_getElem hj]
  rfl

theorem map_getD_range (qs : List Nat) :
    (List.range qs.length).map (fun j => qs.getD j 0) = qs := by
  apply List.ext_getElem
  · simp
  · intro j hj hj'
    simp [hj']

end Basis

namespace Frame

open MixedState.Basis

variable {m : Nat} {move embed : Nat -> Nat} {qs : List Nat} {x : Nat}

theorem gather_map (frame : Frame m move embed) (hqs : forall q, q ∈ qs -> q < m)
    (hx : x < twoPow m) : gather (qs.map move) (embed x) = gather qs x :=
  Basis.gather_map fun q hq => frame.bit q x (hqs q hq) hx

theorem covers_map (frame : Frame m move embed) (hqs : forall q, q ∈ qs -> q < m)
    (hx : x < twoPow m) :
    covers (bitMask (qs.map move)) (embed x) = covers (bitMask qs) x := by
  rw [covers_bitMask_eq_all, covers_bitMask_eq_all, List.all_map, Bool.eq_iff_iff,
    List.all_eq_true, List.all_eq_true]
  constructor
  · intro h q hq
    rw [← frame.bit q x (hqs q hq) hx]
    exact h q hq
  · intro h q hq
    change (embed x).testBit (move q) = true
    rw [frame.bit q x (hqs q hq) hx]
    exact h q hq

theorem countP_map (frame : Frame m move embed) (hqs : forall q, q ∈ qs -> q < m)
    (hx : x < twoPow m) :
    (qs.map move).countP (embed x).testBit = qs.countP x.testBit := by
  rw [List.countP_map]
  apply List.countP_congr
  intro q hq
  rw [← frame.bit q x (hqs q hq) hx]
  rfl

theorem mem_map_iff (frame : Frame m move embed) (hqs : forall q, q ∈ qs -> q < m) {p : Nat}
    (hp : p < m) : move p ∈ qs.map move ↔ p ∈ qs := by
  constructor
  · intro h
    rcases List.mem_map.mp h with ⟨q, hq, hmove⟩
    rw [← frame.injective q p (hqs q hq) hp hmove]
    exact hq
  · exact List.mem_map_of_mem

theorem nodup_map (frame : Frame m move embed) (hqs : forall q, q ∈ qs -> q < m)
    (hnodup : qs.Nodup) : (qs.map move).Nodup := by
  apply List.Nodup.map_on _ hnodup
  intro p hp q hq h
  exact frame.injective p q (hqs p hp) (hqs q hq) h

theorem embed_eq (frame : Frame m move embed) {z : Nat} (hx : x < twoPow m)
    (hmoved : forall p, p < m -> z.testBit (move p) = x.testBit p)
    (hfixed : forall s, (forall p, p < m -> move p ≠ s) -> z.testBit s = (embed x).testBit s) :
    embed x = z := by
  apply Nat.eq_of_testBit_eq
  intro s
  by_cases hs : exists p, p < m ∧ move p = s
  · rcases hs with ⟨p, hp, rfl⟩
    rw [frame.bit p x hp hx, hmoved p hp]
  · exact (hfixed s fun p hp hmove => hs ⟨p, hp, hmove⟩).symm

theorem overwrite_map (frame : Frame m move embed) (hqs : forall q, q ∈ qs -> q < m)
    (hnodup : qs.Nodup) (hx : x < twoPow m) (y : Nat) :
    embed (overwrite qs x y) = overwrite (qs.map move) (embed x) y := by
  have hlt : overwrite qs x y < twoPow m := overwrite_lt y hqs hx
  apply frame.embed_eq hlt
  · intro p hp
    by_cases hmem : p ∈ qs
    · rcases List.mem_iff_getElem?.mp hmem with ⟨j, hj⟩
      have hmap : (qs.map move)[j]? = some (move p) := by
        rw [List.getElem?_map, hj]
        rfl
      rw [testBit_overwrite _ y (frame.nodup_map hqs hnodup) hmap,
        testBit_overwrite x y hnodup hj]
    · have hmap : move p ∉ qs.map move := fun h => hmem ((frame.mem_map_iff hqs hp).mp h)
      rw [testBit_overwrite_of_not_mem _ y hmap, testBit_overwrite_of_not_mem x y hmem,
        frame.bit p x hp hx]
  · intro s hs
    have hmap : s ∉ qs.map move := by
      intro h
      rcases List.mem_map.mp h with ⟨q, hq, hmove⟩
      exact hs q (hqs q hq) hmove
    rw [testBit_overwrite_of_not_mem _ y hmap]
    exact frame.fixed s x _ hs hx hlt

theorem xor_bitMask_map (frame : Frame m move embed) (hqs : forall q, q ∈ qs -> q < m)
    (hx : x < twoPow m) :
    embed (x ^^^ bitMask qs) = embed x ^^^ bitMask (qs.map move) := by
  have hlt : x ^^^ bitMask qs < twoPow m := xor_bitMask_lt hqs hx
  apply frame.embed_eq hlt
  · intro p hp
    rw [Nat.testBit_xor, Nat.testBit_xor, frame.bit p x hp hx, testBit_bitMask,
      testBit_bitMask, decide_eq_decide.mpr (frame.mem_map_iff hqs hp)]
  · intro s hs
    have hmap : s ∉ qs.map move := by
      intro h
      rcases List.mem_map.mp h with ⟨q, hq, hmove⟩
      exact hs q (hqs q hq) hmove
    rw [Nat.testBit_xor, testBit_bitMask, decide_eq_false hmap, Bool.xor_false]
    exact frame.fixed s x _ hs hx hlt

theorem xor_twoPow_move (frame : Frame m move embed) {p : Nat} (hp : p < m)
    (hx : x < twoPow m) : embed (x ^^^ twoPow p) = embed x ^^^ twoPow (move p) := by
  have h : embed (x ^^^ bitMask [p]) = embed x ^^^ bitMask [move p] :=
    frame.xor_bitMask_map (by simpa using hp) hx
  simpa using h

theorem act_map (frame : Frame m move embed) (hqs : forall q, q ∈ qs -> q < m)
    (hnodup : qs.Nodup) (hx : x < twoPow m) (u : Nat -> Nat -> Amplitude ℝ)
    (f : Nat -> Amplitude ℝ) :
    act (qs.map move) u f (embed x) = act qs u (fun y => f (embed y)) x := by
  unfold act
  rw [List.length_map, frame.gather_map hqs hx]
  apply Finset.sum_congr rfl
  intro j _
  rw [← frame.overwrite_map hqs hnodup hx]

/-!
## Listed bits
-/

theorem listed (x : Nat) (hnodup : qs.Nodup) :
    Frame qs.length (fun j => qs.getD j 0) (overwrite qs x) where
  bit j y hj _ := testBit_overwrite x y hnodup (getElem?_getD hj)
  fixed s y z hs _ _ := by
    have hmem : s ∉ qs := by
      intro h
      rcases List.mem_iff_getElem?.mp h with ⟨j, hj⟩
      have hlt : j < qs.length := (List.getElem?_eq_some_iff.mp hj).1
      exact hs j hlt (Option.some.inj ((getElem?_getD hlt).symm.trans hj))
    rw [testBit_overwrite_of_not_mem x y hmem, testBit_overwrite_of_not_mem x z hmem]
  injective i j hi hj h := by
    have hsame : qs[i]? = qs[j]? := by
      rw [getElem?_getD hi, getElem?_getD hj, h]
    exact (List.getElem?_inj hi hnodup).mp hsame

/-!
## Rows and columns of a buffer
-/

theorem rows (n c : Nat) : Frame n id (fun r => cell n r c) where
  bit p r hp hr := testBit_cell_row c hr hp
  fixed s r r' hs hr hr' := by
    have hsn : ¬s < n := fun h => hs s h rfl
    rw [testBit_cell c s hr, testBit_cell c s hr', if_neg hsn, if_neg hsn]
  injective _ _ _ _ h := h

theorem columns {n r : Nat} (hr : r < twoPow n) :
    Frame n (fun q => q + n) (fun c => cell n r c) where
  bit p c _ _ := testBit_cell_column c p hr
  fixed s c c' hs hc hc' := by
    by_cases hsn : s < n
    · rw [testBit_cell c s hr, testBit_cell c' s hr, if_pos hsn, if_pos hsn]
    · have hfar : n ≤ s - n := by
        by_contra hnear
        exact hs (s - n) (by omega) (by omega)
      rw [testBit_cell c s hr, testBit_cell c' s hr, if_neg hsn, if_neg hsn,
        (lt_twoPow_iff c n).mp hc _ hfar, (lt_twoPow_iff c' n).mp hc' _ hfar]
  injective p q _ _ h := by omega

end Frame

end MixedState
