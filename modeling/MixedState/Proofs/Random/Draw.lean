import MixedState.Fault
import MixedState.Proofs.Density.Sampling
import MixedState.Random.Source

/-!
# Draws among weights

A draw stays below the total.  The number of running sums that it reaches is then the
index of a positive weight.  Over exact reals a single positive weight is always drawn.
-/

namespace MixedState

variable {R : Type} [Scalar R]

def scaledDraw (n : Nat) (total : R) : R :=
  Scalar.ofNat n / Scalar.ofNat drawSteps * drawScale 64 total total

def Source.step (source : Source) : Nat :=
  (source.peek >>> 12).toNat

theorem Source.step_lt (source : Source) : source.step < drawSteps := by
  have hword := source.peek.toNat_lt
  unfold Source.step
  rw [UInt64.toNat_shiftRight]
  change source.peek.toNat >>> 12 < 4503599627370496
  rw [Nat.shiftRight_eq_div_pow]
  omega

/-- Draws are not negative, and none reaches a finite total. -/
structure Scalar.Draws (R : Type) [Scalar R] : Prop extends Scalar.Accumulates R where
  le_zero : Scalar.le (0 : R) 0 = true
  lt_zero : Scalar.lt (0 : R) 0 = false
  le_of_lt : forall x : R, Scalar.lt 0 x = true -> Scalar.le 0 x = true
  scaledDraw_nonneg : forall (n : Nat) (total : R), n < drawSteps ->
    Scalar.lt 0 total = true -> Scalar.isFinite total = true ->
    Scalar.le 0 (scaledDraw n total) = true
  scaledDraw_lt : forall (n : Nat) (total : R), n < drawSteps ->
    Scalar.lt 0 total = true -> Scalar.isFinite total = true ->
    Scalar.le total (scaledDraw n total) = false

theorem clamp_eq (x : R) :
    Scalar.lt 0 x = true ∧ Scalar.clamp x = x ∨ Scalar.lt 0 x = false ∧ Scalar.clamp x = 0 := by
  unfold Scalar.clamp
  cases hx : Scalar.lt 0 x with
  | true =>
      exact Or.inl ⟨rfl, rfl⟩
  | false =>
      exact Or.inr ⟨rfl, rfl⟩

theorem Scalar.Draws.clamp_nonneg (laws : Scalar.Draws R) (x : R) :
    Scalar.le 0 (Scalar.clamp x) = true := by
  rcases clamp_eq x with ⟨hx, hclamp⟩ | ⟨_, hclamp⟩
  · rw [hclamp]
    exact laws.le_of_lt x hx
  · rw [hclamp]
    exact laws.le_zero

theorem Scalar.Draws.lt_getD (laws : Scalar.Draws R) {weights : List R} {i : Nat}
    (h : Scalar.lt 0 ((weights.map Scalar.clamp).getD i 0) = true) :
    Scalar.lt 0 (weights.getD i 0) = true := by
  rw [List.getD_eq_getElem?_getD, List.getElem?_map] at h
  rw [List.getD_eq_getElem?_getD]
  cases hi : weights[i]? with
  | none =>
      rw [hi] at h
      exact h
  | some x =>
      rw [hi] at h
      rcases clamp_eq x with ⟨hx, _⟩ | ⟨_, hclamp⟩
      · exact hx
      · change Scalar.lt 0 (Scalar.clamp x) = true at h
        rw [hclamp, laws.lt_zero] at h
        cases h

/-!
## Running sums
-/

theorem partialSums_cons (s w : R) (rest : List R) :
    partialSums s (w :: rest) = (s + w) :: partialSums (s + w) rest :=
  rfl

theorem runningSums_cons (w : R) (rest : List R) :
    runningSums (w :: rest) = w :: partialSums w rest :=
  rfl

theorem choiceAt_cons_of_le {s draw : R} {sums : List R} (hne : sums ≠ [])
    (h : Scalar.le s draw = true) : choiceAt (s :: sums) draw = choiceAt sums draw + 1 := by
  unfold choiceAt
  rw [List.dropLast_cons_of_ne_nil hne, List.filter_cons, if_pos h, List.length_cons]

theorem choiceAt_eq_zero {draw : R} {sums : List R}
    (h : forall s, s ∈ sums -> Scalar.le s draw = false) : choiceAt sums draw = 0 := by
  unfold choiceAt
  rw [List.length_eq_zero_iff, List.filter_eq_nil_iff]
  intro s hs
  rw [h s (List.dropLast_subset _ hs)]
  exact Bool.false_ne_true

namespace Scalar.Accumulates

variable {s draw total : R} {ws : List R}

theorem le_of_mem_partialSums (laws : Scalar.Accumulates R)
    (hnonneg : forall w, w ∈ ws -> Scalar.le 0 w = true) (hs : Scalar.le s draw = false) :
    forall x, x ∈ partialSums s ws -> Scalar.le x draw = false := by
  induction ws generalizing s with
  | nil =>
      intro x hx
      exact absurd hx List.not_mem_nil
  | cons w rest ih =>
      rcases List.forall_mem_cons.mp hnonneg with ⟨hw, hrest⟩
      have hsum : Scalar.le (s + w) draw = false := by
        apply Bool.eq_false_iff.mpr
        intro hle
        rw [laws.le_of_add_le s w draw hw hle] at hs
        cases hs
      intro x hx
      rcases List.mem_cons.mp hx with rfl | hx
      · exact hsum
      · exact ih hrest hsum x hx

/-- Either the draw reaches the first of the sums and goes on behind it, or it stays
below all of them. -/
theorem choiceAt_cases (laws : Scalar.Accumulates R)
    (hnonneg : forall w, w ∈ ws -> Scalar.le 0 w = true)
    (htotal : (s :: partialSums s ws).getLast? = some total)
    (htop : Scalar.le total draw = false) :
    Scalar.le s draw = true ∧ (partialSums s ws).getLast? = some total ∧
        choiceAt (s :: partialSums s ws) draw = choiceAt (partialSums s ws) draw + 1 ∨
      Scalar.le s draw = false ∧ choiceAt (s :: partialSums s ws) draw = 0 := by
  cases hle : Scalar.le s draw with
  | true =>
      left
      cases ws with
      | nil =>
          obtain rfl : s = total := Option.some.inj htotal
          rw [htop] at hle
          cases hle
      | cons w rest =>
          rw [partialSums_cons] at htotal ⊢
          rw [List.getLast?_cons_cons] at htotal
          exact ⟨rfl, htotal, choiceAt_cons_of_le (List.cons_ne_nil _ _) hle⟩
  | false =>
      right
      refine ⟨rfl, choiceAt_eq_zero ?_⟩
      intro x hx
      rcases List.mem_cons.mp hx with rfl | hx
      · exact hle
      · exact laws.le_of_mem_partialSums hnonneg hle x hx

/-- A draw between a start and the last sum from it on lands on a positive weight. -/
theorem lt_choiceAt (laws : Scalar.Accumulates R)
    (hnonneg : forall w, w ∈ ws -> Scalar.le 0 w = true) (hlow : Scalar.le s draw = true)
    (htotal : (partialSums s ws).getLast? = some total)
    (htop : Scalar.le total draw = false) :
    Scalar.lt 0 (ws.getD (choiceAt (partialSums s ws) draw) 0) = true := by
  induction ws generalizing s with
  | nil =>
      cases htotal
  | cons w rest ih =>
      rcases List.forall_mem_cons.mp hnonneg with ⟨hw, hrest⟩
      rw [partialSums_cons] at htotal ⊢
      rcases laws.choiceAt_cases hrest htotal htop with ⟨hle, hlast, hchoice⟩ | ⟨hle, hchoice⟩
      · rw [hchoice, List.getD_cons_succ]
        exact ih hrest hle hlast
      · rw [hchoice, List.getD_cons_zero]
        apply Bool.eq_true_of_not_eq_false
        intro hnull
        rw [laws.add_le_of_null s w draw hw hnull hlow] at hle
        cases hle

end Scalar.Accumulates

/-!
## The draw
-/

section Choose

variable {source source' : Source} {weights : List R} {o : Nat}

theorem choose_eq_ok_iff :
    source.choose weights = .ok (o, source') ↔
      exists total, (runningSums (weights.map Scalar.clamp)).getLast? = some total ∧
        Scalar.lt 0 total = true ∧ Scalar.isFinite total = true ∧
        o = choiceAt (runningSums (weights.map Scalar.clamp)) (scaledDraw source.step total) ∧
        source' = source.advance := by
  unfold Source.choose
  dsimp only
  cases (runningSums (weights.map Scalar.clamp)).getLast? with
  | none =>
      constructor
      · intro h
        cases h
      · rintro ⟨total, htotal, _⟩
        cases htotal
  | some total =>
      dsimp only
      by_cases hsum : Scalar.lt 0 total = true ∧ Scalar.isFinite total = true
      · rcases hsum with ⟨hpos, hfinite⟩
        rw [hpos, hfinite]
        constructor
        · intro h
          cases h
          exact ⟨total, rfl, hpos, hfinite, rfl, rfl⟩
        · rintro ⟨_, htotal, _, _, rfl, rfl⟩
          cases htotal
          rfl
      · constructor
        · intro h
          split at h
          · cases h
          · next hpos =>
              split at h
              · cases h
              · next hfinite =>
                  exact absurd ⟨by simpa using hpos, by simpa using hfinite⟩ hsum
        · rintro ⟨_, htotal, hpos, hfinite, _⟩
          cases htotal
          exact absurd ⟨hpos, hfinite⟩ hsum

theorem source_of_choose (h : source.choose weights = .ok (o, source')) :
    source' = source.advance := by
  rcases choose_eq_ok_iff.mp h with ⟨_, _, _, _, _, hsource⟩
  exact hsource

theorem lt_length_of_choose (h : source.choose weights = .ok (o, source')) :
    o < weights.length := by
  rcases choose_eq_ok_iff.mp h with ⟨total, htotal, _, _, ho, _⟩
  cases weights with
  | nil =>
      cases htotal
  | cons x rest =>
      have hfilter := List.length_filter_le
        (fun sum => Scalar.le sum (scaledDraw source.step total))
        (runningSums ((x :: rest).map Scalar.clamp)).dropLast
      rw [List.length_dropLast, List.map_cons, runningSums_cons, List.length_cons,
        length_partialSums, List.length_map, Nat.add_sub_cancel] at hfilter
      rw [ho, List.length_cons]
      exact Nat.lt_succ_of_le hfilter

theorem Scalar.Draws.lt_choose (laws : Scalar.Draws R)
    (h : source.choose weights = .ok (o, source')) : Scalar.lt 0 (weights.getD o 0) = true := by
  rcases choose_eq_ok_iff.mp h with ⟨total, htotal, hpos, hfinite, ho, _⟩
  have hlow := laws.scaledDraw_nonneg source.step total source.step_lt hpos hfinite
  have htop := laws.scaledDraw_lt source.step total source.step_lt hpos hfinite
  cases weights with
  | nil =>
      cases htotal
  | cons x rest =>
      rw [List.map_cons, runningSums_cons] at htotal ho
      have hrest : forall w, w ∈ rest.map Scalar.clamp -> Scalar.le 0 w = true := by
        intro w hw
        rcases List.mem_map.mp hw with ⟨y, _, rfl⟩
        exact laws.clamp_nonneg y
      rcases laws.choiceAt_cases hrest htotal htop with ⟨hle, hlast, hchoice⟩ | ⟨hle, hchoice⟩
      · rw [ho, hchoice, List.getD_cons_succ]
        exact laws.lt_getD (laws.lt_choiceAt hrest hle hlast htop)
      · rw [ho, hchoice, List.getD_cons_zero]
        rcases clamp_eq x with ⟨hx, _⟩ | ⟨_, hclamp⟩
        · exact hx
        · rw [hclamp, hlow] at hle
          cases hle

end Choose

/-!
## Draws over exact reals
-/

theorem drawScale_eq {fuel : Nat} {total : ℝ} (hpos : 0 < total) :
    drawScale (fuel + 1) total total = total := by
  have htop : (topDraw : ℝ) < 1 := by
    change (1 : ℝ) - 1 / ((drawSteps : Nat) : ℝ) < 1
    have hsteps : (0 : ℝ) < ((drawSteps : Nat) : ℝ) := by
      exact_mod_cast (by decide : 0 < drawSteps)
    have hinverse := one_div_pos.mpr hsteps
    linarith
  have hle : Scalar.le total (total * topDraw) = false := by
    apply decide_eq_false
    rw [not_le]
    nlinarith
  unfold drawScale
  rw [hle, if_neg Bool.false_ne_true]

theorem Scalar.draws_real : Scalar.Draws ℝ where
  toAccumulates := Scalar.accumulates_real
  le_zero := decide_eq_true (le_refl 0)
  lt_zero := decide_eq_false (lt_irrefl 0)
  le_of_lt x hx := decide_eq_true (le_of_lt (of_decide_eq_true hx))
  scaledDraw_nonneg n total _ hpos _ := by
    have hpos := of_decide_eq_true hpos
    apply decide_eq_true
    unfold scaledDraw
    rw [drawScale_eq hpos]
    exact mul_nonneg (div_nonneg (Nat.cast_nonneg n) (Nat.cast_nonneg _)) (le_of_lt hpos)
  scaledDraw_lt n total hn hpos _ := by
    have hpos := of_decide_eq_true hpos
    have hsteps : (0 : ℝ) < ((drawSteps : Nat) : ℝ) := by
      exact_mod_cast (by decide : 0 < drawSteps)
    have hcast : (n : ℝ) < ((drawSteps : Nat) : ℝ) := by
      exact_mod_cast hn
    apply decide_eq_false
    unfold scaledDraw
    rw [drawScale_eq hpos, not_le]
    exact mul_lt_of_lt_one_left hpos ((div_lt_one hsteps).mpr hcast)

theorem clamp_nonneg (x : ℝ) : 0 ≤ Scalar.clamp x :=
  of_decide_eq_true (Scalar.draws_real.clamp_nonneg x)

theorem clamp_pos {x : ℝ} (hx : 0 < x) : 0 < Scalar.clamp x := by
  have hlt : Scalar.lt 0 x = true := decide_eq_true hx
  unfold Scalar.clamp
  rw [if_pos hlt]
  exact hx

theorem getLast?_partialSums (s w : ℝ) (rest : List ℝ) :
    (partialSums s (w :: rest)).getLast? = some (s + (w :: rest).sum) := by
  induction rest generalizing s w with
  | nil =>
      simp [partialSums]
  | cons v rest ih =>
      have hsum : (w :: v :: rest).sum = w + (v :: rest).sum := List.sum_cons
      rw [partialSums_cons, List.getLast?_cons, ih, Option.getD_some, hsum, add_assoc]

theorem exists_choose {weights : List ℝ} (source : Source)
    (hpos : 0 < (weights.map Scalar.clamp).sum) :
    exists o, source.choose weights = .ok (o, source.advance) := by
  have htotal : (runningSums (weights.map Scalar.clamp)).getLast? =
      some (weights.map Scalar.clamp).sum := by
    cases hmap : weights.map Scalar.clamp with
    | nil =>
        rw [hmap] at hpos
        exact absurd hpos (lt_irrefl 0)
    | cons w rest =>
        have hsums := getLast?_partialSums 0 w rest
        rw [partialSums_cons, zero_add, zero_add] at hsums
        exact hsums
  exact ⟨_, choose_eq_ok_iff.mpr ⟨_, htotal, decide_eq_true hpos, rfl, rfl, rfl⟩⟩

theorem pos_of_choose_eq_ok {source source' : Source} {weights : List ℝ} {o : Nat}
    (h : source.choose weights = .ok (o, source')) :
    o < weights.length ∧ 0 < weights.getD o 0 ∧ source' = source.advance := by
  have hpos := of_decide_eq_true (Scalar.draws_real.lt_choose h)
  exact ⟨lt_length_of_choose h, hpos, source_of_choose h⟩

theorem choose_of_single {weights : List ℝ} {o : Nat} (source : Source)
    (hpos : 0 < weights.getD o 0) (hother : forall i, i ≠ o -> weights.getD i 0 ≤ 0) :
    source.choose weights = .ok (o, source.advance) := by
  have hlt : o < weights.length := by
    by_contra hfar
    rw [List.getD_eq_getElem?_getD, List.getElem?_eq_none (not_lt.mp hfar)] at hpos
    exact lt_irrefl 0 hpos
  rw [List.getD_eq_getElem?_getD, List.getElem?_eq_getElem hlt, Option.getD_some] at hpos
  have hnonneg : forall w, w ∈ weights.map Scalar.clamp -> 0 ≤ w := by
    intro w hw
    rcases List.mem_map.mp hw with ⟨x, _, rfl⟩
    exact clamp_nonneg x
  have hsum : 0 < (weights.map Scalar.clamp).sum :=
    lt_of_lt_of_le (clamp_pos hpos)
      (List.single_le_sum hnonneg _ (List.mem_map_of_mem (List.getElem_mem hlt)))
  rcases exists_choose source hsum with ⟨o', hchoose⟩
  rcases pos_of_choose_eq_ok hchoose with ⟨_, hdrawn, _⟩
  by_cases hsame : o' = o
  · rw [hsame] at hchoose
    exact hchoose
  · exact absurd (lt_of_lt_of_le hdrawn (hother _ hsame)) (lt_irrefl 0)

end MixedState
