import MixedState.Proofs.Exact

/-!
# Density matrices and channels

A density matrix has trace one, is Hermitian, and no vector gives it a negative
expectation.  A channel is a list of matrices `K` and sends `ρ` to `Σ K ρ K†`; when
`Σ K† K` is the identity, it sends density matrices to density matrices.
-/

namespace MixedState

/-- A matrix by its entries, of which those below a dimension count. -/
abbrev Entries :=
  Nat -> Nat -> Amplitude ℝ

def Amplitude.IsNonneg (a : Amplitude ℝ) : Prop :=
  a.im = 0 ∧ 0 ≤ a.re

theorem Amplitude.isNonneg_zero : IsNonneg 0 :=
  ⟨rfl, le_refl 0⟩

theorem Amplitude.IsNonneg.add {a b : Amplitude ℝ} (ha : a.IsNonneg) (hb : b.IsNonneg) :
    (a + b).IsNonneg := by
  rcases ha with ⟨haIm, haRe⟩
  rcases hb with ⟨hbIm, hbRe⟩
  constructor
  · rw [Amplitude.add_im, haIm, hbIm, add_zero]
  · rw [Amplitude.add_re]
    exact add_nonneg haRe hbRe

noncomputable def expectation (d : Nat) (ρ : Entries) (v : Nat -> Amplitude ℝ) : Amplitude ℝ :=
  ∑ r ∈ Finset.range d, ∑ c ∈ Finset.range d, (v r).conj * ρ r c * v c

structure IsPositive (d : Nat) (ρ : Entries) : Prop where
  hermitian : forall r c, r < d -> c < d -> ρ r c = (ρ c r).conj
  positive : forall v, (expectation d ρ v).IsNonneg

structure IsDensity (d : Nat) (ρ : Entries) : Prop extends IsPositive d ρ where
  trace : ∑ i ∈ Finset.range d, ρ i i = 1

/-- `K ρ K†`. -/
noncomputable def sandwich (d : Nat) (k ρ : Entries) : Entries :=
  fun r c => ∑ a ∈ Finset.range d, ∑ b ∈ Finset.range d, k r a * ρ a b * (k c b).conj

noncomputable def channel (d : Nat) (ks : List Entries) (ρ : Entries) : Entries :=
  fun r c => (ks.map fun k => sandwich d k ρ r c).sum

/-- `K† K` for a matrix of `m` rows. -/
noncomputable def gram (m : Nat) (k : Entries) : Entries :=
  fun a b => ∑ r ∈ Finset.range m, (k r a).conj * k r b

def IsComplete (d : Nat) (ks : List Entries) : Prop :=
  forall a b, a < d -> b < d -> (ks.map fun k => gram d k a b).sum = if a = b then 1 else 0

variable {d : Nat} {ρ σ : Entries} {k : Entries} {ks : List Entries}

/-!
## Equal entries
-/

theorem expectation_congr (h : forall r c, r < d -> c < d -> σ r c = ρ r c)
    (v : Nat -> Amplitude ℝ) : expectation d σ v = expectation d ρ v := by
  apply Finset.sum_congr rfl
  intro r hr
  apply Finset.sum_congr rfl
  intro c hc
  rw [h r c (Finset.mem_range.mp hr) (Finset.mem_range.mp hc)]

theorem IsPositive.congr (hρ : IsPositive d ρ)
    (h : forall r c, r < d -> c < d -> σ r c = ρ r c) : IsPositive d σ where
  hermitian r c hr hc := by
    rw [h r c hr hc, h c r hc hr]
    exact hρ.hermitian r c hr hc
  positive v := by
    rw [expectation_congr h]
    exact hρ.positive v

theorem IsDensity.congr (hρ : IsDensity d ρ)
    (h : forall r c, r < d -> c < d -> σ r c = ρ r c) : IsDensity d σ where
  toIsPositive := hρ.toIsPositive.congr h
  trace := by
    rw [← hρ.trace]
    apply Finset.sum_congr rfl
    intro i hi
    exact h i i (Finset.mem_range.mp hi) (Finset.mem_range.mp hi)

/-!
## Sandwiches
-/

theorem sum_comm_pairs (f : Nat -> Nat -> Nat -> Nat -> Amplitude ℝ) :
    ∑ r ∈ Finset.range d, ∑ c ∈ Finset.range d, ∑ a ∈ Finset.range d,
        ∑ b ∈ Finset.range d, f r c a b =
      ∑ a ∈ Finset.range d, ∑ b ∈ Finset.range d, ∑ r ∈ Finset.range d,
        ∑ c ∈ Finset.range d, f r c a b := by
  calc
    _ = ∑ r ∈ Finset.range d, ∑ a ∈ Finset.range d, ∑ c ∈ Finset.range d,
          ∑ b ∈ Finset.range d, f r c a b :=
        Finset.sum_congr rfl fun r _ => Finset.sum_comm
    _ = ∑ a ∈ Finset.range d, ∑ r ∈ Finset.range d, ∑ b ∈ Finset.range d,
          ∑ c ∈ Finset.range d, f r c a b := by
        rw [Finset.sum_comm]
        exact Finset.sum_congr rfl fun a _ => Finset.sum_congr rfl fun r _ => Finset.sum_comm
    _ = _ := Finset.sum_congr rfl fun a _ => Finset.sum_comm

theorem expectation_sandwich (k ρ : Entries) (v : Nat -> Amplitude ℝ) :
    expectation d (sandwich d k ρ) v =
      expectation d ρ fun a => ∑ r ∈ Finset.range d, (k r a).conj * v r := by
  have hleft : forall r c, (v r).conj * sandwich d k ρ r c * v c =
      ∑ a ∈ Finset.range d, ∑ b ∈ Finset.range d,
        (v r).conj * (k r a * ρ a b * (k c b).conj) * v c := by
    intro r c
    unfold sandwich
    simp only [Finset.mul_sum, Finset.sum_mul]
  have hright : forall a b,
      (∑ r ∈ Finset.range d, (k r a).conj * v r).conj * ρ a b *
          (∑ c ∈ Finset.range d, (k c b).conj * v c) =
        ∑ r ∈ Finset.range d, ∑ c ∈ Finset.range d,
          (v r).conj * (k r a * ρ a b * (k c b).conj) * v c := by
    intro a b
    rw [Amplitude.conj_sum, Finset.sum_mul, Finset.sum_mul_sum]
    apply Finset.sum_congr rfl
    intro r _
    apply Finset.sum_congr rfl
    intro c _
    rw [Amplitude.conj_mul, Amplitude.conj_conj]
    ring
  unfold expectation
  simp only [hleft, hright]
  exact sum_comm_pairs _

theorem IsPositive.sandwich (hρ : IsPositive d ρ) (k : Entries) :
    IsPositive d (sandwich d k ρ) where
  hermitian r c hr hc := by
    unfold MixedState.sandwich
    rw [Amplitude.conj_sum, Finset.sum_comm]
    apply Finset.sum_congr rfl
    intro b hb
    rw [Amplitude.conj_sum]
    apply Finset.sum_congr rfl
    intro a ha
    rw [hρ.hermitian a b (Finset.mem_range.mp ha) (Finset.mem_range.mp hb)]
    simp only [Amplitude.conj_mul, Amplitude.conj_conj]
    ring
  positive v := by
    rw [expectation_sandwich]
    exact hρ.positive _

theorem trace_sandwich (k ρ : Entries) :
    ∑ r ∈ Finset.range d, sandwich d k ρ r r =
      ∑ a ∈ Finset.range d, ∑ b ∈ Finset.range d, ρ a b * gram d k b a := by
  unfold sandwich gram
  rw [Finset.sum_comm]
  apply Finset.sum_congr rfl
  intro a _
  rw [Finset.sum_comm]
  apply Finset.sum_congr rfl
  intro b _
  rw [Finset.mul_sum]
  apply Finset.sum_congr rfl
  intro r _
  ring

/-!
## Channels
-/

theorem isPositive_zero : IsPositive d fun _ _ => 0 where
  hermitian _ _ _ _ := Amplitude.conj_zero.symm
  positive v := by
    simp [expectation, Amplitude.isNonneg_zero]

theorem IsPositive.add (hρ : IsPositive d ρ) (hσ : IsPositive d σ) :
    IsPositive d fun r c => ρ r c + σ r c where
  hermitian r c hr hc := by
    rw [Amplitude.conj_add, ← hρ.hermitian r c hr hc, ← hσ.hermitian r c hr hc]
  positive v := by
    have hsum : expectation d (fun r c => ρ r c + σ r c) v =
        expectation d ρ v + expectation d σ v := by
      unfold expectation
      simp only [mul_add, add_mul, Finset.sum_add_distrib]
    rw [hsum]
    exact (hρ.positive v).add (hσ.positive v)

theorem IsPositive.channel (hρ : IsPositive d ρ) (ks : List Entries) :
    IsPositive d (channel d ks ρ) := by
  induction ks with
  | nil =>
      exact isPositive_zero
  | cons k rest ih =>
      exact (hρ.sandwich k).add ih

theorem trace_channel (ks : List Entries) (ρ : Entries) :
    ∑ r ∈ Finset.range d, channel d ks ρ r r =
      ∑ a ∈ Finset.range d, ∑ b ∈ Finset.range d,
        ρ a b * (ks.map fun k => gram d k b a).sum := by
  induction ks with
  | nil =>
      simp [channel]
  | cons k rest ih =>
      have hcons : forall r, channel d (k :: rest) ρ r r =
          sandwich d k ρ r r + channel d rest ρ r r := fun _ => List.sum_cons
      simp only [hcons, List.map_cons, List.sum_cons, mul_add, Finset.sum_add_distrib]
      rw [ih, trace_sandwich]

theorem IsDensity.channel (hρ : IsDensity d ρ) (hks : IsComplete d ks) :
    IsDensity d (channel d ks ρ) where
  toIsPositive := hρ.toIsPositive.channel ks
  trace := by
    rw [trace_channel, ← hρ.trace]
    apply Finset.sum_congr rfl
    intro a ha
    rw [← sum_range_single (Finset.mem_range.mp ha) fun b => ρ a b]
    apply Finset.sum_congr rfl
    intro b hb
    rw [hks b a (Finset.mem_range.mp hb) (Finset.mem_range.mp ha)]
    split <;> simp

/-!
## Matrices with one entry in each row
-/

/-- The matrix that takes row `r` of a vector from row `π r` and multiplies it by `φ r`. -/
noncomputable def monomial (π : Nat -> Nat) (φ : Nat -> Amplitude ℝ) : Entries :=
  fun r a => if a = π r then φ r else 0

theorem sandwich_monomial {π : Nat -> Nat} {φ : Nat -> Amplitude ℝ}
    (hπ : forall x, x < d -> π x < d) {r c : Nat} (hr : r < d) (hc : c < d) :
    sandwich d (monomial π φ) ρ r c = φ r * ρ (π r) (π c) * (φ c).conj := by
  have hcolumns : forall a,
      ∑ b ∈ Finset.range d, monomial π φ r a * ρ a b * (monomial π φ c b).conj =
      if a = π r then φ r * ρ a (π c) * (φ c).conj else 0 := by
    intro a
    unfold monomial
    split
    · rw [← sum_range_single (hπ c hc) fun b => φ r * ρ a b * (φ c).conj]
      apply Finset.sum_congr rfl
      intro b _
      split
      · rfl
      · rw [Amplitude.conj_zero, mul_zero]
    · simp
  unfold sandwich
  simp only [hcolumns]
  exact sum_range_single (hπ r hr) fun a => φ r * ρ a (π c) * (φ c).conj

theorem isComplete_monomial {π : Nat -> Nat} {φ : Nat -> Amplitude ℝ}
    (hπ : forall x, x < d -> π x < d) (hinvolution : forall x, x < d -> π (π x) = x)
    (hφ : forall x, x < d -> (φ x).IsPhase) : IsComplete d [monomial π φ] := by
  intro a b ha hb
  have hterm : forall r, r ∈ Finset.range d ->
      (monomial π φ r a).conj * monomial π φ r b =
        if r = π a then (if a = b then 1 else 0) else 0 := by
    intro r hr
    have hrd := Finset.mem_range.mp hr
    unfold monomial
    by_cases har : a = π r
    · have hra : r = π a := by
        rw [har, hinvolution r hrd]
      by_cases hab : a = b
      · rw [if_pos har, if_pos hra, if_pos (hab ▸ har), if_pos hab]
        exact (hφ r hrd).conj_mul
      · have hbr : ¬b = π r := fun h => hab (har.trans h.symm)
        rw [if_neg hbr, if_pos hra, if_neg hab, mul_zero]
    · have hra : ¬r = π a := by
        intro h
        exact har (by rw [h, hinvolution a ha])
      rw [if_neg har, if_neg hra, Amplitude.conj_zero, zero_mul]
  rw [List.map_singleton, List.sum_singleton]
  unfold gram
  rw [Finset.sum_congr rfl hterm]
  exact sum_range_single (hπ a ha) fun _ => if a = b then (1 : Amplitude ℝ) else 0

theorem IsDensity.monomial (hρ : IsDensity d ρ) {π : Nat -> Nat} {φ : Nat -> Amplitude ℝ}
    (hπ : forall x, x < d -> π x < d) (hinvolution : forall x, x < d -> π (π x) = x)
    (hφ : forall x, x < d -> (φ x).IsPhase)
    (hσ : forall r c, r < d -> c < d -> σ r c = φ r * ρ (π r) (π c) * (φ c).conj) :
    IsDensity d σ := by
  apply (hρ.channel (isComplete_monomial hπ hinvolution hφ)).congr
  intro r c hr hc
  rw [hσ r c hr hc, ← sandwich_monomial hπ hr hc]
  exact List.sum_singleton.symm

/-!
## Diagonals of positive matrices
-/

theorem sum_mul_two_entries {x y : Nat} (hx : x < d) (hy : y < d) (a : Amplitude ℝ)
    (f : Nat -> Amplitude ℝ) :
    ∑ i ∈ Finset.range d, f i * ((if i = x then a else 0) + if i = y then 1 else 0) =
      f x * a + f y := by
  simp only [mul_add, mul_ite, mul_zero, mul_one, Finset.sum_add_distrib]
  rw [sum_range_single hx fun i => f i * a, sum_range_single hy f]

theorem expectation_two_entries {x y : Nat} (hx : x < d) (hy : y < d) (a : Amplitude ℝ) :
    expectation d ρ (fun i => (if i = x then a else 0) + if i = y then 1 else 0) =
      a.conj * (ρ x x * a + ρ x y) + (ρ y x * a + ρ y y) := by
  have hrow : forall r, ∑ c ∈ Finset.range d,
      ((if r = x then a else 0) + if r = y then 1 else 0).conj * ρ r c *
        ((if c = x then a else 0) + if c = y then 1 else 0) =
      (ρ r x * a + ρ r y) * ((if r = x then a.conj else 0) + if r = y then 1 else 0) := by
    intro r
    rw [sum_mul_two_entries hx hy, Amplitude.conj_add, Amplitude.conj_ite, Amplitude.conj_ite,
      Amplitude.conj_zero, Amplitude.conj_one]
    ring
  unfold expectation
  simp only [hrow]
  rw [sum_mul_two_entries hx hy]
  ring

theorem IsPositive.isNonneg_diagonal (hρ : IsPositive d ρ) {x : Nat} (hx : x < d) :
    (ρ x x).IsNonneg := by
  have hform := hρ.positive fun i => (if i = x then 0 else 0) + if i = x then 1 else 0
  rw [expectation_two_entries hx hx, Amplitude.conj_zero, zero_mul, mul_zero, zero_add,
    zero_add] at hform
  exact hform

/-- Where the diagonal of a positive matrix vanishes, so does the row: its product with any
other entry would make an expectation negative. -/
theorem IsPositive.eq_zero_of_diagonal (hρ : IsPositive d ρ) {x y : Nat} (hx : x < d)
    (hy : y < d) (h : ρ x x = 0) : ρ x y = 0 := by
  have hform : forall t : ℝ, 0 ≤ (ρ y y).re -
      2 * t * ((ρ x y).re * (ρ x y).re + (ρ x y).im * (ρ x y).im) := by
    intro t
    have hbound := (hρ.positive fun i =>
      (if i = x then Amplitude.ofReal (-t) * ρ x y else 0) + if i = y then 1 else 0).2
    rw [expectation_two_entries hx hy, h, hρ.hermitian y x hy hx] at hbound
    simp at hbound
    linarith
  have hself := hform 0
  by_contra hne
  have hpos : 0 < (ρ x y).re * (ρ x y).re + (ρ x y).im * (ρ x y).im := by
    rcases lt_or_eq_of_le (add_nonneg (mul_self_nonneg (ρ x y).re) (mul_self_nonneg (ρ x y).im))
      with hlt | heq
    · exact hlt
    · rcases mul_self_add_mul_self_eq_zero.mp heq.symm with ⟨hre, him⟩
      exact absurd (Amplitude.ext hre him) hne
  have hbelow := hform (((ρ y y).re + 1) /
    ((ρ x y).re * (ρ x y).re + (ρ x y).im * (ρ x y).im))
  rw [mul_assoc, div_mul_cancel₀ _ (ne_of_gt hpos)] at hbelow
  linarith

/-!
## Pure states
-/

theorem isNonneg_conj_mul_self (a : Amplitude ℝ) : (a.conj * a).IsNonneg := by
  constructor
  · rw [Amplitude.mul_im, Amplitude.conj_re, Amplitude.conj_im]
    ring
  · rw [Amplitude.mul_re, Amplitude.conj_re, Amplitude.conj_im]
    nlinarith [mul_self_nonneg a.re, mul_self_nonneg a.im]

theorem isDensity_outer {psi : Nat -> Amplitude ℝ}
    (hunit : ∑ i ∈ Finset.range d, psi i * (psi i).conj = 1) :
    IsDensity d fun r c => psi r * (psi c).conj where
  hermitian r c _ _ := by
    rw [Amplitude.conj_mul, Amplitude.conj_conj, mul_comm]
  positive v := by
    have hsquare : expectation d (fun r c => psi r * (psi c).conj) v =
        (∑ c ∈ Finset.range d, (psi c).conj * v c).conj *
          ∑ c ∈ Finset.range d, (psi c).conj * v c := by
      rw [Amplitude.conj_sum, Finset.sum_mul_sum]
      apply Finset.sum_congr rfl
      intro r _
      apply Finset.sum_congr rfl
      intro c _
      rw [Amplitude.conj_mul, Amplitude.conj_conj]
      ring
    rw [hsquare]
    exact isNonneg_conj_mul_self _
  trace := hunit

end MixedState
