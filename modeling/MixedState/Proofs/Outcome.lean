import MixedState.Density.Store
import MixedState.Proofs.Basis.Bits

/-!
# How computations end

A computation gives a value, is refused or crashes.  These are the ways to say which of the
three it does, and each goes through the steps of a computation.
-/

namespace MixedState

theorem checkedShift_of_lt {amount : Nat} (h : amount < wordBits) :
    checkedShift amount = .ok (twoPow amount) :=
  checkedShift_eq_ok_iff.mpr ⟨h, rfl⟩

theorem checkedShift_of_le {amount : Nat} (h : wordBits ≤ amount) :
    checkedShift amount = crash :=
  if_neg (Nat.not_lt_of_le h)

theorem orCrash_of_true {condition : Bool} (h : condition = true) :
    orCrash condition = .ok () :=
  orCrash_eq_ok_iff.mpr h

theorem checkedMul_of_lt {a b : Nat} (h : a * b < wordSize) :
    checkedMul a b = .ok (a * b) :=
  checkedMul_eq_ok_iff.mpr ⟨h, rfl⟩

theorem allocate_of_lt {bytes n : Nat} (h : n * bytes < bufferLimit) :
    allocate bytes n = .ok () :=
  orCrash_of_true (decide_eq_true h)

theorem allocate_of_le {bytes n : Nat} (h : bufferLimit ≤ n * bytes) :
    allocate bytes n = crash :=
  if_neg fun hlt => absurd (of_decide_eq_true hlt) (Nat.not_lt_of_le h)

theorem twoPow_mul_lt_bufferLimit_iff {j k : Nat} :
    twoPow k * twoPow j < bufferLimit ↔ k + j < 63 := by
  have hlimit : bufferLimit = twoPow 63 := rfl
  rw [← twoPow_add, hlimit]
  constructor
  · intro h
    by_contra hle
    exact absurd h (Nat.not_lt_of_le (twoPow_le_twoPow (Nat.le_of_not_lt hle)))
  · exact twoPow_lt_twoPow

theorem twoPow_mul_eight_lt_iff {k : Nat} : twoPow k * 8 < bufferLimit ↔ k < 60 :=
  (twoPow_mul_lt_bufferLimit_iff (j := 3)).trans (by omega)

theorem twoPow_mul_sixteen_lt_iff {k : Nat} : twoPow k * 16 < bufferLimit ↔ k < 59 :=
  (twoPow_mul_lt_bufferLimit_iff (j := 4)).trans (by omega)

theorem allocate_eight_of_lt {k : Nat} (hk : k < 60) : allocate 8 (twoPow k) = .ok () :=
  allocate_of_lt (twoPow_mul_eight_lt_iff.mpr hk)

theorem allocate_eight_of_le {k : Nat} (hk : 60 ≤ k) : allocate 8 (twoPow k) = crash :=
  allocate_of_le (Nat.le_of_not_lt fun h => absurd (twoPow_mul_eight_lt_iff.mp h) (by omega))

theorem allocate_sixteen_of_lt {k : Nat} (hk : k < 59) : allocate 16 (twoPow k) = .ok () :=
  allocate_of_lt (twoPow_mul_sixteen_lt_iff.mpr hk)

theorem allocate_sixteen_of_le {k : Nat} (hk : 59 ≤ k) : allocate 16 (twoPow k) = crash :=
  allocate_of_le (Nat.le_of_not_lt fun h => absurd (twoPow_mul_sixteen_lt_iff.mp h) (by omega))

theorem allocate_eq_ok_iff {bytes n : Nat} :
    allocate bytes n = .ok () ↔ n * bytes < bufferLimit :=
  orCrash_eq_ok_iff.trans decide_eq_true_iff

theorem ok_bind {α β : Type} (a : α) (f : α -> Outcome β) :
    (Except.ok a >>= f : Outcome β) = f a :=
  rfl

theorem bind_eq_ok_iff {α β : Type} {x : Outcome α} {f : α -> Outcome β} {b : β} :
    (x >>= f) = .ok b ↔ exists a, x = .ok a ∧ f a = .ok b := by
  cases x with
  | error fault =>
      constructor
      · intro h
        cases h
      · rintro ⟨a, ha, _⟩
        cases ha
  | ok a =>
      constructor
      · intro h
        exact ⟨a, rfl, h⟩
      · rintro ⟨a', ha, h⟩
        cases ha
        exact h

theorem map_bind {α β γ : Type} {x : Outcome α} {f : α -> β} {g : β -> Outcome γ} :
    (x.map f >>= g) = (x >>= fun a => g (f a)) := by
  cases x <;> rfl

theorem refuse_ne_ok {α : Type} {cause : Refusal} {a : α} :
    (refuse cause : Outcome α) ≠ .ok a := by
  intro h
  cases h

variable {α β γ : Type}

/-!
## Computations that are not refused
-/

def NoRefusal (x : Outcome α) : Prop :=
  forall cause, x ≠ .error (.refused cause)

@[simp] theorem noRefusal_ok (a : α) : NoRefusal (.ok a : Outcome α) := by
  intro cause h
  cases h

@[simp] theorem noRefusal_pure (a : α) : NoRefusal (pure a : Outcome α) :=
  noRefusal_ok a

@[simp] theorem noRefusal_crash : NoRefusal (crash : Outcome α) := by
  intro cause h
  cases h

@[simp] theorem noRefusal_ite {c : Prop} [Decidable c] {x y : Outcome α} :
    NoRefusal (if c then x else y) ↔ (c -> NoRefusal x) ∧ (¬c -> NoRefusal y) := by
  by_cases hc : c <;> simp [hc]

@[simp] theorem noRefusal_bind {x : Outcome α} {f : α -> Outcome β} :
    NoRefusal (x >>= f) ↔ NoRefusal x ∧ forall a, x = .ok a -> NoRefusal (f a) := by
  cases x with
  | error fault =>
      cases fault <;> simp [NoRefusal, bind, Except.bind]
  | ok a =>
      simp [bind, Except.bind]

@[simp] theorem noRefusal_map {x : Outcome α} {f : α -> β} :
    NoRefusal (f <$> x) ↔ NoRefusal x := by
  cases x with
  | error fault =>
      cases fault <;> simp [NoRefusal, Functor.map, Except.map]
  | ok a =>
      simp [Functor.map, Except.map]

@[simp] theorem noRefusal_orCrash (condition : Bool) : NoRefusal (orCrash condition) := by
  simp [orCrash]

@[simp] theorem noRefusal_checkedShift (amount : Nat) : NoRefusal (checkedShift amount) := by
  simp [checkedShift]

@[simp] theorem noRefusal_checkedMul (a b : Nat) : NoRefusal (checkedMul a b) := by
  simp [checkedMul]

@[simp] theorem noRefusal_allocate (bytes n : Nat) : NoRefusal (allocate bytes n) :=
  noRefusal_orCrash _

@[simp] theorem noRefusal_shiftPositions (shift : Nat) (positions : List Nat) :
    NoRefusal (shiftPositions shift positions) := by
  simp [shiftPositions]

@[simp] theorem noRefusal_addressable (positions : List Nat) :
    NoRefusal (Basis.Checked.addressable positions) :=
  noRefusal_orCrash _

@[simp] theorem noRefusal_mask (positions : List Nat) :
    NoRefusal (Basis.Checked.mask positions) := by
  simp [Basis.Checked.mask]

theorem eq_crash_of_error {x : Outcome α} {fault : Fault} (hx : NoRefusal x)
    (h : x = .error fault) : fault = .crash := by
  cases fault with
  | refused cause =>
      exact absurd h (hx cause)
  | crash =>
      rfl

theorem bind_comm_of_noRefusal {x : Outcome α} {y : Outcome β} {f : α -> β -> Outcome γ}
    (hx : NoRefusal x) (hy : NoRefusal y) :
    (x >>= fun a => y >>= fun b => f a b) = (y >>= fun b => x >>= fun a => f a b) := by
  cases x with
  | ok a =>
      rfl
  | error fault =>
      cases y with
      | ok b =>
          rfl
      | error other =>
          rw [eq_crash_of_error hx rfl, eq_crash_of_error hy rfl]
          rfl

/-!
## Computations that do not crash
-/

def NoCrash (x : Outcome α) : Prop :=
  x ≠ crash

theorem noCrash_ok (a : α) : NoCrash (.ok a : Outcome α) := by
  intro h
  cases h

theorem noCrash_refuse (cause : Refusal) : NoCrash (refuse cause : Outcome α) := by
  intro h
  cases h

theorem NoCrash.bind {x : Outcome α} {f : α -> Outcome β} (hx : NoCrash x)
    (hf : forall a, x = .ok a -> NoCrash (f a)) : NoCrash (x >>= f) := by
  cases x with
  | ok a =>
      exact hf a rfl
  | error fault =>
      cases fault with
      | refused cause =>
          exact noCrash_refuse cause
      | crash =>
          exact absurd rfl hx

theorem NoCrash.foldlM {step : β -> α -> Outcome β} {xs : List α} {b : β}
    (h : forall b a, a ∈ xs -> NoCrash (step b a)) : NoCrash (xs.foldlM step b) := by
  induction xs generalizing b with
  | nil =>
      exact noCrash_ok b
  | cons a rest ih =>
      rw [List.foldlM_cons]
      exact (h b a List.mem_cons_self).bind fun b' _ =>
        ih fun b a ha => h b a (List.mem_cons_of_mem _ ha)

theorem NoCrash.eq_refuse {x : Outcome α} {fault : Fault} (hx : NoCrash x)
    (h : x = .error fault) : exists cause, fault = .refused cause := by
  cases fault with
  | refused cause =>
      exact ⟨cause, rfl⟩
  | crash =>
      exact absurd h hx

/-!
## Computations that end alike
-/

inductive Alike (r : α -> β -> Prop) : Outcome α -> Outcome β -> Prop
  | ok {a : α} {b : β} (h : r a b) : Alike r (.ok a) (.ok b)
  | error (fault : Fault) : Alike r (.error fault) (.error fault)

namespace Alike

variable {r : α -> β -> Prop} {δ : Type} {q : γ -> δ -> Prop}

theorem bind {x : Outcome α} {y : Outcome β} {f : α -> Outcome γ} {g : β -> Outcome δ}
    (h : Alike r x y) (hstep : forall a b, r a b -> Alike q (f a) (g b)) :
    Alike q (x >>= f) (y >>= g) := by
  cases h with
  | ok hab =>
      exact hstep _ _ hab
  | error fault =>
      exact .error fault

theorem after {x : Outcome α} {f : α -> Outcome γ} {g : α -> Outcome δ}
    (hstep : forall a, x = .ok a -> Alike q (f a) (g a)) : Alike q (x >>= f) (x >>= g) := by
  cases x with
  | ok a =>
      exact hstep a rfl
  | error fault =>
      exact .error fault

theorem mono {r' : α -> β -> Prop} {x : Outcome α} {y : Outcome β} (h : Alike r x y)
    (hr : forall a b, r a b -> r' a b) : Alike r' x y := by
  cases h with
  | ok hab =>
      exact .ok (hr _ _ hab)
  | error fault =>
      exact .error fault

theorem cases {x : Outcome α} {y : Outcome β} (h : Alike r x y) :
    (exists a b, x = .ok a ∧ y = .ok b ∧ r a b) ∨
      exists fault, x = .error fault ∧ y = .error fault := by
  cases h with
  | ok hab =>
      exact Or.inl ⟨_, _, rfl, rfl, hab⟩
  | error fault =>
      exact Or.inr ⟨fault, rfl, rfl⟩

theorem eq_error {y : Outcome β} {fault : Fault} (h : Alike r (.error fault) y) :
    y = .error fault := by
  cases h
  rfl

theorem refl (x : Outcome α) : Alike Eq x x := by
  cases x with
  | ok a =>
      exact .ok rfl
  | error fault =>
      exact .error fault

end Alike

/-!
## Computations that succeed
-/

def Gives (P : α -> Prop) (x : Outcome α) : Prop :=
  exists a, x = .ok a ∧ P a

namespace Gives

variable {P : α -> Prop} {Q : β -> Prop}

theorem ok {a : α} (h : P a) : Gives P (.ok a) :=
  ⟨a, rfl, h⟩

theorem bind {x : Outcome α} {f : α -> Outcome β} (h : Gives P x)
    (hstep : forall a, P a -> Gives Q (f a)) : Gives Q (x >>= f) := by
  rcases h with ⟨a, rfl, ha⟩
  exact hstep a ha

end Gives

theorem Alike.of_gives {P : α -> Prop} {Q : β -> Prop} {x : Outcome α} {y : Outcome β}
    (hx : Gives P x) (hy : Gives Q y) : Alike (fun a b => P a ∧ Q b) x y := by
  rcases hx with ⟨a, rfl, ha⟩
  rcases hy with ⟨b, rfl, hb⟩
  exact .ok ⟨ha, hb⟩

/-!
## What a value has if there is one
-/

inductive Ensures (P : α -> Prop) : Outcome α -> Prop
  | ok {a : α} (h : P a) : Ensures P (.ok a)
  | error (fault : Fault) : Ensures P (.error fault)

namespace Ensures

variable {P P' : α -> Prop} {Q : β -> Prop}

theorem of_eq_ok {x : Outcome α} {a : α} (h : Ensures P x) (hx : x = .ok a) : P a := by
  rw [hx] at h
  cases h with
  | ok ha =>
      exact ha

theorem mono {x : Outcome α} (h : Ensures P x) (hP : forall a, P a -> P' a) : Ensures P' x := by
  cases h with
  | ok ha =>
      exact .ok (hP _ ha)
  | error fault =>
      exact .error fault

theorem bind {x : Outcome α} {f : α -> Outcome β} (h : Ensures P x)
    (hstep : forall a, P a -> Ensures Q (f a)) : Ensures Q (x >>= f) := by
  cases h with
  | ok ha =>
      exact hstep _ ha
  | error fault =>
      exact .error fault

theorem after {x : Outcome α} {f : α -> Outcome β} (hstep : forall a, Ensures Q (f a)) :
    Ensures Q (x >>= f) := by
  cases x with
  | ok a =>
      exact hstep a
  | error fault =>
      exact .error fault

end Ensures

theorem ensures_checkedShift (amount : Nat) :
    Ensures (fun n => n = twoPow amount) (checkedShift amount) := by
  unfold checkedShift
  split
  · exact .ok rfl
  · exact .error _

theorem ensures_checkedMul (a b : Nat) : Ensures (fun n => n = a * b) (checkedMul a b) := by
  unfold checkedMul
  split
  · exact .ok rfl
  · exact .error _

theorem Alike.ensures {P P' : α -> Prop} {x y : Outcome α}
    (h : Alike (fun a a' => P a ∧ P' a') x y) : Ensures P x := by
  cases h with
  | ok hboth =>
      exact .ok hboth.1
  | error fault =>
      exact .error fault

/-!
## Kernels
-/

variable {R : Type} [Scalar R]

namespace Kernel

@[simp] theorem noRefusal_dense (positions : List Nat) (columns b : Buffer R) :
    NoRefusal (dense positions columns b) := by
  simp [dense]

@[simp] theorem noRefusal_diagonal (positions : List Nat) (entries b : Buffer R) :
    NoRefusal (diagonal positions entries b) := by
  simp [diagonal]

@[simp] theorem noRefusal_phase (positions : List Nat) (factor : Amplitude R) (b : Buffer R) :
    NoRefusal (phase positions factor b) := by
  simp [phase]

@[simp] theorem noRefusal_controlled (positions : List Nat)
    (f : Nat -> Amplitude R -> Amplitude R) (b : Buffer R) :
    NoRefusal (controlled positions f b) := by
  unfold controlled
  split <;> simp

@[simp] theorem noRefusal_flip (positions : List Nat) (b : Buffer R) :
    NoRefusal (flip positions b) :=
  noRefusal_controlled positions _ b

@[simp] theorem noRefusal_flipY (positions : List Nat) (conjugate : Bool) (b : Buffer R) :
    NoRefusal (flipY positions conjugate b) := by
  unfold flipY
  exact noRefusal_controlled positions _ b

@[simp] theorem noRefusal_exchange (p q : Nat) (b : Buffer R) :
    NoRefusal (exchange p q b) := by
  simp [exchange]

end Kernel

@[simp] theorem noRefusal_resetMap (k : Nat) : NoRefusal (resetMap k : Outcome (Buffer R)) := by
  simp [resetMap]

end MixedState
