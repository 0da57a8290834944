import MixedState.InPlace.Procedure
import MixedState.Proofs.Outcome

/-!
# Procedures that change all or nothing

A function on states gives a new state or a fault.  A procedure carries it out when it
ends in the same way and leaves the new state, or the old one where it is refused.  What
a crash leaves is left open.
-/

namespace MixedState

structure Field.Lawful {σ τ : Type} (field : Field σ τ) : Prop where
  get_set : forall s t, field.get (field.set s t) = t
  set_set : forall s t u, field.set (field.set s t) u = field.set s u

namespace Procedure

variable {σ τ α β : Type} {s : σ}

def settle (s : σ) (x : Outcome σ) : Outcome Unit × σ :=
  match x with
  | .ok t => (.ok (), t)
  | .error fault => (.error fault, s)

def Agree (left right : Outcome α × σ) : Prop :=
  left = right ∨ left.1 = crash ∧ right.1 = crash

def CarriesOut (p : Procedure σ Unit) (s : σ) (x : Outcome σ) : Prop :=
  Agree (p s) (settle s x)

theorem noCrash_settle {x : Outcome σ} (h : NoCrash x) : NoCrash (settle s x).1 := by
  cases x with
  | ok t =>
      exact noCrash_ok ()
  | error fault =>
      rcases h.eq_refuse rfl with ⟨cause, rfl⟩
      exact noCrash_refuse cause

theorem Agree.refl (a : Outcome α × σ) : Agree a a :=
  Or.inl rfl

theorem Agree.eq_of_refused {left right : Outcome α × σ} {cause : Refusal}
    (h : Agree left right)
    (hcause : left.1 = .error (.refused cause) ∨ right.1 = .error (.refused cause)) :
    left = right := by
  rcases h with heq | ⟨hleft, hright⟩
  · exact heq
  · rw [hleft, hright] at hcause
    rcases hcause with hcause | hcause <;> cases hcause

theorem carriesOut_pure (s : σ) : CarriesOut (pure ()) s (.ok s) :=
  Agree.refl _

theorem carriesOut_error (fault : Fault) :
    CarriesOut (liftM (.error fault : Outcome Unit)) s (.error fault) :=
  Agree.refl _

theorem carriesOut_get {f : σ -> Procedure σ Unit} {x : Outcome σ}
    (h : CarriesOut (f s) s x) : CarriesOut (get >>= f) s x :=
  h

theorem carriesOut_set (t : σ) : CarriesOut (set t) s (.ok t) :=
  Agree.refl _

theorem carriesOut_check {check : Outcome α} {f : α -> Procedure σ Unit}
    {g : α -> Outcome σ} (h : forall a, check = .ok a -> CarriesOut (f a) s (g a)) :
    CarriesOut (liftM check >>= f) s (check >>= g) := by
  cases check with
  | error fault =>
      exact carriesOut_error fault
  | ok a =>
      exact h a rfl

theorem carriesOut_assign (f : σ -> Outcome σ) : CarriesOut (assign f) s (f s) := by
  change CarriesOut (liftM (f s) >>= fun t => set t) s (f s)
  cases f s with
  | error fault =>
      exact carriesOut_error fault
  | ok t =>
      exact carriesOut_set t

theorem Agree.resettle {left : Outcome Unit × σ} {t : σ} {x : Outcome σ}
    (h : Agree left (settle t x)) (hx : NoRefusal x) : Agree left (settle s x) := by
  cases x with
  | ok u =>
      exact h
  | error fault =>
      cases fault with
      | refused cause =>
          exact absurd rfl (hx cause)
      | crash =>
          right
          constructor
          · rcases h with heq | ⟨hcrash, _⟩
            · rw [heq]
              rfl
            · exact hcrash
          · rfl

theorem bind_of_eq_error {p : Procedure σ α} {f : α -> Procedure σ β} {fault : Fault} {t : σ}
    (h : p s = (.error fault, t)) : (p >>= f) s = (.error fault, t) := by
  simp only [bind, h]

theorem bind_of_eq_ok {p : Procedure σ α} {f : α -> Procedure σ β} {a : α} {t : σ}
    (h : p s = (.ok a, t)) : (p >>= f) s = f a t := by
  simp only [bind, h]

theorem get_bind (f : σ -> Procedure σ α) : ((get : Procedure σ σ) >>= f) s = f s s :=
  rfl

theorem inside_eq (field : Field σ τ) (p : Procedure τ α) :
    inside field p s = ((p (field.get s)).1, field.set s (p (field.get s)).2) :=
  rfl

theorem carriesOut_then {p q : Procedure σ Unit} {x : Outcome σ} {g : σ -> Outcome σ}
    (hp : CarriesOut p s x) (hq : forall t, x = .ok t -> CarriesOut q t (g t))
    (hg : forall t, x = .ok t -> NoRefusal (g t)) :
    CarriesOut (p >>= fun _ => q) s (x >>= g) := by
  cases x with
  | ok t =>
      rcases hp with heq | ⟨_, hcrash⟩
      · unfold CarriesOut
        rw [bind_of_eq_ok heq]
        exact (hq t rfl).resettle (hg t rfl)
      · cases hcrash
  | error fault =>
      rcases hp with heq | ⟨hleft, hright⟩
      · left
        exact bind_of_eq_error heq
      · right
        constructor
        · rw [bind_of_eq_error (Prod.ext hleft rfl)]
          rfl
        · exact hright

theorem carriesOut_inside {field : Field σ τ} {p : Procedure τ Unit} {x : Outcome τ}
    (hfield : field.set s (field.get s) = s) (h : CarriesOut p (field.get s) x) :
    CarriesOut (inside field p) s (x >>= fun t => .ok (field.set s t)) := by
  unfold CarriesOut
  rw [inside_eq]
  rcases h with heq | ⟨hleft, hright⟩
  · left
    rw [heq]
    cases x with
    | ok t =>
        rfl
    | error fault =>
        change (_, field.set s (field.get s)) = _
        rw [hfield]
        rfl
  · right
    constructor
    · exact hleft
    · cases x with
      | ok t =>
          cases hright
      | error fault =>
          exact hright

end Procedure
end MixedState
