import MixedState.Fault

/-!
# Procedures

A procedure works on a state in place.  Where it fails, what it has written by then
stays written.
-/

namespace MixedState

def Procedure (σ α : Type) : Type :=
  σ → Outcome α × σ

structure Field (σ τ : Type) where
  get : σ → τ
  set : σ → τ → σ

namespace Procedure

variable {σ τ α : Type}

instance : Monad (Procedure σ) where
  pure a := fun s => (.ok a, s)
  bind p f := fun s =>
    match p s with
    | (.ok a, t) => f a t
    | (.error fault, t) => (.error fault, t)

instance : MonadLift (Except Fault) (Procedure σ) where
  monadLift x := fun s => (x, s)

instance : MonadStateOf σ (Procedure σ) where
  get := fun s => (.ok s, s)
  set s := fun _ => (.ok (), s)
  modifyGet f := fun s => (.ok (f s).1, (f s).2)

def assign (f : σ → Outcome σ) : Procedure σ Unit := do
  let s ← get
  set (← f s)

def inside (field : Field σ τ) (p : Procedure τ α) : Procedure σ α :=
  fun s =>
    let (outcome, t) := p (field.get s)
    (outcome, field.set s t)

def setField (field : Field σ τ) (t : τ) : Procedure σ Unit := do
  let s ← get
  set (field.set s t)

end Procedure

end MixedState
