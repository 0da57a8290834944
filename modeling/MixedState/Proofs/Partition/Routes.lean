import MixedState.Proofs.Machine.Controlled
import MixedState.Proofs.Partition.Simulation

/-!
# Routes

Routing a gate on a chunk either leaves it as it is, when it acts on the chunk alone
or is diagonal, or takes away its global controls.  The rest acts on the rows if
their global bits set those controls, and likewise on the columns.
-/

namespace MixedState

theorem IsChunk.sided {place : Place} {full part : Buffer ℝ} (hplace : place.Valid)
    (h : IsChunk place full part) (s : Sided) {controls targets : List Nat}
    (hlen : targets.length = s.targetCount) (hnodup : (controls ++ targets).Nodup)
    (hcontrols : forall q, q ∈ controls -> q < place.register)
    (htargets : forall q, q ∈ targets -> q < place.width) :
    exists full' part', s.both place.register (controls ++ targets) full = .ok full' ∧
      s.sides place.width (place.localOf controls ++ targets)
        (place.holds false (place.globalOf controls))
        (place.holds true (place.globalOf controls)) part = .ok part' ∧
      IsChunk place full' part' := by
  obtain ⟨full1, hfull1, hrows⟩ :=
    h.decided_sided hplace s false hlen hnodup hcontrols htargets
  rw [sideBits_false] at hfull1
  rw [sideBits_false] at hrows
  have hstep : exists part1,
      (if place.holds false (place.globalOf controls) then
        s.kernel false (place.localOf controls ++ targets) part else .ok part) = .ok part1 ∧
        IsChunk place full1 part1 := by
    cases hhold : place.holds false (place.globalOf controls) with
    | false =>
        exact ⟨part, rfl, hrows.of_fails hhold⟩
    | true =>
        exact hrows.of_holds hhold
  rcases hstep with ⟨part1, hpart1, h1⟩
  obtain ⟨full2, hfull2, hcolumns⟩ :=
    h1.decided_sided hplace s true hlen hnodup hcontrols htargets
  have hboth : s.both place.register (controls ++ targets) full = .ok full2 :=
    bind_eq_ok_iff.mpr ⟨full1, hfull1, hfull2⟩
  unfold Sided.sides
  rw [hpart1]
  dsimp only [Except.bind]
  cases hhold : place.holds true (place.globalOf controls) with
  | false =>
      exact ⟨full2, part1, hboth, rfl, hcolumns.of_fails hhold⟩
  | true =>
      rcases hcolumns.of_holds hhold with ⟨part2, hpart2, h2⟩
      exact ⟨full2, part2, hboth, hpart2, h2⟩

/-!
## The route of a gate
-/

theorem route_direct {op : Instruction ℝ} {gate : Gate} {place : Place}
    (hlocal : forall q, q ∈ op.qubits -> q < place.width) :
    route op gate place = .ok .direct := by
  have hall : op.qubits.all place.isLocal = true := by
    rw [List.all_eq_true]
    exact fun q hq => decide_eq_true (hlocal q hq)
  unfold route
  rw [hall, Bool.or_true, if_pos rfl]

theorem route_uncontrolled {op : Instruction ℝ} {gate : Gate} {place : Place}
    {r : Route ℝ} (hsplit : place.isSplit = true) (hcount : gate.controlCount = 0)
    (hglobal : ¬forall q, q ∈ op.qubits -> q < place.width)
    (h : route op gate place = .ok r) : r = .direct ∧ gate.isDiagonal = true := by
  have hall : ¬(!place.isSplit || op.qubits.all place.isLocal) = true := by
    intro hdirect
    rw [hsplit, Bool.not_true, Bool.false_or, List.all_eq_true] at hdirect
    exact hglobal fun q hq => of_decide_eq_true (hdirect q hq)
  unfold route at h
  rw [if_neg hall, hcount, Nat.zero_min] at h
  dsimp only at h
  rw [if_pos rfl] at h
  split at h
  · next hdiagonal =>
      cases h
      exact ⟨rfl, hdiagonal⟩
  · exact absurd h refuse_ne_ok

/-- What routing does to a gate with controls: `reduced` is the gate without its global
controls, and the global bits of the chunk decide where it acts. -/
theorem route_controlled {op : Instruction ℝ} {gate : Gate} {place : Place}
    {controls targets : List Nat} (hplace : place.Valid)
    (hqubits : op.qubits = controls ++ targets) (hlen : controls.length = gate.controlCount)
    (hcontrolled : 0 < gate.controlCount)
    (hqs : forall q, q ∈ op.qubits -> q < place.register)
    (hglobal : ¬forall q, q ∈ op.qubits -> q < place.width) :
    route op gate place =
      if targets.all place.isLocal then
        match reducedGate gate (place.globalOf controls).length with
        | none => refuseGlobal op.name place controls
        | some reduced => .ok (Route.ofSides
            { op with name := reduced.name, qubits := place.localOf controls ++ targets }
            (place.holds false (place.globalOf controls))
            (place.holds true (place.globalOf controls)))
      else refuseGlobal op.name place targets := by
  have hsplit : place.isSplit = true := decide_eq_true hplace.width_lt
  have hall : ¬(!place.isSplit || op.qubits.all place.isLocal) = true := by
    intro hdirect
    rw [hsplit, Bool.not_true, Bool.false_or, List.all_eq_true] at hdirect
    exact hglobal fun q hq => of_decide_eq_true (hdirect q hq)
  have hcount : min gate.controlCount op.qubits.length = gate.controlCount := by
    rw [hqubits, List.length_append]
    omega
  have hword : (place.globalOf controls).all (fun q => q - place.width < wordBits) = true := by
    rw [List.all_eq_true]
    intro q hq
    have hlt := hqs q (hqubits ▸ List.mem_append_left _ (Place.mem_globalOf.mp hq).1)
    have hregister := hplace.word
    exact decide_eq_true (by omega)
  unfold route
  rw [if_neg hall, hcount]
  dsimp only
  rw [if_neg (by omega), hqubits, ← hlen, List.take_left, List.drop_left]
  by_cases htargets : targets.all place.isLocal = true
  · rw [htargets, if_neg (by decide), if_pos rfl]
    change (if (!(place.globalOf controls).all fun q => q - place.width < wordBits) = true then
      _ else _) = _
    rw [hword, if_neg (by decide)]
    change (match reducedGate gate (place.globalOf controls).length with
      | none => _
      | some reduced => _) = _
    rw [Place.rowBits_eq_ok hplace.fits, Place.columnBits_eq_ok hplace.fits]
    rfl
  · have hfalse : targets.all place.isLocal = false := by simpa using htargets
    rw [hfalse]
    rfl

end MixedState
