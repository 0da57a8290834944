import MixedState.Proofs.Partition.Routes

/-!
# Named gates on a chunk

A named gate other than a controlled phase that succeeds on a chunk does to it what
it does to the register.
-/

namespace MixedState

theorem Sided.sides_true_false (s : Sided) (n : Nat) (qs : List Nat) :
    s.sides n qs true false = s.kernel false (sideBits false n qs) := by
  funext b
  rw [sideBits_false]
  unfold sides
  rw [if_pos rfl]
  cases s.kernel false qs b <;> rfl

theorem Sided.sides_false_true (s : Sided) (n : Nat) (qs : List Nat) :
    s.sides n qs false true = s.kernel true (sideBits true n qs) :=
  rfl

namespace Machine

variable {m : Machine ℝ} {op : Instruction ℝ} {gate : Gate} {s : Sided}

theorem diagonalString?_of_ne_pauli (hgate : gate ≠ .pauli) : diagonalString? op gate = none := by
  cases gate with
  | pauli =>
      exact absurd rfl hgate
  | id | x | y | z | h | s | sdg | t | tdg | sx | sxdg | r | rx | ry | rz | u1 | u2 | u3 | cx
  | cy | cz | cp | swap | rxx | ryy | rzz | rzx | ecr | ccx =>
      rfl

/-- What is left of a gate after routing is its operator on the sides that hold; without
a qubit left it is skipped when both hold. -/
theorem applyRouted_of_sides {left : Instruction ℝ} {reduced : Gate}
    {rowsHold columnsHold : Bool} (hstring : diagonalString? op gate = none)
    (hroute : route op gate m.place = .ok (Route.ofSides left rowsHold columnsHold))
    (hname : Gate.ofName left.name = .ok reduced) (hs : reduced.sided? left = some s)
    (hwidth : left.qubits ≠ [] -> forall n, reduced.width = some n -> left.qubits.length = n)
    (hn : 2 * m.store.qubits < wordBits)
    (hqs : forall q, q ∈ left.qubits -> q < m.store.qubits) :
    m.applyRouted op gate =
      if rowsHold && columnsHold && left.qubits.isEmpty then .ok m
      else m.onData (s.sides m.store.qubits left.qubits rowsHold columnsHold) := by
  have hword : forall q, q ∈ left.qubits -> q < wordBits := by
    intro q hq
    have hlt := hqs q hq
    omega
  unfold applyRouted
  rw [hstring]
  dsimp only
  rw [hroute, ok_bind]
  cases rowsHold with
  | false =>
      rw [Bool.false_and, Bool.false_and, if_neg Bool.false_ne_true]
      cases columnsHold with
      | false =>
          exact (onData_of_eq_ok (Sided.sides_false_false s _ _ _)).symm
      | true =>
          rw [Sided.sides_false_true]
          exact applyOneSide_of_sided hname hs true (by omega) hword
  | true =>
      cases columnsHold with
      | false =>
          rw [Bool.and_false, Bool.false_and, if_neg Bool.false_ne_true,
            Sided.sides_true_false]
          exact applyOneSide_of_sided hname hs false (by omega) hword
      | true =>
          rw [Bool.and_true, Bool.true_and]
          unfold Route.ofSides
          dsimp only
          by_cases hempty : left.qubits.isEmpty = true
          · rw [if_pos hempty, if_pos hempty]
            rfl
          · have hne : left.qubits ≠ [] := fun hnil => hempty (by rw [hnil]; rfl)
            rw [if_neg hempty, if_neg hempty]
            dsimp only
            rw [hname, ok_bind, Sided.sides_true_true]
            exact applyLocal_of_sided hs (hwidth hne) hn hqs

theorem applyRouted_direct (hstring : diagonalString? op gate = none)
    (hroute : route op gate m.place = .ok .direct) :
    m.applyRouted op gate = m.applyLocal op gate := by
  unfold applyRouted
  rw [hstring]
  dsimp only
  rw [hroute, ok_bind]

theorem diagonalString?_eq_some {string : String}
    (h : diagonalString? op gate = some string) :
    gate = .pauli ∧ exists rest, op.texts = string :: rest ∧
      string.utf8ByteSize = op.qubits.length ∧ isDiagonalPauli string = true := by
  unfold diagonalString? at h
  split at h
  · next first rest htexts =>
      split at h
      · next hstring =>
          cases h
          exact ⟨rfl, rest, htexts, hstring.1, hstring.2⟩
      · cases h
  · cases h

namespace IsChunkOf

variable {place : Place} {whole chunk chunk' : Machine ℝ} {controls targets : List Nat}

theorem route_of_applyRouted (h : IsChunkOf place chunk whole)
    (hstring : diagonalString? op gate = none) (hcount : gate.controlCount = 0)
    (hglobal : ¬forall q, q ∈ op.qubits -> q < chunk.place.width)
    (hchunk : chunk.applyRouted op gate = .ok chunk') :
    route op gate chunk.place = .ok .direct ∧ gate.isDiagonal = true := by
  unfold applyRouted at hchunk
  rw [hstring] at hchunk
  rcases bind_eq_ok_iff.mp hchunk with ⟨r, hroute, _⟩
  rcases route_uncontrolled h.isSplit_chunk hcount hglobal hroute with ⟨rfl, hdiagonal⟩
  exact ⟨hroute, hdiagonal⟩

theorem controls_removable (h : IsChunkOf place chunk whole)
    (hqubits : op.qubits = controls ++ targets) (hlen : controls.length = gate.controlCount)
    (hcontrolled : 0 < gate.controlCount)
    (hqs : forall q, q ∈ op.qubits -> q < chunk.width)
    (hglobal : ¬forall q, q ∈ op.qubits -> q < chunk.place.width)
    (hchunk : chunk.applyRouted op gate = .ok chunk') :
    (forall q, q ∈ targets -> q < chunk.place.width) ∧
      exists reduced,
        reducedGate gate (chunk.place.globalOf controls).length = some reduced := by
  have hpauli : gate ≠ .pauli := by
    rintro rfl
    exact Nat.lt_irrefl 0 hcontrolled
  unfold applyRouted at hchunk
  rw [diagonalString?_of_ne_pauli hpauli] at hchunk
  rcases bind_eq_ok_iff.mp hchunk with ⟨r, hroute, _⟩
  rw [route_controlled h.valid hqubits hlen hcontrolled hqs hglobal] at hroute
  split at hroute
  · next htargets =>
      refine ⟨fun q hq => of_decide_eq_true (List.all_eq_true.mp htargets q hq), ?_⟩
      cases hreduced : reducedGate gate (chunk.place.globalOf controls).length with
      | none =>
          rw [hreduced] at hroute
          exact absurd hroute refuse_ne_ok
      | some reduced =>
          exact ⟨reduced, rfl⟩
  · exact absurd hroute refuse_ne_ok

theorem applyRouted_controlled (h : IsChunkOf place chunk whole)
    (hqubits : op.qubits = controls ++ targets) (hlen : controls.length = gate.controlCount)
    (hcontrolled : 0 < gate.controlCount) (hs : gate.sided? op = some s)
    (hwidth : gate.width = some op.qubits.length)
    (hqs : forall q, q ∈ op.qubits -> q < chunk.width)
    (hglobal : ¬forall q, q ∈ op.qubits -> q < chunk.place.width)
    (htargets : forall q, q ∈ targets -> q < chunk.place.width) {reduced : Gate}
    (hreduced : reducedGate gate (chunk.place.globalOf controls).length = some reduced) :
    chunk.applyRouted op gate =
      if chunk.place.holds false (chunk.place.globalOf controls)
          && chunk.place.holds true (chunk.place.globalOf controls)
          && (chunk.place.localOf controls ++ targets).isEmpty then .ok chunk
      else chunk.onData (s.sides chunk.store.qubits (chunk.place.localOf controls ++ targets)
        (chunk.place.holds false (chunk.place.globalOf controls))
        (chunk.place.holds true (chunk.place.globalOf controls))) := by
  have hcount := Place.length_localOf_add_length_globalOf chunk.place controls
  have hremoved : (chunk.place.globalOf controls).length ≤ gate.controlCount := by omega
  have hall : targets.all chunk.place.isLocal = true := by
    rw [List.all_eq_true]
    exact fun q hq => decide_eq_true (htargets q hq)
  have hroute := route_controlled h.valid hqubits hlen hcontrolled hqs hglobal
  rw [if_pos hall, hreduced] at hroute
  rcases sided?_reducedGate op hcontrolled hremoved hreduced with ⟨hsided, hleft⟩
  apply applyRouted_of_sides (diagonalString?_of_ne_pauli ?_) hroute (Gate.ofName_name reduced)
  · rw [← hs, ← hsided]
    cases reduced <;> rfl
  · intro hne n hn
    have hpos : 0 < (chunk.place.localOf controls ++ targets).length :=
      List.length_pos_iff.mpr hne
    rw [List.length_append] at hpos
    rw [hqubits, List.length_append] at hwidth
    have hsome := hleft _ hwidth (by omega)
    rw [hn] at hsome
    cases hsome
    change (chunk.place.localOf controls ++ targets).length = _
    rw [List.length_append]
    omega
  · exact h.valid.word_width
  · intro q hq
    rcases List.mem_append.mp hq with hq | hq
    · exact (Place.mem_localOf.mp hq).2
    · exact htargets q hq
  · intro hpauli
    rw [hpauli] at hcontrolled
    exact Nat.lt_irrefl 0 hcontrolled

/-!
## Gates on local qubits
-/

theorem applyPauli (h : IsChunkOf place chunk whole) (hnodup : op.qubits.Nodup)
    (hqs : forall q, q ∈ op.qubits -> q < chunk.width)
    (hlocal : forall q, q ∈ op.qubits -> q < chunk.place.width)
    (hchunk : chunk.applyPauli op = .ok chunk') :
    exists whole', whole.applyPauli op = .ok whole' ∧ IsChunkOf place chunk' whole' := by
  have hword := h.lt_wordBits hqs
  obtain ⟨string, rest, htexts, hkernel⟩ :=
    (applyPauli_eq_ok_iff h.qubits_chunk_lt hword).mp hchunk
  rcases onData_eq_ok_iff.mp hkernel with ⟨part', hpart, _⟩
  obtain ⟨whole', hwhole, hrel⟩ := h.onData
    (h.data.pauli h.valid (spells_of_pauli_eq_ok hpart) hnodup hlocal) hkernel
  refine ⟨whole', ?_, hrel⟩
  rw [applyPauli_eq_ok_iff h.qubits_whole_lt hword, h.qubits]
  exact ⟨string, rest, htexts, hwhole⟩

theorem onSided (h : IsChunkOf place chunk whole) (hnodup : op.qubits.Nodup)
    (hlocal : forall q, q ∈ op.qubits -> q < chunk.place.width)
    (hfits : s.targetCount ≤ op.qubits.length)
    (hchunk : chunk.onData (s.both chunk.store.qubits op.qubits) = .ok chunk') :
    exists whole', whole.onData (s.both whole.store.qubits op.qubits) = .ok whole' ∧
      IsChunkOf place chunk' whole' := by
  have hsplit := (List.take_append_drop (op.qubits.length - s.targetCount) op.qubits).symm
  have hlen : (op.qubits.drop (op.qubits.length - s.targetCount)).length = s.targetCount := by
    rw [List.length_drop]
    omega
  have htake : forall q, q ∈ op.qubits.take (op.qubits.length - s.targetCount) ->
      q < chunk.place.width := fun q hq => hlocal q (List.mem_of_mem_take hq)
  have hlocalOf := chunk.place.localOf_eq_self htake
  have hglobalOf := chunk.place.globalOf_eq_nil htake
  have hwidth := h.valid.width_lt
  have hkernels := h.data.sided h.valid s hlen (by rw [← hsplit]; exact hnodup)
    (fun q hq => Nat.lt_trans (htake q hq) hwidth)
    (fun q hq => hlocal q (List.mem_of_mem_drop hq))
  rw [hlocalOf, hglobalOf, Place.holds_nil, Place.holds_nil, Sided.sides_true_true,
    ← hsplit] at hkernels
  rw [h.qubits]
  exact h.onData hkernels hchunk

theorem enact (h : IsChunkOf place chunk whole) (hnodup : op.qubits.Nodup)
    (hqs : forall q, q ∈ op.qubits -> q < chunk.width) {a : Action}
    (hfits : a.Fits op.qubits.length)
    (hlocal : (forall q, q ∈ op.qubits -> q < chunk.place.width) ∨ a.isDiagonal = true)
    (hchunk : chunk.enact op a = .ok chunk') :
    exists whole', whole.enact op a = .ok whole' ∧ IsChunkOf place chunk' whole' := by
  cases a with
  | nothing =>
      cases hchunk
      exact ⟨whole, rfl, h⟩
  | diagonal entries =>
      exact h.applyDiagonal hnodup hqs hchunk
  | matrix u =>
      exact h.applyMatrix hnodup hqs hchunk
  | sided s =>
      have hlocal := hlocal.resolve_right Bool.false_ne_true
      exact h.onSided hnodup hlocal hfits hchunk
  | swap =>
      have hlocal := hlocal.resolve_right Bool.false_ne_true
      rcases List.length_eq_two.mp hfits with ⟨p, q, hpq⟩
      simp only [Machine.enact, hpq] at hchunk ⊢
      rw [h.qubits]
      exact h.onData (h.data.swap h.valid (hlocal p (by simp [hpq])) (hlocal q (by simp [hpq])))
        hchunk
  | pauli =>
      have hlocal := hlocal.resolve_right Bool.false_ne_true
      exact h.applyPauli hnodup hqs hlocal hchunk

/-!
## Routed gates
-/

theorem applyRouted_diagonalString (h : IsChunkOf place chunk whole) (hnodup : op.qubits.Nodup)
    (hqs : forall q, q ∈ op.qubits -> q < chunk.width) {string : String}
    (hstring : diagonalString? op gate = some string)
    (hchunk : chunk.applyRouted op gate = .ok chunk') :
    exists whole', whole.enact op (gate.action op) = .ok whole' ∧
      IsChunkOf place chunk' whole' := by
  rcases diagonalString?_eq_some hstring with ⟨rfl, rest, htexts, hbytes, hdiagonal⟩
  unfold applyRouted at hchunk
  rw [hstring] at hchunk
  rcases bind_eq_ok_iff.mp hchunk with ⟨d, hd, hchunk⟩
  rcases h.applyDiagonal hnodup hqs hchunk with ⟨whole', hwhole, hrel⟩
  refine ⟨whole', ?_, hrel⟩
  rcases size_of_applyDiagonal_eq_ok hwhole with ⟨hlen, hsize⟩
  have hword := h.lt_wordBits hqs
  rw [applyDiagonal_of_reaches (h.reaches_whole _) h.qubits_whole_lt hword hlen hsize] at hwhole
  change whole.applyPauli op = .ok whole'
  rw [applyPauli_eq_ok_iff h.qubits_whole_lt hword]
  refine ⟨string, rest, htexts, ?_⟩
  rcases onData_eq_ok_iff.mp hwhole with ⟨full', hfull', rfl⟩
  apply onData_of_eq_ok
  rw [h.qubits] at hfull' ⊢
  rw [Kernel.pauli_eq_diagonalUnitary hnodup hqs h.valid.word h.data.full_size hbytes hdiagonal
    hd]
  exact hfull'

theorem applyRouted_sided (h : IsChunkOf place chunk whole) (hcontrolled : 0 < gate.controlCount)
    (hphase : gate ≠ .cp) (hwidth : gate.width = some op.qubits.length)
    (hnodup : op.qubits.Nodup) (hqs : forall q, q ∈ op.qubits -> q < chunk.width)
    (hglobal : ¬forall q, q ∈ op.qubits -> q < chunk.place.width)
    (hchunk : chunk.applyRouted op gate = .ok chunk') :
    exists whole', whole.enact op (gate.action op) = .ok whole' ∧
      IsChunkOf place chunk' whole' := by
  rcases Gate.exists_sided hcontrolled op with ⟨s, hs, hsome⟩
  rw [hwidth] at hsome
  have hcount : op.qubits.length = gate.controlCount + s.targetCount := Option.some.inj hsome
  have hqubits := (List.take_append_drop gate.controlCount op.qubits).symm
  have hlen : (op.qubits.take gate.controlCount).length = gate.controlCount := by
    rw [List.length_take]
    omega
  have htargetCount : (op.qubits.drop gate.controlCount).length = s.targetCount := by
    rw [List.length_drop]
    omega
  generalize op.qubits.take gate.controlCount = controls at hqubits hlen
  generalize op.qubits.drop gate.controlCount = targets at hqubits htargetCount
  obtain ⟨htargets, reduced, hreduced⟩ :=
    h.controls_removable hqubits hlen hcontrolled hqs hglobal hchunk
  rw [h.applyRouted_controlled hqubits hlen hcontrolled hs hwidth hqs hglobal htargets
    hreduced] at hchunk
  have hkernels := h.data.sided h.valid s htargetCount (by rw [← hqubits]; exact hnodup)
    (fun q hq => hqs q (by rw [hqubits]; exact List.mem_append_left _ hq)) htargets
  rw [← hqubits] at hkernels
  rw [Gate.action_of_controlled hcontrolled hs]
  change exists whole', whole.onData (s.both whole.store.qubits op.qubits) = .ok whole' ∧ _
  rw [h.qubits]
  split at hchunk
  · next hskip =>
      -- Without a local qubit, a phase and its conjugate cancel.
      rw [Bool.and_eq_true, Bool.and_eq_true, List.isEmpty_iff] at hskip
      rcases hskip with ⟨⟨hrows, hcolumns⟩, hnil⟩
      rw [(List.append_eq_nil_iff.mp hnil).2] at htargetCount
      obtain ⟨factor, rfl, hfactor⟩ :=
        Gate.isPhase_of_sided hs hcontrolled hphase htargetCount.symm
      rw [hrows, hcolumns, hnil, Sided.sides_true_true, Sided.both_phase_nil, hfactor]
        at hkernels
      simp only [mul_one, Buffer.tabulate_entry] at hkernels
      have hidentity : chunk.onData (fun b => .ok b) = .ok chunk' := hchunk
      exact h.onData hkernels hidentity
  · exact h.onData hkernels hchunk

theorem applyGate (h : IsChunkOf place chunk whole) (hnodup : op.qubits.Nodup)
    (hqs : forall q, q ∈ op.qubits -> q < chunk.width)
    (hname : op.name ≠ "cp" ∧ op.name ≠ "cu1") (hchunk : chunk.applyGate op = .ok chunk') :
    exists whole', whole.applyGate op = .ok whole' ∧ IsChunkOf place chunk' whole' := by
  unfold Machine.applyGate at hchunk ⊢
  rcases bind_eq_ok_iff.mp hchunk with ⟨gate, hgate, hchunk⟩
  rcases bind_eq_ok_iff.mp hchunk with ⟨_, hcheck, hchunk⟩
  have hwidth := (checkGate_eq_ok_iff.mp hcheck).1
  have hphase : gate ≠ .cp := by
    rintro rfl
    rcases Gate.name_of_ofName_cp hgate with hcp | hcp
    · exact hname.1 hcp
    · exact hname.2 hcp
  have hword := h.lt_wordBits hqs
  rw [h.isSplit_chunk, if_pos rfl] at hchunk
  rw [hgate, ok_bind, hcheck, ok_bind, h.isSplit_whole, if_neg Bool.false_ne_true,
    applyLocal_eq_enact hwidth h.qubits_whole_lt hword]
  cases hstring : diagonalString? op gate with
  | some string =>
      exact h.applyRouted_diagonalString hnodup hqs hstring hchunk
  | none =>
      by_cases hlocal : forall q, q ∈ op.qubits -> q < chunk.place.width
      · rw [applyRouted_direct hstring (route_direct hlocal),
          applyLocal_eq_enact hwidth h.qubits_chunk_lt hword] at hchunk
        exact h.enact hnodup hqs (Gate.action_fits op gate hwidth) (Or.inl hlocal) hchunk
      · by_cases hcount : gate.controlCount = 0
        · rcases h.route_of_applyRouted hstring hcount hlocal hchunk with ⟨hroute, hdiagonal⟩
          rw [applyRouted_direct hstring hroute,
            applyLocal_eq_enact hwidth h.qubits_chunk_lt hword] at hchunk
          exact h.enact hnodup hqs (Gate.action_fits op gate hwidth)
            (Or.inr (Gate.isDiagonal_action op hcount hdiagonal)) hchunk
        · have hcontrolled : 0 < gate.controlCount := Nat.pos_of_ne_zero hcount
          rcases Gate.exists_sided hcontrolled op with ⟨s, _, hsome⟩
          exact h.applyRouted_sided hcontrolled hphase (by rw [hwidth _ hsome]; exact hsome)
            hnodup hqs hlocal hchunk

theorem applyGate_controlled (h : IsChunkOf place chunk whole)
    (hname : Gate.ofName op.name = .ok gate) (hcheck : checkGate op gate = .ok ())
    (hcontrolled : 0 < gate.controlCount) (hqubits : op.qubits = controls ++ targets)
    (hlen : controls.length = gate.controlCount) (hnodup : op.qubits.Nodup)
    (hqs : forall q, q ∈ op.qubits -> q < chunk.width)
    (htargets : forall q, q ∈ targets -> q < chunk.place.width) :
    exists chunk', chunk.applyGate op = .ok chunk' := by
  rcases Gate.exists_sided hcontrolled op with ⟨s, hs, hsome⟩
  have hwidth := (checkGate_eq_ok_iff.mp hcheck).1
  have hcount := hwidth _ hsome
  have happly : chunk.applyGate op = chunk.applyRouted op gate := by
    unfold Machine.applyGate
    rw [hname, ok_bind, hcheck, ok_bind, h.isSplit_chunk, if_pos rfl]
  have hpauli : gate ≠ .pauli := by
    rintro rfl
    exact Nat.lt_irrefl 0 hcontrolled
  have htargetCount : targets.length = s.targetCount := by
    rw [hqubits, List.length_append] at hcount
    omega
  obtain ⟨full', part', _, hkernel, _⟩ := h.data.sided h.valid s htargetCount
    (hqubits ▸ hnodup) (fun q hq => hqs q (hqubits ▸ List.mem_append_left _ hq)) htargets
  rw [happly]
  by_cases hlocal : forall q, q ∈ op.qubits -> q < chunk.place.width
  · have hcontrols : forall q, q ∈ controls -> q < chunk.place.width :=
      fun q hq => hlocal q (hqubits ▸ List.mem_append_left _ hq)
    rw [chunk.place.localOf_eq_self hcontrols, chunk.place.globalOf_eq_nil hcontrols,
      Place.holds_nil, Place.holds_nil, Sided.sides_true_true, ← hqubits] at hkernel
    rw [applyRouted_direct (diagonalString?_of_ne_pauli hpauli) (route_direct hlocal),
      applyLocal_of_sided hs hwidth h.valid.word_width hlocal]
    exact ⟨_, onData_of_eq_ok hkernel⟩
  · have hfewer := Place.length_localOf_add_length_globalOf chunk.place controls
    obtain ⟨reduced, hreduced⟩ := exists_reducedGate hcontrolled
      (by omega : (chunk.place.globalOf controls).length ≤ gate.controlCount)
    rw [h.applyRouted_controlled hqubits hlen hcontrolled hs (by rw [hcount]; exact hsome) hqs
      hlocal htargets hreduced]
    split
    · exact ⟨chunk, rfl⟩
    · exact ⟨_, onData_of_eq_ok hkernel⟩

end IsChunkOf

end Machine

end MixedState
