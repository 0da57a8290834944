import MixedState.Proofs.Machine.Resets
import MixedState.Proofs.Partition.Refinement

/-!
# Collapsing on a chunk

A collapse projects its qubits, which any chunk can follow, and then moves them from the
outcome to another one, which a chunk can follow only on its own qubits.  On others the
second part fails when the first one is done: a single qubit crashes, and of several the
move is refused, which leaves the chunk projected.
-/

namespace MixedState

open MixedState.Basis
open Amplitude (ofReal)

/-- The row and the column of the register that an entry of the chunk stands for spell the
outcome at the qubits. -/
def Place.Shows (place : Place) (qs : List Nat) (outcome x : Nat) : Prop :=
  forall onColumns, gather (sideBits onColumns place.register qs) (place.embed x) = outcome

instance (place : Place) (qs : List Nat) (outcome x : Nat) :
    Decidable (place.Shows qs outcome x) :=
  inferInstanceAs (Decidable (forall onColumns,
    gather (sideBits onColumns place.register qs) (place.embed x) = outcome))

theorem Place.shows_iff {place : Place} {qs : List Nat} {outcome x : Nat} :
    place.Shows qs outcome x ↔ gather qs (place.embed x) = outcome ∧
      gather (sideBits true place.register qs) (place.embed x) = outcome := by
  unfold Shows
  rw [Bool.forall_bool, sideBits_false]

structure IsProjected (place : Place) (qs : List Nat) (outcome : Nat) (p : ℝ)
    (part part' : Buffer ℝ) : Prop where
  size : part'.size = part.size
  shown : forall x, x < part.size -> place.Shows qs outcome x ->
    part'.entry x = ofReal p⁻¹ * part.entry x
  hidden : forall x, x < part.size -> ¬place.Shows qs outcome x -> part'.entry x = 0

theorem IsProjected.eq_self_iff {place : Place} {qs : List Nat} {outcome : Nat} {p : ℝ}
    {part part' : Buffer ℝ} (h : IsProjected place qs outcome p part part') :
    part' = part ↔ forall x, x < part.size ->
      part.entry x = 0 ∨ (place.Shows qs outcome x ∧ p = 1) := by
  constructor
  · rintro rfl x hx
    by_cases hshows : place.Shows qs outcome x
    · by_cases hzero : part'.entry x = 0
      · exact Or.inl hzero
      · have hone := (mul_eq_right₀ hzero).mp (h.shown x hx hshows).symm
        exact Or.inr ⟨hshows, inv_eq_one.mp (congrArg Amplitude.re hone)⟩
    · exact Or.inl (h.hidden x hx hshows)
  · intro hall
    apply Buffer.ext_entry h.size
    intro x hx
    rw [h.size] at hx
    rcases hall x hx with hzero | ⟨hshows, rfl⟩
    · by_cases hshows : place.Shows qs outcome x
      · rw [h.shown x hx hshows, hzero, mul_zero]
      · rw [h.hidden x hx hshows, hzero]
    · rw [h.shown x hx hshows, inv_one]
      exact one_mul _

theorem Kernel.size_of_flip {t : Nat} {b b' : Buffer ℝ} (h : Kernel.flip [t] b = .ok b') :
    (twoPow t < b.size ∨ b.size = 0) ∧ b'.size = b.size := by
  unfold Kernel.flip Kernel.controlled at h
  rcases bind_eq_ok_iff.mp h with ⟨bit, hbit, h⟩
  rcases checkedShift_eq_ok_iff.mp hbit with ⟨_, rfl⟩
  rcases bind_eq_ok_iff.mp h with ⟨mask, hmask, h⟩
  cases hmask
  rcases bind_eq_ok_iff.mp h with ⟨_, hroom, h⟩
  cases h
  have hor := orCrash_eq_ok_iff.mp hroom
  rw [Bool.or_eq_true, decide_eq_true_iff, decide_eq_true_iff] at hor
  exact ⟨hor.imp_right Nat.le_zero.mp, Buffer.size_tabulate _ _⟩

namespace Machine

variable {place : Place} {whole chunk : Machine ℝ} {qs : List Nat} {final outcome q : Nat} {p : ℝ}

namespace IsChunkOf

theorem exists_project (h : IsChunkOf place chunk whole) (hnodup : qs.Nodup)
    (hqs : forall q, q ∈ qs -> q < chunk.width) (houtcome : outcome < twoPow qs.length) (p : ℝ) :
    exists chunk' whole', chunk.project qs outcome p = .ok chunk' ∧
      whole.project qs outcome p = .ok whole' ∧ IsChunkOf place chunk' whole' := by
  have hlen : qs.length < 59 := Nat.lt_trans (h.length_lt_half hnodup hqs) (by decide)
  rw [project_eq_applyDiagonal hlen houtcome, project_eq_applyDiagonal hlen houtcome]
  exact h.exists_applyDiagonal hnodup hqs (size_projector _ _ _)

theorem exists_exchangeOutcomes (h : IsChunkOf place chunk whole) (hnodup : qs.Nodup)
    (hqs : forall q, q ∈ qs -> q < chunk.width) (hfinal : final < twoPow qs.length)
    (houtcome : outcome < twoPow qs.length)
    (hroom : RoomToMove qs final outcome)
    (hfree : final = outcome ∨ forall q, q ∈ qs -> q < chunk.place.width) :
    exists chunk' whole', chunk.exchangeOutcomes qs final outcome = .ok chunk' ∧
      whole.exchangeOutcomes qs final outcome = .ok whole' ∧ IsChunkOf place chunk' whole' := by
  by_cases hsame : final = outcome
  · exact ⟨chunk, whole, if_pos hsame, if_pos hsame, h⟩
  · have hlocal := hfree.resolve_left hsame
    rcases single_or_several hsame hfinal houtcome with ⟨q, rfl⟩ | hmany
    · have hword := h.lt_wordBits hqs
      have hflip := h.data.sided h.valid .flip rfl hnodup
        (fun q hq => absurd hq List.not_mem_nil) hlocal
      rw [show chunk.place.localOf [] = [] from rfl, show chunk.place.globalOf [] = [] from rfl,
        Place.holds_nil, Place.holds_nil, Sided.sides_true_true, List.nil_append] at hflip
      rw [exchangeOutcomes_single hsame, exchangeOutcomes_single hsame,
        update_eq_onData (Store.applyFlip_eq h.qubits_chunk_lt hword),
        update_eq_onData (Store.applyFlip_eq h.qubits_whole_lt hword), h.qubits]
      exact h.exists_onData hflip
    · have hlen := (roomToMove_iff.mp hroom).resolve_left hsame
      rw [exchangeOutcomes_several hsame hmany hlen hfinal houtcome,
        exchangeOutcomes_several hsame hmany hlen hfinal houtcome]
      exact h.exists_applyMatrix hnodup hqs hlocal (twoPow_ne_one hmany) rfl rfl

/-- A global qubit has no bit in the columns of a chunk, and the flip does not check that. -/
theorem exchangeOutcomes_global (h : IsChunkOf place chunk whole) (hq : q < chunk.width)
    (hglobal : chunk.place.width ≤ q) (hne : final ≠ outcome) :
    chunk.exchangeOutcomes [q] final outcome = crash := by
  have hword : forall i, i ∈ [q] -> i < wordBits :=
    h.lt_wordBits fun i hi => List.mem_singleton.mp hi ▸ hq
  rw [exchangeOutcomes_single hne,
    update_eq_onData (Store.applyFlip_eq h.qubits_chunk_lt hword)]
  cases hstep : chunk.onData (Sided.flip.both chunk.store.qubits [q]) with
  | ok chunk' =>
      rcases onData_eq_ok_iff.mp hstep with ⟨part', hpart', _⟩
      rcases bind_eq_ok_iff.mp hpart' with ⟨part1, hrows, hcolumns⟩
      have hsize := (Kernel.size_of_flip hrows).2
      have hbelow : chunk.store.data.size ≤ twoPow (q + chunk.place.width) := by
        rw [h.data.part_size]
        exact twoPow_le_twoPow (by omega)
      have hpos : 0 < chunk.store.data.size := by
        rw [h.data.part_size]
        exact twoPow_pos _
      rcases (Kernel.size_of_flip hcolumns).1 with hroom | hempty
      · rw [hsize] at hroom
        exact absurd hroom (Nat.not_lt.mpr hbelow)
      · rw [hsize] at hempty
        exact absurd hempty hpos.ne'
  | error fault =>
      have hfault := eq_crash_of_error (show NoRefusal _ by
        unfold Machine.onData update Store.transform Sided.both
        simp [Sided.kernel_flip]) hstep
      rw [hfault]
      rfl

theorem exchangeOutcomes_refused (h : IsChunkOf place chunk whole) (hnodup : qs.Nodup)
    (hqs : forall q, q ∈ qs -> q < chunk.width) (hfinal : final < twoPow qs.length)
    (houtcome : outcome < twoPow qs.length) (hroom : RoomToMove qs final outcome)
    (hne : final ≠ outcome) (hmany : 2 ≤ qs.length)
    (hfind : qs.find? (fun q => chunk.store.qubits ≤ q) = some q) :
    chunk.exchangeOutcomes qs final outcome = refuse (.globalQubit "matrix" q) := by
  have hlen := (roomToMove_iff.mp hroom).resolve_left hne
  rw [exchangeOutcomes_several hne hmany hlen hfinal houtcome]
  exact applyMatrix_eq_refuse (twoPow_ne_one hmany) (h.length_lt_wordBits hnodup hqs) rfl rfl
    (requireLocal_eq_refuse h.isSplit_chunk hfind "matrix")

theorem isProjected (h : IsChunkOf place chunk whole) (hnodup : qs.Nodup)
    (hqs : forall q, q ∈ qs -> q < chunk.width) (houtcome : outcome < twoPow qs.length)
    (hp : 0 < p) {chunk' : Machine ℝ} (hchunk : chunk.project qs outcome p = .ok chunk') :
    IsProjected place qs outcome p chunk.store.data chunk'.store.data := by
  rcases h.exists_project hnodup hqs houtcome p with ⟨chunk1, whole', hchunk1, hwhole, hrel⟩
  cases hchunk.symm.trans hchunk1
  have hwidth : whole.width = whole.store.qubits := h.width.trans h.qubits.symm
  rcases (project_eq_ok_iff hwidth h.qubits_whole_lt (h.width ▸ hqs) hp).mp hwhole with ⟨_, rfl⟩
  have hdata := hrel.data
  rw [hrel.place_eq, ← h.place_eq] at hdata
  have hentry : forall x, x < chunk.store.data.size -> chunk'.store.data.entry x =
      if chunk.place.Shows qs outcome x then ofReal p⁻¹ * chunk.store.data.entry x else 0 := by
    intro x hx
    rw [h.data.part_size] at hx
    have hembed : chunk.place.embed x < whole.store.data.size := by
      rw [h.data.full_size]
      exact Place.embed_lt h.valid.fits hx
    rw [hdata.entry_eq x hx, h.data.entry_eq x hx]
    change (Buffer.tabulate _ (whole.collapsedEntry qs outcome p)).entry _ = _
    rw [Buffer.entry_tabulate_of_lt _ hembed]
    unfold collapsedEntry
    rw [h.qubits]
    exact if_congr Place.shows_iff.symm rfl rfl
  rw [← h.place_eq]
  exact ⟨by rw [hdata.part_size, h.data.part_size],
    fun x hx hshows => (hentry x hx).trans (if_pos hshows),
    fun x hx hshows => (hentry x hx).trans (if_neg hshows)⟩

theorem exists_collapse (h : IsChunkOf place chunk whole) (hnodup : qs.Nodup)
    (hqs : forall q, q ∈ qs -> q < chunk.width) (hfinal : final < twoPow qs.length)
    (houtcome : outcome < twoPow qs.length) (hroom : RoomToMove qs final outcome)
    (hfree : final = outcome ∨ forall q, q ∈ qs -> q < chunk.place.width) (p : ℝ) :
    exists chunk' whole', chunk.collapse qs final outcome p = (.ok (), chunk') ∧
      whole.collapse qs final outcome p = (.ok (), whole') ∧ IsChunkOf place chunk' whole' := by
  rcases h.exists_project hnodup hqs houtcome p with ⟨chunk1, whole1, hchunk1, hwhole1, h1⟩
  have hplace : chunk1.place = chunk.place := h1.place_eq.trans h.place_eq.symm
  have hwidth : chunk1.width = chunk.width := congrArg Place.register hplace
  rcases h1.exists_exchangeOutcomes hnodup (hwidth ▸ hqs) hfinal houtcome hroom
    (hplace ▸ hfree) with
    ⟨chunk2, whole2, hchunk2, hwhole2, h2⟩
  exact ⟨chunk2, whole2, collapse_of_ok hchunk1 hchunk2, collapse_of_ok hwhole1 hwhole2, h2⟩

theorem exists_collapse_crash (h : IsChunkOf place chunk whole) (hq : q < chunk.width)
    (hglobal : chunk.place.width ≤ q) (hne : final ≠ outcome) (houtcome : outcome < 2) (p : ℝ) :
    exists chunk', chunk.collapse [q] final outcome p = (crash, chunk') := by
  have hqs : forall i, i ∈ [q] -> i < chunk.width := fun i hi => List.mem_singleton.mp hi ▸ hq
  rcases h.exists_project (List.nodup_singleton q) hqs houtcome p with
    ⟨chunk1, whole1, hchunk1, _, h1⟩
  have hplace : chunk1.place = chunk.place := h1.place_eq.trans h.place_eq.symm
  have hwidth : chunk1.width = chunk.width := congrArg Place.register hplace
  exact ⟨chunk1, collapse_of_error hchunk1
    (h1.exchangeOutcomes_global (hwidth ▸ hq) (hplace ▸ hglobal) hne)⟩

theorem exists_collapse_refused (h : IsChunkOf place chunk whole) (hnodup : qs.Nodup)
    (hqs : forall q, q ∈ qs -> q < chunk.width) (hfinal : final < twoPow qs.length)
    (houtcome : outcome < twoPow qs.length) (hroom : RoomToMove qs final outcome)
    (hne : final ≠ outcome) (hmany : 2 ≤ qs.length)
    (hfind : qs.find? (fun q => chunk.place.width ≤ q) = some q) (p : ℝ) :
    exists chunk', chunk.project qs outcome p = .ok chunk' ∧
      chunk.collapse qs final outcome p = (refuse (.globalQubit "matrix" q), chunk') := by
  rcases h.exists_project hnodup hqs houtcome p with ⟨chunk1, whole1, hchunk1, _, h1⟩
  have hplace : chunk1.place = chunk.place := h1.place_eq.trans h.place_eq.symm
  have hwidth : chunk1.width = chunk.width := congrArg Place.register hplace
  have hqubits : chunk1.store.qubits = chunk.place.width := congrArg Place.width hplace
  exact ⟨chunk1, hchunk1, collapse_of_error hchunk1
    (h1.exchangeOutcomes_refused hnodup (hwidth ▸ hqs) hfinal houtcome hroom hne hmany
      (hqubits ▸ hfind))⟩

theorem exists_collapse_without_room (h : IsChunkOf place chunk whole) (hnodup : qs.Nodup)
    (hqs : forall q, q ∈ qs -> q < chunk.width) (houtcome : outcome < twoPow qs.length)
    (hroom : ¬RoomToMove qs final outcome) (p : ℝ) :
    exists chunk', chunk.project qs outcome p = .ok chunk' ∧
      chunk.collapse qs final outcome p = (crash, chunk') := by
  rcases h.exists_project hnodup hqs houtcome p with ⟨chunk', _, hchunk', _, _⟩
  exact ⟨chunk', hchunk', collapse_of_error hchunk' (exchangeOutcomes_without_room hroom)⟩

end IsChunkOf

end Machine

/-- A collapse succeeds on the register.  A chunk follows it if the outcome stays where it is
or all of the qubits are the chunk's own.  Otherwise a single qubit crashes, and of several
the first global one is refused: the chunk is then left projected, which is as it was only
where every entry that is not zero shows the outcome, and the outcome is certain.  Where the
matrix that moves an outcome does not fit in memory, chunk and register crash when they are
projected. -/
theorem extractChunk_collapse {N L k : Nat} {full : Buffer ℝ} (hL : L < N)
    (hN : 2 * N < wordBits) (hk : k < twoPow (2 * (N - L)))
    (hfull : full.size = twoPow (2 * N)) :
    exists part store, extractChunk full ⟨N, L, k⟩ = .ok part ∧
      Store.ofChunk L k part = .ok store ∧
      forall (whole : Machine ℝ) (qs : List Nat) (final outcome : Nat) (p : ℝ),
        whole.width = N -> whole.store.qubits = N -> whole.store.data = full ->
        qs.Nodup -> (forall q, q ∈ qs -> q < N) ->
        final < twoPow qs.length -> outcome < twoPow qs.length -> 0 < p ->
        exists result chunk',
          Machine.collapse { Machine.ofChunk store N with classical := whole.classical }
            qs final outcome p = (result, chunk') ∧
          (Machine.RoomToMove qs final outcome -> exists whole',
            whole.collapse qs final outcome p = (.ok (), whole') ∧
            (forall r c, r < twoPow N -> c < twoPow N -> whole'.store.data.toEntries N r c =
              Machine.movedBlock qs final outcome p (full.toEntries N) r c) ∧
            (final = outcome ∨ (forall q, q ∈ qs -> q < L) ->
              result = .ok () ∧
                extractChunk whole'.store.data ⟨N, L, k⟩ = .ok chunk'.store.data) ∧
            forall q, final ≠ outcome -> qs.find? (fun q => L ≤ q) = some q ->
              (qs = [q] -> result = crash) ∧
              (qs ≠ [q] -> result = refuse (.globalQubit "matrix" q) ∧
                IsProjected ⟨N, L, k⟩ qs outcome p part chunk'.store.data ∧
                (chunk'.store.data = part ↔ forall x, x < part.size ->
                  part.entry x = 0 ∨ (Place.Shows ⟨N, L, k⟩ qs outcome x ∧ p = 1)))) ∧
          (¬Machine.RoomToMove qs final outcome ->
            (whole.collapse qs final outcome p).1 = crash ∧ result = crash ∧
              IsProjected ⟨N, L, k⟩ qs outcome p part chunk'.store.data) := by
  have hplace : Place.Valid ⟨N, L, k⟩ := ⟨hL, hN, hk⟩
  rcases exists_chunk hplace hfull with ⟨part, hpart, hstore, hchunk⟩
  refine ⟨part, ⟨L, k, part⟩, hpart, hstore, ?_⟩
  intro whole qs final outcome p hwidth hqubits hdata hnodup hqs hfinal houtcome hp
  have hsize : whole.store.data.size = twoPow (2 * N) := by rw [hdata, hfull]
  have hlists : whole.Lists N qs := ⟨⟨⟨hwidth, hqubits, Or.inl hsize⟩, hsize, hN⟩, hqs⟩
  have hrel := hchunk.isChunkOf hL hN hk whole hwidth hqubits hdata
  have hinside : forall q, q ∈ qs -> q < max N L :=
    fun q hq => Nat.lt_of_lt_of_le (hqs q hq) (Nat.le_max_left N L)
  -- Without room both crash, but only after the projection of the chunk.
  by_cases hroom : Machine.RoomToMove qs final outcome
  swap
  · rcases hrel.exists_collapse_without_room hnodup hinside houtcome hroom p with
      ⟨chunk', hproject, hchunk'⟩
    exact ⟨crash, chunk', hchunk', fun h => absurd h hroom, fun _ =>
      ⟨hlists.collapse_without_room hnodup houtcome hroom hp, rfl,
        hrel.isProjected hnodup hinside houtcome hp hproject⟩⟩
  rcases hlists.gives_collapse hnodup hfinal houtcome hroom hp with ⟨whole', hwhole, hholds⟩
  have hentries := hholds.entries
  rw [hdata] at hentries
  by_cases hfree : final = outcome ∨ forall q, q ∈ qs -> q < L
  · rcases hrel.exists_collapse hnodup hinside hfinal houtcome hroom hfree p with
      ⟨chunk', whole1, hchunk', hwhole1, hrel'⟩
    cases hwhole.symm.trans hwhole1
    have hdata' := hrel'.data
    rw [hrel'.place_eq] at hdata'
    refine ⟨.ok (), chunk', hchunk', fun _ => ⟨whole', hwhole, hentries,
      fun _ => ⟨rfl, (extractChunk_eq_ok_iff hplace hdata'.full_size).mpr hdata'⟩, ?_⟩,
      fun h => absurd hroom h⟩
    intro q hne hfind
    have hlocal := hfree.resolve_left hne q (List.mem_of_find?_eq_some hfind)
    have hle := List.find?_some hfind
    exact absurd hlocal (Nat.not_lt.mpr (of_decide_eq_true hle))
  · rcases not_or.mp hfree with ⟨hne, hglobal⟩
    rcases Machine.single_or_several hne hfinal houtcome with ⟨q, rfl⟩ | hmany
    · have hq : L ≤ q := Nat.not_lt.mp fun hlt => hglobal fun i hi => List.mem_singleton.mp hi ▸ hlt
      rcases hrel.exists_collapse_crash (hinside q List.mem_cons_self) hq hne houtcome p with
        ⟨chunk', hchunk'⟩
      refine ⟨crash, chunk', hchunk', fun _ => ⟨whole', hwhole, hentries,
        fun h => absurd h hfree, ?_⟩, fun h => absurd hroom h⟩
      intro i _ hfind
      have hi : i = q := List.mem_singleton.mp (List.mem_of_find?_eq_some hfind)
      exact ⟨fun _ => rfl, fun hnot => absurd (congrArg (fun j => [j]) hi.symm) hnot⟩
    · cases hfind : qs.find? (fun q => L ≤ q) with
      | none =>
          refine absurd (fun q hq => ?_) hglobal
          have hsmall := List.find?_eq_none.mp hfind q hq
          exact Nat.not_le.mp fun hle => hsmall (decide_eq_true hle)
      | some q =>
          rcases hrel.exists_collapse_refused hnodup hinside hfinal houtcome hroom hne hmany hfind
            p with ⟨chunk', hproject, hchunk'⟩
          have hprojected := hrel.isProjected hnodup hinside houtcome hp hproject
          refine ⟨refuse (.globalQubit "matrix" q), chunk', hchunk', fun _ => ⟨whole', hwhole,
            hentries, fun h => absurd h hfree, ?_⟩, fun h => absurd hroom h⟩
          intro i _ hi
          cases hi
          refine ⟨fun hsingle => ?_, fun _ => ⟨rfl, hprojected, hprojected.eq_self_iff⟩⟩
          rw [hsingle] at hmany
          exact absurd hmany (show ¬2 ≤ 1 by decide)

/-- The first chunk of `|00⟩⟨00|` loses its entry when both qubits, of which it has one, are
projected onto an outcome that its entry does not show, and the move is refused. -/
theorem extractChunk_collapse_projected :
    exists (part : Buffer ℝ) (store : Store ℝ) (chunk' : Machine ℝ),
      extractChunk (Buffer.tabulate 16 fun x => if x = 0 then 1 else 0) ⟨2, 1, 0⟩ = .ok part ∧
      Store.ofChunk 1 0 part = .ok store ∧
      (Machine.ofChunk store 2).collapse [0, 1] 0 1 1 =
        (refuse (.globalQubit "matrix" 1), chunk') ∧
      part.entry 0 = 1 ∧ chunk'.store.data.entry 0 = 0 := by
  have hsize : (Buffer.tabulate 16 fun x => if x = 0 then 1 else 0 : Buffer ℝ).size
      = twoPow (2 * 2) := Buffer.size_tabulate _ _
  have hplace : Place.Valid ⟨2, 1, 0⟩ := ⟨by decide, by decide, by decide⟩
  rcases extractChunk_collapse (by decide : 1 < 2) (by decide)
    (by decide : 0 < twoPow (2 * (2 - 1))) hsize with ⟨part, store, hpart, hstore, hrun⟩
  rcases hrun (Machine.ofStore ⟨2, 0, Buffer.tabulate 16 fun x => if x = 0 then 1 else 0⟩)
    [0, 1] 0 1 1 rfl rfl rfl (by decide) (by decide) (by decide) (by decide) one_pos with
    ⟨result, chunk', hchunk', hmoves, _⟩
  rcases hmoves (Machine.roomToMove_iff.mpr (Or.inr (by decide))) with ⟨_, _, _, _, hglobal⟩
  rcases (hglobal 1 (by decide) (by decide)).2 (by decide) with ⟨rfl, hprojected, _⟩
  have hchunk := (extractChunk_eq_ok_iff hplace hsize).mp hpart
  have hzero : 0 < part.size := by
    rw [hchunk.part_size]
    exact twoPow_pos _
  refine ⟨part, store, chunk', hpart, hstore, hchunk', ?_, hprojected.hidden 0 hzero ?_⟩
  · rw [hchunk.entry_eq 0 (by decide)]
    exact Buffer.entry_tabulate_of_lt _ (by decide : 0 < 16)
  · intro hshows
    exact absurd (hshows false) (by decide)

end MixedState
