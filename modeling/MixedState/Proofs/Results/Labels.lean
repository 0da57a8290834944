import MixedState.Proofs.Classical.Hex
import MixedState.Proofs.Results.Counts

/-!
# Labels of outcomes

The classical memory, the entries of a ket and the counts of outcomes are named by the same
texts: each is the label of a number, and different numbers have different labels.
-/

namespace MixedState

open MixedState.Hex (value label)

namespace KeyMap

variable {α : Type} {entries : List (String × α)} {key : String}

theorem find?_foldl_of_not_mem {m : KeyMap α} (h : key ∉ entries.map Prod.fst) :
    (entries.foldl (fun m (k, v) => m.insert k v) m).find? key = m.find? key := by
  induction entries generalizing m with
  | nil =>
      rfl
  | cons entry rest ih =>
      rcases not_or.mp fun hmem => h (List.mem_cons.mpr hmem) with ⟨hkey, hrest⟩
      rw [List.foldl_cons, ih hrest]
      exact find?_insert_of_ne hkey m _

theorem find?_ofList {value : α} (hnodup : (entries.map Prod.fst).Nodup)
    (h : (key, value) ∈ entries) : (ofList entries).find? key = some value := by
  unfold ofList
  generalize (empty : KeyMap α) = m
  induction entries generalizing m with
  | nil =>
      exact absurd h List.not_mem_nil
  | cons entry rest ih =>
      rcases List.nodup_cons.mp hnodup with ⟨hfirst, hrest⟩
      rw [List.foldl_cons]
      rcases List.mem_cons.mp h with rfl | h
      · rw [find?_foldl_of_not_mem hfirst]
        exact find?_insert_self m key value
      · exact ih hrest h _

end KeyMap

/-!
## Counts and kets
-/

theorem find?_foldl_outcomes (counts : KeyMap Nat) (outcomes : List Nat) (i : Nat) :
    (outcomes.foldl (fun counts i => counts.update (label i) fun n => n.getD 0 + 1)
      counts).find? (label i) =
      if i ∈ outcomes then some ((counts.find? (label i)).getD 0 + outcomes.count i)
      else counts.find? (label i) := by
  induction outcomes generalizing counts with
  | nil =>
      rfl
  | cons j rest ih =>
      rw [List.foldl_cons, ih]
      by_cases hsame : j = i
      · rw [hsame, KeyMap.update, KeyMap.find?_insert_self, if_pos List.mem_cons_self,
          List.count_cons_self, Option.getD_some]
        by_cases hrest : i ∈ rest
        · rw [if_pos hrest, Nat.add_assoc, Nat.add_comm 1]
        · rw [if_neg hrest, List.count_eq_zero_of_not_mem hrest]
      · have hother : label i ≠ label j := fun h => hsame (Hex.label_injective h).symm
        have hmem : i ∈ j :: rest ↔ i ∈ rest := by
          rw [List.mem_cons, or_iff_right (Ne.symm hsame)]
        rw [KeyMap.update, KeyMap.find?_insert_of_ne hother, List.count_cons_of_ne hsame]
        simp only [hmem]

theorem find?_countOutcomes (outcomes : List Nat) (i : Nat) :
    (countOutcomes outcomes).find? (label i) =
      if i ∈ outcomes then some (outcomes.count i) else none := by
  unfold countOutcomes
  rw [find?_foldl_outcomes, KeyMap.find?_empty, Option.getD_none, Nat.zero_add]

section Ket

variable {R : Type} [Scalar R]

theorem Experiment.nodup_labels (chop : R) (weights : List R) :
    (((weights.zipIdx.filter fun (p, _) => Scalar.le chop (Scalar.abs p)).map
      fun (p, i) => (label i, p)).map Prod.fst).Nodup := by
  rw [List.map_map]
  have hplaces : ((weights.zipIdx.filter fun (p, _) =>
      Scalar.le chop (Scalar.abs p)).map Prod.snd).Nodup := by
    apply List.Nodup.sublist (List.filter_sublist.map Prod.snd)
    rw [List.zipIdx_map_snd]
    exact List.nodup_range'
  have hlabels := hplaces.map (f := label) fun _ _ => Hex.label_injective
  rw [List.map_map] at hlabels
  exact hlabels

theorem Experiment.find?_ketOf (chop : R) (weights : List R) (i : Nat) :
    (ketOf chop weights).find? (label i) =
      weights[i]?.filter fun p => Scalar.le chop (Scalar.abs p) := by
  cases hkept : weights[i]?.filter fun p => Scalar.le chop (Scalar.abs p) with
  | some p =>
      rcases Option.filter_eq_some_iff.mp hkept with ⟨hp, hle⟩
      apply KeyMap.find?_ofList (nodup_labels chop weights)
      refine List.mem_map.mpr ⟨(p, i), List.mem_filter.mpr ⟨?_, hle⟩, rfl⟩
      exact List.mem_zipIdx_iff_getElem?.mpr hp
  | none =>
      apply KeyMap.find?_foldl_of_not_mem
      intro hmem
      rcases List.mem_map.mp hmem with ⟨_, hentry, hkey⟩
      rcases List.mem_map.mp hentry with ⟨⟨p, j⟩, hplace, rfl⟩
      obtain rfl : j = i := Hex.label_injective hkey
      rcases List.mem_filter.mp hplace with ⟨hplace, hle⟩
      have hp := List.mem_zipIdx_iff_getElem?.mp hplace
      exact Option.filter_eq_none_iff.mp hkept p hp hle

end Ket

/-!
## Names of outcomes
-/

namespace Experiment

variable {R : Type} [Scalar R]

/-- The memory is named by `0x` and lower-case digits without leading zeros.  The name can be
read and stands for the number that the memory holds, and for no other.  A ket, the counts of
outcomes and the results that are kept for each memory use the same names. -/
theorem memoryHex_names (c : Classical) :
    (exists cs, c.memoryHex = "0x" ++ String.ofList cs ∧ cs ≠ [] ∧
      (forall d, d ∈ cs -> d ∈ Hex.lowerDigits) ∧ (cs.head? = some '0' -> cs = ['0'])) ∧
    (c.memoryHex = "0x0" ↔ value c.memory = 0) ∧
    (exists bits, Hex.toBits? c.memoryHex = some bits ∧ value bits = value c.memory) ∧
    (forall c' : Classical, c.memoryHex = c'.memoryHex ↔ value c.memory = value c'.memory) ∧
    forall i, value c.memory = i -> c.memoryHex = label i ∧
      (forall (chop : R) (weights : List R), (ketOf chop weights).find? c.memoryHex =
        weights[i]?.filter fun p => Scalar.le chop (Scalar.abs p)) ∧
      (forall outcomes, (countOutcomes outcomes).find? c.memoryHex =
        if i ∈ outcomes then some (outcomes.count i) else none) ∧
      forall (e : Experiment R) kind key mode data, e.machine.classical = c ->
        e.put kind key mode data = e.archive.save (label i) key kind.name mode data := by
  have hlabel : forall c : Classical, c.memoryHex = label (value c.memory) :=
    fun c => Hex.ofBits_eq_label c.memory
  rw [hlabel c]
  refine ⟨?_, ?_, Hex.denotes_iff.mp (Hex.denotes_label _), ?_, ?_⟩
  · refine ⟨Nat.toDigits 16 (value c.memory), rfl, Nat.toDigits_ne_nil,
      fun d => Hex.mem_lowerDigits, ?_⟩
    intro hhead
    rw [Hex.eq_zero_of_head? hhead]
    exact Nat.toDigits_zero 16
  · exact ⟨fun h => Hex.label_injective h, fun h => congrArg label h⟩
  · intro c'
    rw [hlabel c']
    exact ⟨Hex.label_injective, congrArg label⟩
  · rintro i rfl
    refine ⟨rfl, fun chop weights => find?_ketOf chop weights _,
      fun outcomes => find?_countOutcomes outcomes _, ?_⟩
    rintro e kind key mode data rfl
    unfold put
    rw [hlabel]

end Experiment

end MixedState
