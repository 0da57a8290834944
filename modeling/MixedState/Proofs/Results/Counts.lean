import Mathlib.Algebra.BigOperators.Ring.Finset
import MixedState.Command.Report

/-!
# Counts of outcomes

A map that is only written by insertion lists its keys in ascending order, so that a key has
one entry.  The counts of a list of outcomes therefore add up to its length.
-/

namespace MixedState

namespace KeyMap

/-!
## Ascending keys
-/

section Sorted

variable {α : Type} {key : String} {value : α}

def IsSorted (m : KeyMap α) : Prop :=
  m.entries.Pairwise fun a b => a.1 < b.1

theorem mem_insertIn {entry : String × α} {entries : List (String × α)}
    (h : entry ∈ insertIn key value entries) : entry = (key, value) ∨ entry ∈ entries := by
  induction entries with
  | nil =>
      exact Or.inl (List.mem_singleton.mp h)
  | cons first rest ih =>
      rcases first with ⟨k, v⟩
      unfold insertIn at h
      split at h
      · rcases List.mem_cons.mp h with h | h
        · exact Or.inl h
        · exact Or.inr (List.mem_cons_of_mem _ h)
      · split at h
        · exact List.mem_cons.mp h
        · rcases List.mem_cons.mp h with rfl | h
          · exact Or.inr List.mem_cons_self
          · exact (ih h).imp id (List.mem_cons_of_mem _)

theorem pairwise_insertIn {entries : List (String × α)}
    (h : entries.Pairwise fun a b => a.1 < b.1) :
    (insertIn key value entries).Pairwise fun a b => a.1 < b.1 := by
  induction entries with
  | nil =>
      exact List.pairwise_singleton _ _
  | cons first rest ih =>
      rcases first with ⟨k, v⟩
      rcases List.pairwise_cons.mp h with ⟨hfirst, hrest⟩
      unfold insertIn
      split
      · next hsame =>
          rw [← hsame]
          exact List.pairwise_cons.mpr ⟨hfirst, hrest⟩
      · next hother =>
          split
          · next hless =>
              refine List.pairwise_cons.mpr ⟨?_, h⟩
              intro entry hentry
              rcases List.mem_cons.mp hentry with rfl | hentry
              · exact hless
              · exact String.lt_trans hless (hfirst entry hentry)
          · next hnot =>
              refine List.pairwise_cons.mpr ⟨?_, ih hrest⟩
              intro entry hentry
              rcases mem_insertIn hentry with rfl | hentry
              · by_cases hlate : k < key
                · exact hlate
                · exact absurd (String.le_antisymm (String.not_lt.mp hnot)
                    (String.not_lt.mp hlate)) hother
              · exact hfirst entry hentry

theorem IsSorted.update {m : KeyMap α} (h : m.IsSorted) (key : String)
    (f : Option α -> α) : (m.update key f).IsSorted :=
  pairwise_insertIn h

theorem findIn_of_lt {entries : List (String × α)}
    (h : forall entry, entry ∈ entries -> key < entry.1) : findIn key entries = none := by
  induction entries with
  | nil =>
      rfl
  | cons first rest ih =>
      rcases List.forall_mem_cons.mp h with ⟨hfirst, hrest⟩
      have hne : first.1 ≠ key := fun hsame => String.lt_irrefl key (hsame ▸ hfirst)
      unfold findIn
      rw [if_neg hne]
      exact ih hrest

end Sorted

/-!
## Totals
-/

def total (m : KeyMap Nat) : Nat :=
  (m.toList.map Prod.snd).sum

theorem sum_insertIn {key : String} {value : Nat} {entries : List (String × Nat)}
    (h : entries.Pairwise fun a b => a.1 < b.1) :
    ((insertIn key value entries).map Prod.snd).sum + (findIn key entries).getD 0 =
      (entries.map Prod.snd).sum + value := by
  induction entries with
  | nil =>
      exact Nat.add_comm value 0
  | cons first rest ih =>
      rcases first with ⟨k, v⟩
      rcases List.pairwise_cons.mp h with ⟨hfirst, hrest⟩
      unfold insertIn findIn
      by_cases hsame : k = key
      · rw [if_pos hsame, if_pos hsame]
        simp only [List.map_cons, List.sum_cons, Option.getD_some]
        omega
      · rw [if_neg hsame, if_neg hsame]
        by_cases hless : key < k
        · have hnone : findIn key rest = none :=
            findIn_of_lt fun entry hentry => String.lt_trans hless (hfirst entry hentry)
          rw [if_pos hless, hnone]
          simp only [List.map_cons, List.sum_cons, Option.getD_none]
          omega
        · have hstep := ih hrest
          rw [if_neg hless]
          simp only [List.map_cons, List.sum_cons]
          omega

theorem total_increment {m : KeyMap Nat} (h : m.IsSorted) (key : String) :
    (m.update key fun n => n.getD 0 + 1).total = m.total + 1 := by
  have hsum : (m.update key fun n => n.getD 0 + 1).total + (m.find? key).getD 0 =
      m.total + ((m.find? key).getD 0 + 1) := sum_insertIn h
  omega

end KeyMap

/-!
## Outcomes
-/

theorem total_foldl_outcomes {counts : KeyMap Nat} (h : counts.IsSorted) (outcomes : List Nat) :
    (outcomes.foldl (fun counts i => counts.update (Hex.label i) fun n => n.getD 0 + 1)
      counts).total = counts.total + outcomes.length := by
  induction outcomes generalizing counts with
  | nil =>
      rfl
  | cons i rest ih =>
      rw [List.foldl_cons, ih (h.update _ _), KeyMap.total_increment h, List.length_cons]
      omega

theorem total_countOutcomes (outcomes : List Nat) :
    (countOutcomes outcomes).total = outcomes.length := by
  have hempty : (KeyMap.empty : KeyMap Nat).IsSorted := List.Pairwise.nil
  unfold countOutcomes
  rw [total_foldl_outcomes hempty]
  exact Nat.zero_add _

theorem label_of_mem_foldl {counts : KeyMap Nat} {outcomes : List Nat} {entry : String × Nat}
    (h : entry ∈ (outcomes.foldl (fun counts i =>
      counts.update (Hex.label i) fun n => n.getD 0 + 1) counts).toList) :
    entry ∈ counts.toList ∨ exists i, i ∈ outcomes ∧ entry.1 = Hex.label i := by
  induction outcomes generalizing counts with
  | nil =>
      exact Or.inl h
  | cons i rest ih =>
      rcases ih h with h | ⟨j, hj, hlabel⟩
      · rcases KeyMap.mem_insertIn h with rfl | h
        · exact Or.inr ⟨i, List.mem_cons_self, rfl⟩
        · exact Or.inl h
      · exact Or.inr ⟨j, List.mem_cons_of_mem i hj, hlabel⟩

theorem label_of_mem_countOutcomes {outcomes : List Nat} {entry : String × Nat}
    (h : entry ∈ (countOutcomes outcomes).toList) :
    exists i, i ∈ outcomes ∧ entry.1 = Hex.label i := by
  rcases label_of_mem_foldl h with h | h
  · exact absurd h List.not_mem_nil
  · exact h

end MixedState
