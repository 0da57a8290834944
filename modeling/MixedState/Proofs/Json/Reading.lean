import MixedState.Json.Parser
import MixedState.Proofs.Json.Codec

/-!
# What is read can be written

Numbers of a text fit words or are finite, so every value that is read from one can be
written again.
-/

namespace MixedState

/-!
## Numbers
-/

namespace Decimal

theorem wordDigits_lt {word : Nat} (count : Nat) (cs : List Char) (hword : word < wordSize) :
    (wordDigits word count cs).1 < wordSize := by
  induction cs generalizing word count with
  | nil =>
      exact hword
  | cons c rest ih =>
      unfold wordDigits
      split
      · next d hd =>
          have hfits := (Option.filter_eq_some_iff.mp hd).2
          exact ih _ (of_decide_eq_true hfits)
      · exact hword

end Decimal

namespace Json

theorem isProper_ofScaled {s : Decimal.Scaled} (negative : Bool) (hword : s.word < wordSize) :
    (ofScaled negative s).IsProper := by
  unfold ofScaled
  split
  · next x hx =>
      exact .real (Double.isFinite_signedFloat? hword hx)
  · exact .unreadable

theorem isProper_ofInteger {n : Nat} (negative : Bool) (hword : n < wordSize) :
    (ofInteger negative n).IsProper := by
  unfold ofInteger
  cases negative with
  | false =>
      refine .int ?_ (Int.ofNat_lt.mpr hword)
      change (-9223372036854775808 : Int) ≤ (n : Int)
      omega
  | true =>
      rw [if_neg (by decide)]
      split
      · exact isProper_ofScaled true hword
      · next hsmall =>
          refine .int ?_ ?_
          · change (-9223372036854775808 : Int) ≤ -(n : Int)
            omega
          · change -(n : Int) < 18446744073709551616
            omega

theorem word_of_fraction? {s scaled : Decimal.Scaled} {cs rest : List Char}
    (hword : s.word < wordSize) (h : fraction? s cs = some (scaled, rest)) :
    scaled.word < wordSize := by
  unfold fraction? at h
  split at h
  · dsimp only at h
    split at h
    · cases h
    · cases h
      exact Decimal.wordDigits_lt 0 _ hword
  · cases h
    exact hword

theorem isProper_of_literal {p : Prop} [Decidable p] {negative : Bool} {n word : Nat}
    {exponent : Int} {tail rest : List Char} {v : Json Float} (hn : n < wordSize)
    (hword : word < wordSize)
    (h : (if p then some (ofInteger negative n, tail)
      else some (ofScaled negative ⟨word, exponent⟩, tail)) = some (v, rest)) : v.IsProper := by
  split at h
  · cases h
    exact isProper_ofInteger negative hn
  · cases h
    exact isProper_ofScaled negative hword

theorem isProper_of_number? {cs rest : List Char} {v : Json Float}
    (h : number? cs = some (v, rest)) : v.IsProper := by
  unfold number? at h
  split at h
  next negative s _ =>
    have hword : (Decimal.wordDigits 0 0 s).1 < wordSize :=
      Decimal.wordDigits_lt 0 s (by decide)
    rcases Option.bind_eq_some_iff.mp h with ⟨_, -, h⟩
    rcases Option.bind_eq_some_iff.mp h with ⟨⟨scaled, rest'⟩, hfraction, h⟩
    have hscaled := word_of_fraction? hword hfraction
    dsimp only at h
    split at h <;> rcases Option.bind_eq_some_iff.mp h with ⟨_, -, h⟩ <;>
      exact isProper_of_literal hword hscaled h

/-!
## Values
-/

structure ReadsProper (fuel : Nat) : Prop where
  value : forall {cs rest : List Char} {v : Json Float},
    value? fuel cs = some (v, rest) -> v.IsProper
  elements : forall {reversed : List (Json Float)} {cs rest : List Char} {v : Json Float},
    (forall w, w ∈ reversed -> w.IsProper) ->
      elements? fuel reversed cs = some (v, rest) -> v.IsProper
  members : forall {reversed : Members Float} {whole : Bool} {cs rest : List Char}
    {v : Json Float}, (forall member, member ∈ reversed -> member.2.IsProper) ->
      members? fuel reversed whole cs = some (v, rest) -> v.IsProper

theorem ReadsProper.value_succ {fuel : Nat} (ih : ReadsProper fuel) {cs rest : List Char}
    {v : Json Float} (h : value? (fuel + 1) cs = some (v, rest)) : v.IsProper := by
  unfold value? at h
  split at h
  · cases h
    exact .null
  · cases h
    exact .bool true
  · cases h
    exact .bool false
  · split at h
    · cases h
      exact .str _
    · cases h
      exact .unreadable
    · cases h
  · split at h
    · cases h
      exact .arr nofun
    · exact ih.elements (List.forall_mem_nil _) h
  · split at h
    · cases h
      exact .obj nofun
    · exact ih.members (List.forall_mem_nil _) h
  · exact isProper_of_number? h

theorem ReadsProper.elements_succ {fuel : Nat} (ih : ReadsProper fuel)
    {reversed : List (Json Float)} {cs rest : List Char} {v : Json Float}
    (hreversed : forall w, w ∈ reversed -> w.IsProper)
    (h : elements? (fuel + 1) reversed cs = some (v, rest)) : v.IsProper := by
  unfold elements? at h
  split at h
  · cases h
  · next w tail hw =>
      have hall := List.forall_mem_cons.mpr ⟨ih.value hw, hreversed⟩
      split at h
      · exact ih.elements hall h
      · cases h
        exact .arr fun w hmem => hall w (List.mem_reverse.mp hmem)
      · cases h

theorem ReadsProper.members_succ {fuel : Nat} (ih : ReadsProper fuel) {reversed : Members Float}
    {whole : Bool} {cs rest : List Char} {v : Json Float}
    (hreversed : forall member, member ∈ reversed -> member.2.IsProper)
    (h : members? (fuel + 1) reversed whole cs = some (v, rest)) : v.IsProper := by
  unfold members? at h
  split at h
  · split at h
    · cases h
    · next name tail hname =>
        split at h
        · split at h
          · cases h
          · next w tail' hw =>
              have hall : forall member, member ∈ (name.getD "", w) :: reversed ->
                  member.2.IsProper :=
                List.forall_mem_cons.mpr ⟨ih.value hw, hreversed⟩
              dsimp only at h
              split at h
              · exact ih.members hall h
              · cases h
                split
                · exact .obj fun member hmem => hall member (List.mem_reverse.mp hmem)
                · exact .unreadable
              · cases h
        · cases h
  · cases h

theorem readsProper (fuel : Nat) : ReadsProper fuel := by
  induction fuel with
  | zero =>
      exact ⟨nofun, nofun, nofun⟩
  | succ fuel ih =>
      exact ⟨ih.value_succ, ih.elements_succ, ih.members_succ⟩

theorem isProper_of_parse? {text : String} {v : Json Float} (h : parse? text = some v) :
    v.IsProper := by
  unfold parse? at h
  dsimp only at h
  split at h
  · next w rest hw =>
      split at h
      · cases h
        exact (readsProper _).value hw
      · cases h
  · cases h

end Json
end MixedState
