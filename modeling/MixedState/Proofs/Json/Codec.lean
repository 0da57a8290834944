import Mathlib.Data.List.Basic
import MixedState.Fault
import MixedState.Json.Basic
import MixedState.Proofs.Double.Finite

/-!
# Values that are written and read

A written form is read back where what is written is admissible, and what is read is
admissible where the value that it is read from has numbers of one word and finite scalars
only.  Fields of a record are looked up by name, wherever they stand.
-/

namespace MixedState

variable {α β : Type}

namespace Json

/-- Integers are words, with a sign or without, and scalars are finite. -/
inductive IsProper : Json Float -> Prop
  | null : IsProper .null
  | bool (b : Bool) : IsProper (.bool b)
  | int {n : Int} (hlow : -9223372036854775808 ≤ n) (hhigh : n < 18446744073709551616) :
      IsProper (.int n)
  | real {x : Float} (hx : Scalar.isFinite x = true) : IsProper (.real x)
  | str (s : String) : IsProper (.str s)
  | arr {values : List (Json Float)} (h : forall v, v ∈ values -> IsProper v) :
      IsProper (.arr values)
  | obj {members : Members Float} (h : forall member, member ∈ members -> IsProper member.2) :
      IsProper (.obj members)
  | unreadable : IsProper .unreadable

/-- Admissible data is read back from its written form, and only admissible data is read. -/
structure Codec (P : α -> Prop) (encode : α -> Json Float) (decode : Json Float -> Option α) :
    Prop where
  decode_encode : forall a, P a -> decode (encode a) = some a
  admissible : forall v a, v.IsProper -> decode v = some a -> P a

/-!
## Lists
-/

theorem mapM_map_encode {P : α -> Prop} {encode : α -> Json Float}
    {decode : Json Float -> Option α} (h : Codec P encode decode) {values : List α}
    (hvalues : forall a, a ∈ values -> P a) : (values.map encode).mapM decode = some values := by
  induction values with
  | nil =>
      rfl
  | cons a rest ih =>
      rcases List.forall_mem_cons.mp hvalues with ⟨ha, hrest⟩
      rw [List.map_cons, List.mapM_cons, h.decode_encode a ha, ih hrest]
      rfl

theorem forall_of_mapM {P : α -> Prop} {decode : Json Float -> Option α}
    {values : List (Json Float)} {as : List α}
    (hdecode : forall v, v ∈ values -> forall a, decode v = some a -> P a)
    (h : values.mapM decode = some as) : forall a, a ∈ as -> P a := by
  induction values generalizing as with
  | nil =>
      cases h
      nofun
  | cons v rest ih =>
      rcases List.forall_mem_cons.mp hdecode with ⟨hv, hrest⟩
      rw [List.mapM_cons] at h
      rcases Option.bind_eq_some_iff.mp h with ⟨a, ha, h⟩
      rcases Option.bind_eq_some_iff.mp h with ⟨others, hothers, h⟩
      cases h
      exact List.forall_mem_cons.mpr ⟨hv a ha, ih hrest hothers⟩

theorem Codec.list {P : α -> Prop} {encode : α -> Json Float} {decode : Json Float -> Option α}
    (h : Codec P encode decode) :
    Codec (fun as => forall a, a ∈ as -> P a) (ofList encode) (list? decode) where
  decode_encode _ has := mapM_map_encode h has
  admissible v as hv has := by
    cases hv with
    | arr hvalues =>
        exact forall_of_mapM (fun v hmem a => h.admissible v a (hvalues v hmem)) has
    | _ =>
        cases has

/-!
## Numbers and texts
-/

theorem codec_natural : Codec (fun n => n < wordSize) ofNat natural? where
  decode_encode _ hn := if_pos hn
  admissible v n _ hn := by
    unfold natural? at hn
    split at hn
    · split at hn
      · next hword =>
          cases hn
          exact hword
      · cases hn
    · cases hn

theorem codec_text : Codec (fun _ => True) str text? where
  decode_encode _ _ := rfl
  admissible _ _ _ _ := trivial

theorem codec_tag {name : α -> String} {ofName? : String -> Option α}
    (h : forall a, ofName? (name a) = some a) :
    Codec (fun _ => True) (fun a => .str (name a)) (fun v => v.tag?.bind ofName?) where
  decode_encode a _ := h a
  admissible _ _ _ _ := trivial

theorem codec_scalar :
    Codec (fun x => Scalar.isFinite x = true) (ofScalar (R := Float)) scalar? where
  decode_encode x hx := by
    unfold ofScalar
    rw [if_pos hx]
    rfl
  admissible v x hv hx := by
    cases hv with
    | int hlow hhigh =>
        cases hx
        exact Double.isFinite_ofInt (by omega) hhigh
    | real hfinite =>
        cases hx
        exact hfinite
    | _ =>
        cases hx

/-!
## Pairs and values that may be absent
-/

theorem Codec.pair {P : α -> Prop} {Q : β -> Prop} {first : α -> Json Float}
    {second : β -> Json Float} {first? : Json Float -> Option α} {second? : Json Float -> Option β}
    (ha : Codec P first first?) (hb : Codec Q second second?) :
    Codec (fun ab => P ab.1 ∧ Q ab.2) (fun ab => .arr [first ab.1, second ab.2])
      (pair? first? second?) where
  decode_encode ab hab := by
    unfold pair?
    dsimp only
    rw [ha.decode_encode _ hab.1, hb.decode_encode _ hab.2]
    rfl
  admissible v ab hv hab := by
    unfold pair? at hab
    split at hab
    · next v w =>
        rcases Option.bind_eq_some_iff.mp hab with ⟨a, hfirst, hab⟩
        rcases Option.bind_eq_some_iff.mp hab with ⟨b, hsecond, hab⟩
        cases hab
        cases hv with
        | arr hvalues =>
            exact ⟨ha.admissible v a (hvalues v (List.mem_cons_self ..)) hfirst,
              hb.admissible w b (hvalues w (by simp)) hsecond⟩
    · cases hab

theorem Codec.nullable {P : α -> Prop} {encode : α -> Json Float}
    {decode : Json Float -> Option α} (h : Codec P encode decode)
    (hnull : forall a, encode a ≠ .null) :
    Codec (fun o => forall a, a ∈ o -> P a) (fun o => o.elim .null encode) (nullable? decode) where
  decode_encode o ho := by
    cases o with
    | none =>
        rfl
    | some a =>
        unfold nullable?
        split
        · next heq =>
            exact absurd heq (hnull a)
        · exact congrArg (Option.map some) (h.decode_encode a (ho a rfl))
  admissible v o hv ho := by
    unfold nullable? at ho
    split at ho
    · cases ho
      nofun
    · rcases Option.map_eq_some_iff.mp ho with ⟨a, ha, rfl⟩
      rintro b ⟨⟩
      exact h.admissible v a hv ha

/-!
## Fields
-/

theorem isProper_of_record? {names : List String} {v : Json Float} {members : Members Float}
    (hv : v.IsProper) (h : record? names v = some members) :
    forall member, member ∈ members -> member.2.IsProper := by
  cases hv with
  | obj hmembers =>
      cases h
      exact hmembers
  | @arr values hvalues =>
      change (if values.length ≤ names.length then some (names.zip values) else none)
        = some members at h
      split at h
      · cases h
        intro member hmember
        exact hvalues member.2 (List.of_mem_zip hmember).2
      · cases h
  | _ =>
      cases h

end Json

namespace Members

open Json

variable {members : Members Float} {name : String} {P : α -> Prop} {encode : α -> Json Float}
  {decode : Json Float -> Option α} {a : α}

@[simp] theorem values_nil (name : String) : values name ([] : Members Float) = [] :=
  rfl

theorem values_cons (name : String) (member : String × Json Float) (rest : Members Float) :
    values name (member :: rest) =
      if member.1 = name then member.2 :: values name rest else values name rest := by
  unfold values
  rw [List.filterMap_cons]
  by_cases h : member.1 = name
  · simp [h]
  · simp [h]

theorem mem_values_iff {v : Json Float} : v ∈ members.values name ↔ (name, v) ∈ members := by
  induction members with
  | nil =>
      simp
  | cons member rest ih =>
      rcases member with ⟨other, w⟩
      rw [values_cons, List.mem_cons, Prod.mk.injEq, ← ih]
      dsimp only
      split
      · next h =>
          rw [List.mem_cons, h]
          simp
      · next h =>
          simp [Ne.symm h]

theorem values_of_mem {v : Json Float} (hnodup : (members.map Prod.fst).Nodup)
    (h : (name, v) ∈ members) : members.values name = [v] := by
  induction members with
  | nil =>
      cases h
  | cons member rest ih =>
      rw [List.map_cons, List.nodup_cons] at hnodup
      rw [values_cons]
      rcases List.mem_cons.mp h with rfl | h
      · have hnone : values name rest = [] := by
          rw [List.eq_nil_iff_forall_not_mem]
          intro w hw
          exact hnodup.1 (List.mem_map.mpr ⟨_, mem_values_iff.mp hw, rfl⟩)
        rw [if_pos rfl, hnone]
      · have hother : member.1 ≠ name := by
          rintro rfl
          exact hnodup.1 (List.mem_map.mpr ⟨_, h, rfl⟩)
        rw [if_neg hother, ih hnodup.2 h]

theorem values_of_not_mem (h : name ∉ members.map Prod.fst) : members.values name = [] := by
  rw [List.eq_nil_iff_forall_not_mem]
  intro w hw
  exact h (List.mem_map.mpr ⟨_, mem_values_iff.mp hw, rfl⟩)

theorem required_of_mem (hcodec : Codec P encode decode) (ha : P a)
    (hnodup : (members.map Prod.fst).Nodup) (h : (name, encode a) ∈ members) :
    members.required name decode = some a := by
  unfold required
  rw [values_of_mem hnodup h]
  exact hcodec.decode_encode a ha

theorem optional_of_mem {default : α} (hcodec : Codec P encode decode) (ha : P a)
    (hnodup : (members.map Prod.fst).Nodup) (h : (name, encode a) ∈ members) :
    members.optional name default decode = some a := by
  unfold optional
  rw [values_of_mem hnodup h]
  exact hcodec.decode_encode a ha

theorem optional_of_not_mem {default : α} (h : name ∉ members.map Prod.fst) :
    members.optional name default decode = some default := by
  unfold optional
  rw [values_of_not_mem h]

theorem admissible_of_required (hcodec : Codec P encode decode)
    (hproper : forall member, member ∈ members -> member.2.IsProper)
    (h : members.required name decode = some a) : P a := by
  unfold required at h
  split at h
  · next v hvalues =>
      have hmem : (name, v) ∈ members :=
        mem_values_iff.mp (hvalues ▸ List.mem_singleton_self v)
      exact hcodec.admissible v a (hproper _ hmem) h
  · cases h

theorem admissible_of_optional {default : α} (hcodec : Codec P encode decode) (hdefault : P default)
    (hproper : forall member, member ∈ members -> member.2.IsProper)
    (h : members.optional name default decode = some a) : P a := by
  unfold optional at h
  split at h
  · cases h
    exact hdefault
  · next v hvalues =>
      have hmem : (name, v) ∈ members :=
        mem_values_iff.mp (hvalues ▸ List.mem_singleton_self v)
      exact hcodec.admissible v a (hproper _ hmem) h
  · cases h

theorem forall_of_optional {as : List α} (hcodec : Codec P encode decode)
    (hproper : forall member, member ∈ members -> member.2.IsProper)
    (h : members.optional name [] (list? decode) = some as) : forall a, a ∈ as -> P a :=
  admissible_of_optional hcodec.list (List.forall_mem_nil _) hproper h

end Members

end MixedState
