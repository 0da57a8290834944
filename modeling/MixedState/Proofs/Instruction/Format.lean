import MixedState.Instruction.Format
import MixedState.Proofs.Json.Reading

/-!
# Instructions are read back from their written form

An instruction whose numbers fit words and whose scalars are finite is read back from its
written form, and instructions that were read are of this kind, whichever fields were left
out, repeated in a matrix, or stand in another order.
-/

namespace MixedState

open Json

/-!
## Matrices
-/

structure Amplitude.IsFinite (a : Amplitude Float) : Prop where
  re : Scalar.isFinite a.re = true
  im : Scalar.isFinite a.im = true

theorem codec_amplitude : Codec Amplitude.IsFinite Amplitude.toJson Amplitude.ofJson? where
  decode_encode a ha := by
    have hpair := (codec_scalar.pair codec_scalar).decode_encode (a.re, a.im) ⟨ha.re, ha.im⟩
    exact congrArg (Option.map fun pair => (⟨pair.1, pair.2⟩ : Amplitude Float)) hpair
  admissible v a hv ha := by
    rcases Option.map_eq_some_iff.mp ha with ⟨⟨re, im⟩, hpair, rfl⟩
    rcases (codec_scalar.pair codec_scalar).admissible v _ hv hpair with ⟨hre, him⟩
    exact ⟨hre, him⟩

structure Mat.IsWritable (m : Mat Float) : Prop where
  isShape : Mat.isShape m.rows m.cols = true
  isFinite : forall a, a ∈ m.entries.toList -> a.IsFinite

namespace Mat

theorem lt_wordSize_of_isShape {rows cols : Nat} (h : isShape rows cols = true) :
    rows < wordSize ∧ cols < wordSize := by
  have hcount : max rows 1 * max cols 1 < bufferLimit := of_decide_eq_true h
  have hrows : max rows 1 ≤ max rows 1 * max cols 1 := Nat.le_mul_of_pos_right _ (by omega)
  have hcols : max cols 1 ≤ max rows 1 * max cols 1 := Nat.le_mul_of_pos_left _ (by omega)
  have hlimit : bufferLimit ≤ wordSize := by decide
  omega

theorem codec_dims : Codec (fun dims => dims.1 < wordSize ∧ dims.2 < wordSize)
    (fun dims => .arr [ofNat dims.1, ofNat dims.2]) (pair? natural? natural?) :=
  codec_natural.pair codec_natural

theorem ofEntries?_self (m : Mat Float) : ofEntries? m.rows m.cols m.entries = some m :=
  dif_pos m.size_entries

theorem ofJson?_toJson {m : Mat Float} (hm : m.IsWritable) : ofJson? m.toJson = some m := by
  have hdims := codec_dims.decode_encode (m.rows, m.cols) (lt_wordSize_of_isShape hm.isShape)
  have hentries := codec_amplitude.list.decode_encode m.entries.toList hm.isFinite
  unfold ofJson?
  simp only [Option.bind_eq_bind, Option.bind_eq_some_iff]
  refine ⟨_, rfl, (), rfl, .unit, rfl, [(m.rows, m.cols)], ?_, [m.entries.toList], ?_, .int 1, rfl,
    _, rfl, (), if_pos hm.isShape, _, rfl, ofEntries?_self m⟩
  · change List.mapM (pair? natural? natural?) [.arr [Json.ofNat m.rows, Json.ofNat m.cols]] = _
    rw [List.mapM_cons, hdims]
    rfl
  · change List.mapM (list? Amplitude.ofJson?) [ofList Amplitude.toJson m.entries.toList] = _
    rw [List.mapM_cons, hentries]
    rfl

theorem isWritable_of_ofJson? {v : Json Float} {m : Mat Float} (hv : v.IsProper)
    (h : ofJson? v = some m) : m.IsWritable := by
  unfold ofJson? at h
  simp only [Option.bind_eq_bind, Option.bind_eq_some_iff] at h
  rcases h with ⟨members, hmembers, -, -, -, -, dims, -, data, hdata, -, -, ⟨rows, cols⟩, -, _,
    hshape, entries, hlast, hm⟩
  have hfinite : forall entries, entries ∈ data -> forall a, a ∈ entries -> a.IsFinite := by
    refine forall_of_mapM ?_ hdata
    intro w hw entries hentries
    have hproper := isProper_of_record? hv hmembers _ (Members.mem_values_iff.mp hw)
    exact codec_amplitude.list.admissible w entries hproper hentries
  have hshape : isShape rows cols = true := by
    by_contra hfalse
    have hnone : guard (isShape rows cols = true) = (none : Option Unit) := if_neg hfalse
    rw [hnone] at hshape
    cases hshape
  unfold ofEntries? at hm
  split at hm
  · cases hm
    exact ⟨hshape, hfinite entries (List.mem_of_getLast? hlast)⟩
  · cases hm

theorem codec_matrix : Codec Mat.IsWritable Mat.toJson Mat.ofJson? where
  decode_encode _ hm := ofJson?_toJson hm
  admissible _ _ hv hm := isWritable_of_ofJson? hv hm

end Mat

/-!
## Fields
-/

theorem codec_kind : Codec (fun _ => True) (fun kind => .str kind.name) Kind.ofJson? :=
  codec_tag Kind.ofName?_name

theorem codec_saveMode : Codec (fun _ => True) (fun mode => .str mode.name) SaveMode.ofJson? :=
  codec_tag SaveMode.ofName?_name

theorem codec_relation :
    Codec (fun _ => True) (fun relation => .str relation.sign) Relation.ofJson? :=
  codec_tag Relation.ofSign?_sign

structure PauliTerm.IsFinite (term : PauliTerm Float) : Prop where
  coeff : Scalar.isFinite term.coeff = true
  sqCoeff : Scalar.isFinite term.sqCoeff = true

theorem codec_term : Codec PauliTerm.IsFinite PauliTerm.toJson PauliTerm.ofJson? where
  decode_encode term hterm := by
    have hnodup : (["pauli", "coeff", "sq_coeff"] : List String).Nodup := by decide
    unfold PauliTerm.ofJson?
    simp only [Option.bind_eq_bind, Option.bind_eq_some_iff]
    refine ⟨_, rfl, _, Members.required_of_mem codec_text trivial hnodup ?_, _,
      Members.required_of_mem codec_scalar hterm.coeff hnodup ?_, _,
      Members.optional_of_mem codec_scalar hterm.sqCoeff hnodup ?_, rfl⟩ <;> simp
  admissible v term hv hterm := by
    unfold PauliTerm.ofJson? at hterm
    simp only [Option.bind_eq_bind, Option.bind_eq_some_iff] at hterm
    rcases hterm with ⟨members, hmembers, pauli, -, coeff, hcoeff, sqCoeff, hsq, hterm⟩
    have hproper := isProper_of_record? hv hmembers
    have hcoeff := Members.admissible_of_required codec_scalar hproper hcoeff
    have hsq := Members.admissible_of_optional codec_scalar rfl hproper hsq
    cases hterm
    exact ⟨hcoeff, hsq⟩

structure Instruction.IsWritable (op : Instruction Float) : Prop where
  qubits : forall q, q ∈ op.qubits -> q < wordSize
  params : forall a, a ∈ op.params.toList -> a.IsFinite
  matrices : forall m, m ∈ op.matrices -> m.IsWritable
  indices : forall i, i ∈ op.indices -> i < wordSize
  memory : forall slot, slot ∈ op.memory -> slot < wordSize
  registers : forall slot, slot ∈ op.registers -> slot < wordSize
  condition : forall bit, bit ∈ op.condition -> bit < wordSize
  readout : forall row, row ∈ op.readout -> forall p, p ∈ row -> Scalar.isFinite p = true
  terms : forall term, term ∈ op.terms -> term.IsFinite

namespace Instruction

def fields (op : Instruction Float) : Members Float :=
  [("type", .str op.kind.name),
    ("name", .str op.name),
    ("qubits", naturals op.qubits),
    ("params", Json.ofList Amplitude.toJson op.params.toList),
    ("mats", Json.ofList Mat.toJson op.matrices),
    ("string_params", Json.ofList Json.str op.texts),
    ("int_params", naturals op.indices),
    ("memory", naturals op.memory),
    ("registers", naturals op.registers)]
    ++ (op.condition.map fun bit => ("conditional", Json.ofNat bit)).toList
    ++ (op.relation.map fun relation => ("bfunc", Json.str relation.sign)).toList
    ++ [("probs", Json.ofList (Json.ofList Json.ofScalar) op.readout),
    ("expval_params", Json.ofList PauliTerm.toJson op.terms),
    ("save_type", .str op.saveMode.name)]

theorem toJson_eq (op : Instruction Float) : op.toJson = .obj op.fields :=
  rfl

theorem names_fields (op : Instruction Float) :
    op.fields.map Prod.fst =
      fieldNames.filter fun name => (name != "conditional" || op.condition.isSome) &&
        (name != "bfunc" || op.relation.isSome) := by
  unfold fields
  cases op.condition <;> cases op.relation <;> rfl

theorem nodup_names_fields (op : Instruction Float) : (op.fields.map Prod.fst).Nodup := by
  have hnames : fieldNames.Nodup := by decide
  rw [names_fields]
  exact hnames.filter _

theorem codec_naturals : Codec (fun ns => forall n, n ∈ ns -> n < wordSize) naturals
    (list? natural?) :=
  codec_natural.list

structure Reads (members : Members Float) (op : Instruction Float) : Prop where
  kind : members.required "type" Kind.ofJson? = some op.kind
  name : members.required "name" text? = some op.name
  qubits : members.optional "qubits" [] (list? natural?) = some op.qubits
  params : members.optional "params" [] (list? Amplitude.ofJson?) = some op.params.toList
  matrices : members.optional "mats" [] (list? Mat.ofJson?) = some op.matrices
  texts : members.optional "string_params" [] (list? text?) = some op.texts
  indices : members.optional "int_params" [] (list? natural?) = some op.indices
  memory : members.optional "memory" [] (list? natural?) = some op.memory
  registers : members.optional "registers" [] (list? natural?) = some op.registers
  condition : members.optional "conditional" none (nullable? natural?) = some op.condition
  relation : members.optional "bfunc" none (nullable? Relation.ofJson?) = some op.relation
  readout : members.optional "probs" [] (list? (list? scalar?)) = some op.readout
  terms : members.optional "expval_params" [] (list? PauliTerm.ofJson?) = some op.terms
  saveMode : members.optional "save_type" .single SaveMode.ofJson? = some op.saveMode

theorem ofJson?_of_reads {v : Json Float} {members : Members Float} {op : Instruction Float}
    (hmembers : record? fieldNames v = some members) (h : Reads members op) :
    ofJson? v = some op := by
  unfold ofJson?
  refine Option.bind_eq_some_iff.mpr ⟨_, hmembers, ?_⟩
  refine Option.bind_eq_some_iff.mpr ⟨_, h.kind, ?_⟩
  refine Option.bind_eq_some_iff.mpr ⟨_, h.name, ?_⟩
  refine Option.bind_eq_some_iff.mpr ⟨_, h.qubits, ?_⟩
  refine Option.bind_eq_some_iff.mpr ⟨_, h.params, ?_⟩
  refine Option.bind_eq_some_iff.mpr ⟨_, h.matrices, ?_⟩
  refine Option.bind_eq_some_iff.mpr ⟨_, h.texts, ?_⟩
  refine Option.bind_eq_some_iff.mpr ⟨_, h.indices, ?_⟩
  refine Option.bind_eq_some_iff.mpr ⟨_, h.memory, ?_⟩
  refine Option.bind_eq_some_iff.mpr ⟨_, h.registers, ?_⟩
  refine Option.bind_eq_some_iff.mpr ⟨_, h.condition, ?_⟩
  refine Option.bind_eq_some_iff.mpr ⟨_, h.relation, ?_⟩
  refine Option.bind_eq_some_iff.mpr ⟨_, h.readout, ?_⟩
  refine Option.bind_eq_some_iff.mpr ⟨_, h.terms, ?_⟩
  refine Option.bind_eq_some_iff.mpr ⟨_, h.saveMode, ?_⟩
  rfl

theorem reads_of_ofJson? {v : Json Float} {op : Instruction Float} (h : ofJson? v = some op) :
    exists members, record? fieldNames v = some members ∧ Reads members op := by
  unfold ofJson? at h
  rcases Option.bind_eq_some_iff.mp h with ⟨members, hmembers, h⟩
  rcases Option.bind_eq_some_iff.mp h with ⟨kind, hkind, h⟩
  rcases Option.bind_eq_some_iff.mp h with ⟨name, hname, h⟩
  rcases Option.bind_eq_some_iff.mp h with ⟨qubits, hqubits, h⟩
  rcases Option.bind_eq_some_iff.mp h with ⟨params, hparams, h⟩
  rcases Option.bind_eq_some_iff.mp h with ⟨matrices, hmatrices, h⟩
  rcases Option.bind_eq_some_iff.mp h with ⟨texts, htexts, h⟩
  rcases Option.bind_eq_some_iff.mp h with ⟨indices, hindices, h⟩
  rcases Option.bind_eq_some_iff.mp h with ⟨memory, hmemory, h⟩
  rcases Option.bind_eq_some_iff.mp h with ⟨registers, hregisters, h⟩
  rcases Option.bind_eq_some_iff.mp h with ⟨condition, hcondition, h⟩
  rcases Option.bind_eq_some_iff.mp h with ⟨relation, hrelation, h⟩
  rcases Option.bind_eq_some_iff.mp h with ⟨readout, hreadout, h⟩
  rcases Option.bind_eq_some_iff.mp h with ⟨terms, hterms, h⟩
  rcases Option.bind_eq_some_iff.mp h with ⟨saveMode, hsaveMode, h⟩
  cases h
  exact ⟨members, hmembers, hkind, hname, hqubits, hparams, hmatrices, htexts, hindices, hmemory,
    hregisters, hcondition, hrelation, hreadout, hterms, hsaveMode⟩

/-!
## Writing and reading
-/

theorem read_condition {op : Instruction Float} (hop : op.IsWritable) :
    op.fields.optional "conditional" none (nullable? natural?) = some op.condition := by
  cases hcondition : op.condition with
  | none =>
      refine Members.optional_of_not_mem ?_
      rw [names_fields, hcondition, List.mem_filter]
      nofun
  | some bit =>
      refine Members.optional_of_mem (codec_natural.nullable nofun) ?_ op.nodup_names_fields ?_
      · rw [← hcondition]
        exact hop.condition
      · simp [fields, hcondition]

theorem read_relation (op : Instruction Float) :
    op.fields.optional "bfunc" none (nullable? Relation.ofJson?) = some op.relation := by
  cases hrelation : op.relation with
  | none =>
      refine Members.optional_of_not_mem ?_
      rw [names_fields, hrelation, List.mem_filter]
      nofun
  | some relation =>
      refine Members.optional_of_mem (codec_relation.nullable nofun) (fun _ _ => trivial)
        op.nodup_names_fields ?_
      simp [fields, hrelation]

theorem reads_fields {op : Instruction Float} (hop : op.IsWritable) : Reads op.fields op := by
  have hnodup := op.nodup_names_fields
  constructor
  case kind => exact Members.required_of_mem codec_kind trivial hnodup (by simp [fields])
  case name => exact Members.required_of_mem codec_text trivial hnodup (by simp [fields])
  case qubits =>
    exact Members.optional_of_mem codec_naturals hop.qubits hnodup (by simp [fields])
  case params =>
    exact Members.optional_of_mem codec_amplitude.list hop.params hnodup (by simp [fields])
  case matrices =>
    exact Members.optional_of_mem Mat.codec_matrix.list hop.matrices hnodup (by simp [fields])
  case texts =>
    exact Members.optional_of_mem codec_text.list (fun _ _ => trivial) hnodup (by simp [fields])
  case indices =>
    exact Members.optional_of_mem codec_naturals hop.indices hnodup (by simp [fields])
  case memory =>
    exact Members.optional_of_mem codec_naturals hop.memory hnodup (by simp [fields])
  case registers =>
    exact Members.optional_of_mem codec_naturals hop.registers hnodup (by simp [fields])
  case condition => exact read_condition hop
  case relation => exact op.read_relation
  case readout =>
    exact Members.optional_of_mem codec_scalar.list.list hop.readout hnodup (by simp [fields])
  case terms =>
    exact Members.optional_of_mem codec_term.list hop.terms hnodup (by simp [fields])
  case saveMode =>
    exact Members.optional_of_mem codec_saveMode trivial hnodup (by simp [fields])

theorem ofJson?_toJson {op : Instruction Float} (hop : op.IsWritable) :
    ofJson? op.toJson = some op :=
  ofJson?_of_reads (congrArg (record? fieldNames) op.toJson_eq) (reads_fields hop)

theorem isWritable_of_ofJson? {v : Json Float} {op : Instruction Float} (hv : v.IsProper)
    (h : ofJson? v = some op) : op.IsWritable := by
  rcases reads_of_ofJson? h with ⟨members, hmembers, hreads⟩
  have hproper := isProper_of_record? hv hmembers
  constructor
  case qubits => exact Members.forall_of_optional codec_natural hproper hreads.qubits
  case params => exact Members.forall_of_optional codec_amplitude hproper hreads.params
  case matrices => exact Members.forall_of_optional Mat.codec_matrix hproper hreads.matrices
  case indices => exact Members.forall_of_optional codec_natural hproper hreads.indices
  case memory => exact Members.forall_of_optional codec_natural hproper hreads.memory
  case registers => exact Members.forall_of_optional codec_natural hproper hreads.registers
  case condition =>
    have hnone : forall bit : Nat, bit ∈ (none : Option Nat) -> bit < wordSize := nofun
    exact Members.admissible_of_optional (codec_natural.nullable nofun) hnone hproper
      hreads.condition
  case readout => exact Members.forall_of_optional codec_scalar.list hproper hreads.readout
  case terms => exact Members.forall_of_optional codec_term hproper hreads.terms

/-- The written form is read back: of every instruction with numbers of one word and finite
scalars, of every one that was read from a value whose numbers can be written, and of every
one that was read from a text. -/
theorem round_trips :
    (forall op : Instruction Float, op.IsWritable -> ofJson? op.toJson = some op) ∧
      (forall (v : Json Float) (op : Instruction Float), v.IsProper -> ofJson? v = some op ->
        op.IsWritable ∧ ofJson? op.toJson = some op) ∧
      (forall (text : String) (v : Json Float) (op : Instruction Float),
        parse? text = some v -> ofJson? v = some op ->
          op.IsWritable ∧ ofJson? op.toJson = some op) := by
  refine ⟨fun op hop => ofJson?_toJson hop, fun v op hv h => ?_, fun text v op hparse h => ?_⟩
  · have hop := isWritable_of_ofJson? hv h
    exact ⟨hop, ofJson?_toJson hop⟩
  · have hop := isWritable_of_ofJson? (isProper_of_parse? hparse) h
    exact ⟨hop, ofJson?_toJson hop⟩

/-- An instruction with its fields in another order, some of them left out, others unknown. -/
def shuffledText : String :=
  "\x7b\"later\":[1e999,null],\"save_type\":\"c_list\",\"qubits\":[18446744073709551615],
    \"name\":\"k\",\"expval_params\":[\x7b\"coeff\":-0.5,\"pauli\":\"XZ\"\x7d],
    \"mats\":[\x7b\"data\":[[1,0],[0.5,-0]],\"dim\":[1,2],\"v\":1\x7d,[1,[0,3],[]]],
    \"bfunc\":\"!=\",\"type\":\"kraus\",\"params\":[[0.1,-2e-3]]\x7d"

theorem round_trips_shuffled : exists v op, parse? shuffledText = some v ∧ ofJson? v = some op ∧
    (op.kind = .kraus ∧ op.qubits = [18446744073709551615] ∧ op.condition = none ∧
      op.relation = some .notEqual ∧ op.memory = [] ∧ op.saveMode = ⟨.every, true⟩ ∧
      op.matrices.map (fun m => (m.rows, m.cols)) = [(1, 2), (0, 3)] ∧
      op.terms.map PauliTerm.pauli = ["XZ"]) ∧
    op.IsWritable ∧ ofJson? op.toJson = some op := by
  have hread : ((parse? shuffledText).bind ofJson?).any (fun op => decide (op.kind = .kraus ∧
      op.qubits = [18446744073709551615] ∧ op.condition = none ∧ op.relation = some .notEqual ∧
      op.memory = [] ∧ op.saveMode = ⟨.every, true⟩ ∧
      op.matrices.map (fun m => (m.rows, m.cols)) = [(1, 2), (0, 3)] ∧
      op.terms.map PauliTerm.pauli = ["XZ"])) = true := by
    decide +kernel
  rcases (Option.any_eq_true _ _).mp hread with ⟨op, hop, hfields⟩
  rcases Option.bind_eq_some_iff.mp hop with ⟨v, hv, hop⟩
  exact ⟨v, op, hv, hop, of_decide_eq_true hfields, round_trips.2.2 shuffledText v op hv hop⟩

end Instruction

end MixedState
