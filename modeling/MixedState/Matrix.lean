import MixedState.Amplitude
import MixedState.Fault

/-!
# Buffers and matrices

A buffer is a flat vector of amplitudes, read as zero outside its range.  A matrix keeps its
entries row by row; flattened column by column, it acts on vectorized states.
-/

namespace MixedState

variable {R : Type} [Scalar R]

abbrev Buffer (R : Type) :=
  Array (Amplitude R)

namespace Buffer

def entry (b : Buffer R) (i : Nat) : Amplitude R :=
  b.getD i 0

def tabulate (n : Nat) (f : Nat → Amplitude R) : Buffer R :=
  Array.ofFn fun i : Fin n => f i.val

omit [Scalar R] in
@[simp] theorem size_tabulate (n : Nat) (f : Nat → Amplitude R) :
    (tabulate n f).size = n := by
  simp [tabulate]

theorem entry_tabulate (n : Nat) (f : Nat → Amplitude R) (i : Nat) :
    (tabulate n f).entry i = if i < n then f i else 0 := by
  simp [tabulate, entry, Array.getD_eq_getD_getElem?, Array.getElem?_ofFn]
  split <;> rfl

def conj (b : Buffer R) : Buffer R :=
  b.map Amplitude.conj

def tensor (a b : Buffer R) : Buffer R :=
  tabulate (a.size * b.size) fun i => a.entry (i / b.size) * b.entry (i % b.size)

def outer (psi : Buffer R) : Buffer R :=
  tabulate (psi.size * psi.size) fun i =>
    psi.entry (i % psi.size) * (psi.entry (i / psi.size)).conj

end Buffer

@[ext] structure Mat (R : Type) where
  rows : Nat
  cols : Nat
  entries : Buffer R
  size_entries : entries.size = rows * cols

namespace Mat

def ofFn (rows cols : Nat) (f : Nat → Nat → Amplitude R) : Mat R :=
  { rows := rows
    cols := cols
    entries := Buffer.tabulate (rows * cols) fun i => f (i / cols) (i % cols)
    size_entries := Buffer.size_tabulate _ _ }

def ofEntries? (rows cols : Nat) (entries : Buffer R) : Option (Mat R) :=
  if h : entries.size = rows * cols then
    some { rows := rows, cols := cols, entries := entries, size_entries := h }
  else
    none

def two (a b c d : Amplitude R) : Mat R :=
  { rows := 2, cols := 2, entries := #[a, b, c, d], size_entries := rfl }

def four (a b c d e f g h i j k l m n o p : Amplitude R) : Mat R :=
  { rows := 4
    cols := 4
    entries := #[a, b, c, d, e, f, g, h, i, j, k, l, m, n, o, p]
    size_entries := rfl }

def entry (m : Mat R) (r c : Nat) : Amplitude R :=
  m.entries.entry (r * m.cols + c)

def size (m : Mat R) : Nat :=
  m.entries.size

theorem place_lt {rows cols r c : Nat} (hr : r < rows) (hc : c < cols) :
    r * cols + c < rows * cols := by
  have hrow : (r + 1) * cols ≤ rows * cols := Nat.mul_le_mul_right cols hr
  rw [Nat.succ_mul] at hrow
  omega

theorem entry_ofFn {rows cols r c : Nat} (f : Nat → Nat → Amplitude R) (hr : r < rows)
    (hc : c < cols) : (ofFn rows cols f).entry r c = f r c := by
  have hdiv : (r * cols + c) / cols = r := by
    rw [Nat.mul_comm, Nat.mul_add_div (by omega), Nat.div_eq_of_lt hc, Nat.add_zero]
  have hmod : (r * cols + c) % cols = c := by
    rw [Nat.mul_comm, Nat.mul_add_mod, Nat.mod_eq_of_lt hc]
  change (Buffer.tabulate _ _).entry (r * cols + c) = _
  rw [Buffer.entry_tabulate, if_pos (place_lt hr hc), hdiv, hmod]

def hasShape (m : Mat R) (rows cols : Nat) : Bool :=
  m.rows == rows && m.cols == cols

def map (f : Amplitude R → Amplitude R) (m : Mat R) : Mat R :=
  { rows := m.rows
    cols := m.cols
    entries := m.entries.map f
    size_entries := by rw [Array.size_map]; exact m.size_entries }

theorem entry_map {m : Mat R} {r c : Nat} (f : Amplitude R → Amplitude R) (hr : r < m.rows)
    (hc : c < m.cols) : (m.map f).entry r c = f (m.entry r c) := by
  have hlt : r * m.cols + c < m.entries.size := by
    rw [m.size_entries]
    exact place_lt hr hc
  simp [entry, map, Buffer.entry, hlt]

def conj (m : Mat R) : Mat R :=
  m.map Amplitude.conj

def columns (m : Mat R) : Buffer R :=
  Buffer.tabulate (m.cols * m.rows) fun i => m.entry (i % m.rows) (i / m.rows)

def ofColumns (dim : Nat) (b : Buffer R) : Outcome (Mat R) :=
  if dim * dim ≤ b.size then
    .ok (ofFn dim dim fun r c => b.entry (r + c * dim))
  else
    crash

def kron (a b : Mat R) : Mat R :=
  ofFn (a.rows * b.rows) (a.cols * b.cols) fun r c =>
    a.entry (r / b.rows) (c / b.cols) * b.entry (r % b.rows) (c % b.cols)

/-- The sum with a summand whose single row or column stands for every one. -/
def addStretched (a b : Mat R) : Outcome (Mat R) :=
  if (b.rows == a.rows || b.rows == 1) && (b.cols == a.cols || b.cols == 1) then
    .ok (ofFn a.rows a.cols fun r c =>
      a.entry r c + b.entry (if b.rows == 1 then 0 else r) (if b.cols == 1 then 0 else c))
  else
    crash

end Mat

/-- The matrix `Σ conj(K) ⊗ K` of a Kraus set, which maps `vec ρ` to
`vec (Σ K ρ K†)`. -/
def krausMap (operators : List (Mat R)) : Outcome (Mat R) := do
  let dim := match operators with
    | [] => 1
    | k :: _ => k.rows
  let square ← checkedMul dim dim
  let count ← checkedMul square square
  allocate 16 count
  operators.foldlM (fun sum k => sum.addStretched (k.conj.kron k))
    (Mat.ofFn square square fun _ _ => 0)

/-- The columns of the map that sends `|i⟩⟨j|` on `k` qubits to `|0⟩⟨0|` when
`i = j` and to zero otherwise. -/
def resetMap (k : Nat) : Outcome (Buffer R) := do
  let dim ← checkedShift k
  let square ← checkedMul dim dim
  let count ← checkedMul square square
  allocate 16 count
  return Buffer.tabulate count fun i =>
    let column := i / square
    if i % square = 0 ∧ column % dim = column / dim then 1 else 0

end MixedState
