import Mathlib.Tactic.Common

/-! # Arrays of fixed length, changed in place

An array of `n` elements with the two accesses of C.  An index past the end, for which C promises
nothing, reads the default and writes nothing; the lemmas ask for indices within the array.

Loops that write one element in each iteration come in two forms: `fill` writes the elements of a
range, from values that do not depend on what the loop has written, and `mapPrefix` replaces each
of the first elements by a function of itself. -/

abbrev CArray (β : Type) (n : ℕ) := Vector β n

namespace CArray

variable {β : Type} [Inhabited β] {n : ℕ}

/-- `a[i]`. -/
def read (a : CArray β n) (i : ℕ) : β := a[i]?.getD default

/-- `a[i] = x`. -/
def write (a : CArray β n) (i : ℕ) (x : β) : CArray β n := a.setIfInBounds i x

/-- The elements from `dest` on are `g 0, g 1, …`. -/
def fill (a : CArray β n) (dest len : ℕ) (g : ℕ → β) : CArray β n :=
  (List.range len).foldl (fun a' t => a'.write (dest + t) (g t)) a

/-- `memcpy(&a[dest], &b[src], len)`. -/
def copyFrom {m : ℕ} (a : CArray β n) (dest : ℕ) (b : CArray β m) (src len : ℕ) : CArray β n :=
  a.fill dest len fun t => b.read (src + t)

/-- `for (i = 0; i < m; ++i) a[i] = f(i, a[i]);` -/
def mapPrefix (a : CArray β n) (m : ℕ) (f : ℕ → β → β) : CArray β n :=
  (List.range m).foldl (fun a' i => a'.write i (f i (a'.read i))) a

theorem ext_read {a b : CArray β n} (h : ∀ i, i < n → a.read i = b.read i) : a = b := by
  apply Vector.ext
  intro i hi
  have := h i hi
  unfold read at this
  rwa [Vector.getElem?_eq_getElem hi, Vector.getElem?_eq_getElem hi] at this

theorem read_ofFn (f : Fin n → β) {i : ℕ} (h : i < n) : read (Vector.ofFn f) i = f ⟨i, h⟩ := by
  rw [read, Vector.getElem?_eq_getElem h, Option.getD_some, Vector.getElem_ofFn]

theorem get_eq_read (a : CArray β n) (i : Fin n) : a.get i = a.read i := by
  rw [read, Vector.getElem?_eq_getElem i.isLt]
  rfl

theorem get_ofFn (f : Fin n → β) : Vector.get (Vector.ofFn f) = f := by
  funext i
  rw [get_eq_read, read_ofFn f i.isLt]

theorem ofFn_get (a : CArray β n) : Vector.ofFn (Vector.get a) = a := by
  apply ext_read
  intro i hi
  rw [read_ofFn _ hi, get_eq_read]

theorem read_write (a : CArray β n) {i : ℕ} (h : i < n) (x : β) (j : ℕ) :
    (a.write i x).read j = if j = i then x else a.read j := by
  unfold read write
  rw [Vector.getElem?_setIfInBounds]
  by_cases hj : j = i
  · rw [if_pos hj.symm, if_pos h, if_pos hj, Option.getD_some]
  · rw [if_neg (Ne.symm hj), if_neg hj]

theorem read_fill (a : CArray β n) {dest : ℕ} (g : ℕ → β) (j : ℕ) : ∀ {len : ℕ}, dest + len ≤ n →
    (a.fill dest len g).read j = if dest ≤ j ∧ j < dest + len then g (j - dest) else a.read j
  | 0, _ => (if_neg (by omega)).symm
  | len + 1, h => by
      have ih := read_fill a g j (show dest + len ≤ n by omega)
      unfold fill at ih ⊢
      rw [List.range_succ, List.foldl_append, List.foldl_cons, List.foldl_nil,
        read_write _ (by omega), ih]
      by_cases hj : j = dest + len
      · rw [if_pos hj, if_pos (by omega), hj, Nat.add_sub_cancel_left]
      · rw [if_neg hj]
        congr 1
        exact propext ⟨fun h => ⟨h.1, by omega⟩, fun h => ⟨h.1, by omega⟩⟩

theorem read_copyFrom {m : ℕ} (a : CArray β n) (b : CArray β m) (src : ℕ) {dest len : ℕ}
    (h : dest + len ≤ n) (j : ℕ) : (a.copyFrom dest b src len).read j =
      if dest ≤ j ∧ j < dest + len then b.read (src + (j - dest)) else a.read j :=
  read_fill a _ j h

theorem read_mapPrefix (a : CArray β n) (f : ℕ → β → β) (j : ℕ) : ∀ {m : ℕ}, m ≤ n →
    (a.mapPrefix m f).read j = if j < m then f j (a.read j) else a.read j
  | 0, _ => (if_neg (by omega)).symm
  | m + 1, h => by
      have ih := fun j => read_mapPrefix a f j (show m ≤ n by omega)
      unfold mapPrefix at ih ⊢
      rw [List.range_succ, List.foldl_append, List.foldl_cons, List.foldl_nil,
        read_write _ (by omega), ih, ih]
      by_cases hj : j = m
      · rw [if_pos hj, if_neg (by omega), if_pos (by omega), hj]
      · rw [if_neg hj]
        congr 1
        exact propext ⟨fun h => by omega, fun h => by omega⟩

/-- Every element is replaced by a function of itself. -/
theorem read_mapPrefix_all (a : CArray β n) (f : ℕ → β → β) {j : ℕ} (h : j < n) :
    (a.mapPrefix n f).read j = f j (a.read j) := by
  rw [read_mapPrefix a f j (Nat.le_refl n), if_pos h]

end CArray
