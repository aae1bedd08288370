import Mathlib.Data.Fin.VecNotation
import Mathlib.Data.Fintype.Card
import Mathlib.Tactic.FinCases

/-! # Packed bits and packed arrays

`ofBits n f` is the vector whose bit `i` is `f i`.

A packed array of four elements of `l` bits has element `0` in the lowest bits: `lane l v i`
reads element `i`, `pack f` is the concatenation `{f 3, f 2, f 1, f 0}`.  Reading and packing
are inverse to each other and bitwise operations act lane by lane, so two packed arrays are
compared element by element (`eq_of_lanes`). -/

namespace Packed

variable {l n : ℕ}

/-! ### Vectors given bit by bit -/

/-- The vector whose bit `i` is `f i`. -/
def ofBits : (n : ℕ) → (ℕ → Bool) → BitVec n
  | 0, _ => 0#0
  | n + 1, f => BitVec.cons (f n) (ofBits n f)

theorem getLsbD_ofBits (f : ℕ → Bool) : ∀ {n i : ℕ}, i < n → (ofBits n f).getLsbD i = f i
  | n + 1, i, h => by
      rw [ofBits, BitVec.getLsbD_cons]
      split_ifs with hi
      · rw [hi]
      · exact getLsbD_ofBits f (by omega)

theorem eq_ofBits {v : BitVec n} {f : ℕ → Bool} (h : ∀ i, i < n → v.getLsbD i = f i) :
    v = ofBits n f :=
  BitVec.eq_of_getLsbD_eq fun i hi => by rw [h i hi, getLsbD_ofBits f hi]

/-! ### Four lanes -/

/-- Lanes are numbered by the literals of `Fin 4`. -/
instance fourLanes : @NeZero ℕ Zero.ofOfNat0 4 := ⟨by decide⟩

/-- Element `i` of a packed array with elements of `l` bits. -/
def lane (l : ℕ) (v : BitVec n) (i : Fin 4) : BitVec l := v.extractLsb' (l * i) l

/-- The packed array `{f 3, f 2, f 1, f 0}`. -/
def pack (f : Fin 4 → BitVec l) : BitVec (l + l + l + l) := f 3 ++ f 2 ++ f 1 ++ f 0

@[simp] theorem lane_xor (a b : BitVec n) (i : Fin 4) :
    lane l (a ^^^ b) i = lane l a i ^^^ lane l b i := BitVec.extractLsb'_xor

theorem getLsbD_lane (v : BitVec n) (i : Fin 4) (k : ℕ) :
    (lane l v i).getLsbD k = (decide (k < l) && v.getLsbD (l * i + k)) :=
  BitVec.getLsbD_extractLsb' _ _ _ _

@[simp] theorem lane_pack (f : Fin 4 → BitVec l) (i : Fin 4) : lane l (pack f) i = f i := by
  apply BitVec.eq_of_getLsbD_eq
  intro k hk
  rw [getLsbD_lane]
  simp only [pack, BitVec.getLsbD_append, hk, decide_true, Bool.true_and]
  fin_cases i
  · simp [hk]
  · simp [hk]
  · simp [hk, show ¬ l * 2 + k < l by omega, show l * 2 + k - l = l + k by omega]
  · simp [hk, show ¬ l * 3 + k < l by omega, show ¬ l * 3 + k - l < l by omega,
      show l * 3 + k - l - l = l + k by omega]

/-- Packed arrays with equal elements are equal. -/
theorem eq_of_lanes {a b : BitVec (l + l + l + l)} (h : ∀ i, lane l a i = lane l b i) :
    a = b := by
  apply BitVec.eq_of_getLsbD_eq
  intro k hk
  have hl : 0 < l := by omega
  have hq : k / l < 4 := by rw [Nat.div_lt_iff_lt_mul hl]; omega
  have hbit := congrArg (fun x => BitVec.getLsbD x (k % l)) (h ⟨k / l, hq⟩)
  simpa only [getLsbD_lane, Nat.mod_lt k hl, decide_true, Bool.true_and, Nat.div_add_mod]
    using hbit

end Packed
