import Mathlib.Algebra.Polynomial.Coeff
import Mathlib.RingTheory.AdjoinRoot
import Mathlib.Algebra.CharP.Two
import Mathlib.Algebra.Field.ZMod
import Mathlib.Data.ZMod.Basic

/-! # Polynomials over GF(2) as bit vectors

A bit vector stands for the polynomial over `ZMod 2` whose coefficient of `X ^ i` is bit `i`
(`toPoly`).  Addition is exclusive or (`toPoly_xor`); `mul` is the schoolbook product and `rem`
the remainder of long division by a modulus of degree `d`.

`residue m a` is the class of `a` in the quotient ring `(ZMod 2)[X] / (m)`.  Residues of
`d`-bit vectors are pairwise different (`residue_injective`), so the arithmetic `mulMod` of
`d`-bit vectors inherits the laws of the quotient ring. -/

namespace BinaryPoly

open Polynomial

variable {w v n d : ℕ}

/-- A bit as a coefficient. -/
def coeffBit (b : Bool) : ZMod 2 := if b then 1 else 0

theorem coeffBit_xor (a b : Bool) : coeffBit (a ^^ b) = coeffBit a + coeffBit b := by
  cases a <;> cases b <;> decide

theorem coeffBit_injective : Function.Injective coeffBit := by
  intro a b h
  cases a <;> cases b <;> first | rfl | exact absurd h (by decide)

/-- The polynomial of a bit vector. -/
noncomputable def toPoly (a : BitVec w) : (ZMod 2)[X] :=
  ∑ i ∈ Finset.range w, C (coeffBit (a.getLsbD i)) * X ^ i

theorem coeff_toPoly (a : BitVec w) (k : ℕ) :
    (toPoly a).coeff k = coeffBit (a.getLsbD k) := by
  unfold toPoly
  simp only [finsetSum_coeff, coeff_C_mul, coeff_X_pow, mul_ite, mul_one, mul_zero,
    Finset.sum_ite_eq, Finset.mem_range]
  split_ifs with h
  · rfl
  · rw [BitVec.getLsbD_of_ge a k (by omega)]; rfl

theorem toPoly_eq_iff {a : BitVec w} {b : BitVec v} :
    toPoly a = toPoly b ↔ ∀ k, a.getLsbD k = b.getLsbD k := by
  constructor
  · intro h k
    have := congrArg (fun p => coeff p k) h
    simp only [coeff_toPoly] at this
    exact coeffBit_injective this
  · intro h
    ext k
    rw [coeff_toPoly, coeff_toPoly, h k]

theorem toPoly_injective : Function.Injective (toPoly : BitVec w → (ZMod 2)[X]) := by
  intro a b h
  exact BitVec.eq_of_getLsbD_eq fun k _ => toPoly_eq_iff.mp h k

@[simp] theorem toPoly_zero : toPoly (0#w) = 0 := by
  ext k
  rw [coeff_toPoly]
  simp [coeffBit]

theorem toPoly_one (h : 0 < w) : toPoly (1#w) = 1 := by
  ext k
  rw [coeff_toPoly, coeff_one, BitVec.getLsbD_one]
  by_cases hk : k = 0 <;> simp [hk, h, coeffBit]

theorem toPoly_xor (a b : BitVec w) : toPoly (a ^^^ b) = toPoly a + toPoly b := by
  ext k
  rw [coeff_add, coeff_toPoly, coeff_toPoly, coeff_toPoly, BitVec.getLsbD_xor, coeffBit_xor]

/-- A shift that loses no bit multiplies by a power of `X`. -/
theorem toPoly_shiftLeft (b : BitVec v) {k : ℕ} (h : v + k ≤ n) :
    toPoly (b.setWidth n <<< k) = X ^ k * toPoly b := by
  ext j
  rw [coeff_toPoly, coeff_X_pow_mul', BitVec.getLsbD_shiftLeft, BitVec.getLsbD_setWidth]
  by_cases hk : k ≤ j
  · rw [if_pos hk, coeff_toPoly]
    by_cases hj : j - k < v
    · simp [show j < n by omega, show j - k < n by omega, show ¬ j < k by omega]
    · rw [BitVec.getLsbD_of_ge b _ (by omega)]
      simp
  · rw [if_neg hk]
    simp [show j < k by omega, coeffBit]

theorem degree_toPoly_lt (a : BitVec w) : (toPoly a).degree < w := by
  rw [degree_lt_iff_coeff_zero]
  intro k hk
  rw [coeff_toPoly, BitVec.getLsbD_of_ge a k hk]
  rfl

/-! ### Product -/

/-- Partial product with the low `k` bits of `a`. -/
def mulTo (a : BitVec w) (b : BitVec v) : ℕ → BitVec (w + v)
  | 0 => 0#(w + v)
  | k + 1 => mulTo a b k ^^^ (if a.getLsbD k then b.setWidth (w + v) <<< k else 0#(w + v))

/-- Schoolbook product: the shifted copies of `b` that the bits of `a` select, added up. -/
def mul (a : BitVec w) (b : BitVec v) : BitVec (w + v) := mulTo a b w

theorem toPoly_mulTo (a : BitVec w) (b : BitVec v) : ∀ k, k ≤ w →
    toPoly (mulTo a b k) =
      (∑ i ∈ Finset.range k, C (coeffBit (a.getLsbD i)) * X ^ i) * toPoly b
  | 0, _ => by simp [mulTo]
  | k + 1, hk => by
      rw [mulTo, toPoly_xor, toPoly_mulTo a b k (by omega), Finset.sum_range_succ, add_mul]
      congr 1
      cases a.getLsbD k with
      | false => simp [coeffBit]
      | true => simp [coeffBit, toPoly_shiftLeft b (show v + k ≤ w + v by omega)]

theorem toPoly_mul (a : BitVec w) (b : BitVec v) : toPoly (mul a b) = toPoly a * toPoly b :=
  toPoly_mulTo a b w le_rfl

/-! ### Remainder -/

/-- Long division from bit `d + k - 1` down to bit `d`: where the bit is set, the modulus is
subtracted at that place. -/
def reduceFrom (m : BitVec (d + 1)) (p : BitVec n) : ℕ → BitVec n
  | 0 => p
  | k + 1 => reduceFrom m (if p.getLsbD (d + k) then p ^^^ (m.setWidth n <<< k) else p) k

/-- Remainder of `p` modulo `m`, a modulus of degree `d`. -/
def rem (m : BitVec (d + 1)) (p : BitVec n) : BitVec d := (reduceFrom m p (n - d)).setWidth d

/-- The class of a bit vector modulo `m`. -/
noncomputable def residue (m : BitVec (d + 1)) (a : BitVec w) : AdjoinRoot (toPoly m) :=
  AdjoinRoot.mk (toPoly m) (toPoly a)

theorem residue_xor (m : BitVec (d + 1)) (a b : BitVec w) :
    residue m (a ^^^ b) = residue m a + residue m b := by
  unfold residue
  rw [toPoly_xor, map_add]

theorem residue_one (m : BitVec (d + 1)) (h : 0 < w) : residue m (1#w) = 1 := by
  unfold residue
  rw [toPoly_one h, map_one]

/-- The classes add up to nothing in pairs. -/
theorem two_eq_zero (m : BitVec (d + 1)) : (2 : AdjoinRoot (toPoly m)) = 0 := by
  have h := congrArg (AdjoinRoot.mk (toPoly m)) (CharTwo.two_eq_zero (R := (ZMod 2)[X]))
  rwa [map_ofNat, map_zero] at h

theorem residue_mul (m : BitVec (d + 1)) (a : BitVec w) (b : BitVec v) :
    residue m (mul a b) = residue m a * residue m b := by
  unfold residue
  rw [toPoly_mul, map_mul]

theorem residue_reduceFrom (m : BitVec (d + 1)) : ∀ (k : ℕ) (p : BitVec n), d + k ≤ n →
    residue m (reduceFrom m p k) = residue m p
  | 0, _, _ => rfl
  | k + 1, p, hk => by
      rw [reduceFrom, residue_reduceFrom m k _ (by omega)]
      split_ifs
      · have hm : residue m (m.setWidth n <<< k) = 0 := by
          unfold residue
          rw [toPoly_shiftLeft m (by omega), map_mul, AdjoinRoot.mk_self, mul_zero]
        rw [residue_xor, hm, add_zero]
      · rfl

/-- Long division leaves nothing at bit `d` and above. -/
theorem reduceFrom_high {m : BitVec (d + 1)} (hm : m.getLsbD d = true) :
    ∀ (k : ℕ) (p : BitVec n), d + k ≤ n → (∀ j, d + k ≤ j → p.getLsbD j = false) →
      ∀ j, d ≤ j → (reduceFrom m p k).getLsbD j = false
  | 0, p, _, hp, j, hj => hp j (by omega)
  | k + 1, p, hk, hp, j, hj => by
      refine reduceFrom_high hm k _ (by omega) (fun i hi => ?_) j hj
      have hshift : d + k < i → (m.setWidth n <<< k).getLsbD i = false := by
        intro h
        rw [BitVec.getLsbD_shiftLeft, BitVec.getLsbD_setWidth, BitVec.getLsbD_of_ge m _ (by omega)]
        simp
      rcases Nat.lt_or_eq_of_le hi with h | rfl
      · split_ifs
        · rw [BitVec.getLsbD_xor, hp i (by omega), hshift h]; rfl
        · exact hp i (by omega)
      · split_ifs with hb
        · rw [BitVec.getLsbD_xor, hb, BitVec.getLsbD_shiftLeft, BitVec.getLsbD_setWidth]
          simp [show d + k < n by omega, show d < n by omega, hm]
        · simpa using hb

theorem residue_rem {m : BitVec (d + 1)} (hm : m.getLsbD d = true) (hn : d ≤ n) (p : BitVec n) :
    residue m (rem m p) = residue m p := by
  have hhigh := reduceFrom_high hm (n - d) p (by omega)
    (fun j hj => BitVec.getLsbD_of_ge p j (by omega))
  rw [← residue_reduceFrom m (n - d) p (by omega)]
  have hpoly : toPoly (rem m p) = toPoly (reduceFrom m p (n - d)) := by
    rw [toPoly_eq_iff]
    intro k
    rw [rem, BitVec.getLsbD_setWidth]
    by_cases hk : k < d
    · simp [hk]
    · simp [hk, hhigh k (by omega)]
  unfold residue
  rw [hpoly]

/-- Different `d`-bit vectors have different residues modulo a polynomial of degree `d`. -/
theorem residue_injective {m : BitVec (d + 1)} (hm : m.getLsbD d = true) :
    Function.Injective (residue m : BitVec d → AdjoinRoot (toPoly m)) := by
  intro a b h
  unfold residue at h
  rw [AdjoinRoot.mk_eq_mk] at h
  apply toPoly_injective
  rw [← sub_eq_zero]
  by_contra hne
  have hdeg : (toPoly a - toPoly b).degree < d :=
    lt_of_le_of_lt (degree_sub_le _ _) (max_lt (degree_toPoly_lt a) (degree_toPoly_lt b))
  have hmdeg : (d : WithBot ℕ) ≤ (toPoly m).degree := by
    apply le_degree_of_ne_zero
    rw [coeff_toPoly, hm]
    decide
  exact absurd (degree_le_of_dvd h hne) (not_le.mpr (lt_of_lt_of_le hdeg hmdeg))

/-! ### Arithmetic modulo a fixed polynomial -/

/-- Product of `d`-bit vectors modulo `m`. -/
def mulMod (m : BitVec (d + 1)) (a b : BitVec d) : BitVec d := rem m (mul a b)

section laws
variable {m : BitVec (d + 1)} (hm : m.getLsbD d = true)
include hm

theorem residue_mulMod (a b : BitVec d) :
    residue m (mulMod m a b) = residue m a * residue m b := by
  rw [mulMod, residue_rem hm (by omega), residue_mul]

theorem mulMod_comm (a b : BitVec d) : mulMod m a b = mulMod m b a := by
  apply residue_injective hm
  rw [residue_mulMod hm, residue_mulMod hm, mul_comm]

theorem mulMod_assoc (a b c : BitVec d) :
    mulMod m (mulMod m a b) c = mulMod m a (mulMod m b c) := by
  apply residue_injective hm
  simp only [residue_mulMod hm, mul_assoc]

theorem mulMod_xor (a b c : BitVec d) :
    mulMod m a (b ^^^ c) = mulMod m a b ^^^ mulMod m a c := by
  apply residue_injective hm
  simp only [residue_mulMod hm, residue_xor, mul_add]

theorem one_mulMod (hd : 0 < d) (a : BitVec d) : mulMod m (1#d) a = a := by
  apply residue_injective hm
  rw [residue_mulMod hm, residue_one m hd, one_mul]

/-- Two vectors whose product with the same vector is one are equal: inverses are unique. -/
theorem inverse_unique (hd : 0 < d) {a b c : BitVec d} (hb : mulMod m a b = 1#d)
    (hc : mulMod m a c = 1#d) : b = c := by
  have h := mulMod_assoc hm b a c
  rw [mulMod_comm hm b a, hb, one_mulMod hm hd, hc, mulMod_comm hm, one_mulMod hm hd] at h
  exact h.symm

end laws

end BinaryPoly
