import Mathlib.Tactic.Common

/-! # Memory and loops in place

A memory is a function from addresses to cells.  `segment k m a` are the `k` cells from `a` on and
`store m a v` puts `v` there.

A loop that walks over segments that follow each other and replaces each one by a function of
itself has the obvious result, because no iteration sees what another one has written
(`segment_mapSegments`). -/

namespace Memory

variable {β : Type} {k : ℕ}

/-! ### Segments -/

def segment (k : ℕ) (m : ℕ → β) (a : ℕ) : Fin k → β := fun i => m (a + i)

def store (m : ℕ → β) (a : ℕ) (v : Fin k → β) : ℕ → β := fun x =>
  if h : a ≤ x ∧ x < a + k then v ⟨x - a, by omega⟩ else m x

/-- `n` cells are copied from `src` to `dest`.  Where the two areas overlap only in part, all of them
are read before the first is written; a copy that does not promise this, such as `memcpy`, is meant
only for areas that are the same or apart. -/
def copy (m : ℕ → β) (dest src n : ℕ) : ℕ → β := store m dest (segment n m src)

theorem store_of_outside (m : ℕ → β) (v : Fin k → β) {a x : ℕ} (h : x < a ∨ a + k ≤ x) :
    store m a v x = m x := by
  rw [store, dif_neg (by omega)]

theorem store_apply (m : ℕ → β) (v : Fin k → β) (a : ℕ) (i : Fin k) :
    store m a v (a + i) = v i := by
  rw [store, dif_pos (by omega)]
  congr 1
  exact Fin.ext (Nat.add_sub_cancel_left a i)

theorem segment_store (m : ℕ → β) (a : ℕ) (v : Fin k → β) : segment k (store m a v) a = v :=
  funext fun i => store_apply m v a i

theorem segment_store_of_apart (m : ℕ → β) (v : Fin k → β) {n a a' : ℕ}
    (h : a + k ≤ a' ∨ a' + n ≤ a) : segment n (store m a v) a' = segment n m a' := by
  funext i
  exact store_of_outside m v (by omega)

theorem copy_of_outside (m : ℕ → β) {dest src n x : ℕ} (h : x < dest ∨ dest + n ≤ x) :
    copy m dest src n x = m x := store_of_outside m _ h

theorem copy_apply (m : ℕ → β) (dest src : ℕ) {n i : ℕ} (h : i < n) :
    copy m dest src n (dest + i) = m (src + i) := store_apply m (segment n m src) dest ⟨i, h⟩

/-! ### Loops -/

/-- `n` segments from `a` on, one after the other, each replaced by a function of itself. -/
def mapSegments (f : (Fin k → β) → Fin k → β) : (a n : ℕ) → (ℕ → β) → ℕ → β
  | _, 0, m => m
  | a, n + 1, m => mapSegments f (a + k) n (store m a (f (segment k m a)))

theorem mapSegments_of_outside (f : (Fin k → β) → Fin k → β) {x : ℕ} : ∀ {a n : ℕ} (m : ℕ → β),
    x < a ∨ a + k * n ≤ x → mapSegments f a n m x = m x
  | _, 0, _, _ => rfl
  | a, n + 1, m, h => by
      rw [Nat.mul_succ] at h
      rw [mapSegments, mapSegments_of_outside f _ (by omega), store_of_outside m _ (by omega)]

theorem segment_mapSegments (f : (Fin k → β) → Fin k → β) : ∀ {n i : ℕ} (a : ℕ) (m : ℕ → β),
    i < n → segment k (mapSegments f a n m) (a + k * i) = f (segment k m (a + k * i))
  | n + 1, 0, a, m, _ => by
      have first : segment k (mapSegments f a (n + 1) m) a = f (segment k m a) := by
        conv_rhs => rw [← segment_store m a (f (segment k m a))]
        funext j
        have hj : a + (j : ℕ) < a + k := by omega
        exact mapSegments_of_outside f _ (Or.inl hj)
      exact first
  | n + 1, i + 1, a, m, h => by
      rw [mapSegments, Nat.mul_succ, show a + (k * i + k) = a + k + k * i by omega,
        segment_mapSegments f (a + k) _ (Nat.lt_of_succ_lt_succ h),
        segment_store_of_apart m _ (by omega)]

end Memory
