import Mathlib.Data.Fin.Tuple.Basic
import Mathlib.Data.Fintype.Card
import Mathlib.Data.List.FinRange

/-! # Shift pipelines

A pipeline of `n + 1` stages that moves as one: `advance x v` puts `x` into stage `0`, moves
every stage one place on and drops what was in the last stage.

With optional contents `v : Fin (n + 1) → Option α` the pipeline is a queue: `occupants v`
lists what is inside, oldest first, and `occupants_advance` says that one move takes the
contents of the last stage off the front of that list and adds the new entry at its end.  So
whatever the pattern of moves and holds, nothing overtakes, is lost or is duplicated. -/

namespace ShiftPipeline

variable {α β : Type} {n : ℕ}

/-- One move of the pipeline. -/
def advance (x : α) (v : Fin (n + 1) → α) : Fin (n + 1) → α := Fin.cons x (Fin.init v)

@[simp] theorem advance_zero (x : α) (v : Fin (n + 1) → α) : advance x v 0 = x := rfl

@[simp] theorem advance_succ (x : α) (v : Fin (n + 1) → α) (k : Fin n) :
    advance x v k.succ = v k.castSucc := rfl

/-! ### The contents as a queue -/

/-- What is inside, oldest first. -/
def occupants (v : Fin n → Option α) : List α := (List.finRange n).reverse.filterMap v

theorem mem_occupants {v : Fin n → Option α} {a : α} :
    a ∈ occupants v ↔ ∃ k, v k = some a := by
  simp [occupants, List.mem_filterMap]

theorem occupants_eq_last (v : Fin (n + 1) → Option α) :
    occupants v = (v (Fin.last n)).toList ++ occupants (fun k => v k.castSucc) := by
  unfold occupants
  rw [List.finRange_succ_last, List.reverse_append, List.reverse_singleton, List.singleton_append,
    ← List.map_reverse]
  cases h : v (Fin.last n) with
  | none => rw [List.filterMap_cons_none h, List.filterMap_map]; rfl
  | some a => rw [List.filterMap_cons_some h, List.filterMap_map]; rfl

theorem occupants_eq_first (v : Fin (n + 1) → Option α) :
    occupants v = occupants (fun k => v k.succ) ++ (v 0).toList := by
  unfold occupants
  rw [List.finRange_succ, List.reverse_cons, List.filterMap_append, ← List.map_reverse,
    List.filterMap_map]
  cases h : v 0 with
  | none => rw [List.filterMap_cons_none h]; rfl
  | some a => rw [List.filterMap_cons_some h]; rfl

/-- **Queue law**: a move takes the last stage off the front and adds the new entry at the end. -/
theorem occupants_advance (x : Option α) (v : Fin (n + 1) → Option α) :
    (v (Fin.last n)).toList ++ occupants (advance x v) = occupants v ++ x.toList := by
  rw [occupants_eq_first (advance x v), occupants_eq_last v]
  simp only [advance_succ, advance_zero, List.append_assoc]

theorem occupants_empty {v : Fin n → Option α} (h : ∀ k, v k = none) : occupants v = [] := by
  rw [List.eq_nil_iff_forall_not_mem]
  intro a ha
  obtain ⟨k, hk⟩ := mem_occupants.mp ha
  rw [h k] at hk
  cases hk

theorem empty_of_occupants {v : Fin n → Option α} (h : occupants v = []) (k : Fin n) :
    v k = none := by
  cases hk : v k with
  | none => rfl
  | some a =>
      have : a ∈ occupants v := mem_occupants.mpr ⟨k, hk⟩
      rw [h] at this
      cases this

/-- Changing every entry in place does not change what a projection that ignores the change
sees of the queue. -/
theorem occupants_map {v : Fin n → Option α} {f : Fin n → α → α} {g : α → β}
    (h : ∀ k a, g (f k a) = g a) :
    (occupants (fun k => (v k).map (f k))).map g = (occupants v).map g := by
  unfold occupants
  rw [List.map_filterMap, List.map_filterMap]
  congr 1
  funext k
  cases v k with
  | none => rfl
  | some a => simp [h]

/-- The queue is as long as there are occupied stages. -/
theorem length_occupants (v : Fin n → Option α) :
    (occupants v).length = (Finset.univ.filter fun k => (v k).isSome = true).card := by
  induction n with
  | zero => rfl
  | succ n ih =>
      rw [occupants_eq_first, List.length_append, ih, Fin.univ_succ, Finset.filter_cons]
      cases h : v 0 with
      | none =>
          simp only [Option.toList_none, List.length_nil, Nat.add_zero, Option.isSome_none,
            Bool.false_eq_true, if_false, Finset.filter_map, Finset.card_map]
          rfl
      | some a =>
          simp only [Option.toList_some, List.length_singleton, Option.isSome_some, if_true,
            Finset.card_cons, Finset.filter_map, Finset.card_map]
          rfl

theorem length_occupants_le (v : Fin n → Option α) : (occupants v).length ≤ n :=
  (List.length_filterMap_le _ _).trans_eq (by simp)

/-! ### How far it is to the end -/

/-- The moves until the oldest entry is in the last stage, or a new one would be. -/
def lead (v : Fin n → Option α) : ℕ := (List.finRange n).reverse.findIdx fun k => (v k).isSome

theorem lead_le (v : Fin n → Option α) : lead v ≤ n :=
  List.findIdx_le_length.trans_eq (by simp)

/-- A move brings the oldest entry one place on. -/
theorem lead_advance {x : Option α} {v : Fin (n + 1) → Option α} (hlast : v (Fin.last n) = none)
    (h : x.isSome = true ∨ occupants v ≠ []) : lead (advance x v) + 1 = lead v := by
  let earlier := (List.finRange n).reverse.findIdx fun k => (v k.castSucc).isSome
  have hbefore : lead v = earlier + 1 := by
    rw [lead, List.finRange_succ_last, List.reverse_append, List.reverse_singleton,
      List.singleton_append, ← List.map_reverse, List.findIdx_cons, hlast, List.findIdx_map]
    rfl
  have hafter : lead (advance x v) =
      if earlier < n then earlier else (if x.isSome then 0 else 1) + n := by
    rw [lead, List.finRange_succ, List.reverse_cons, ← List.map_reverse, List.findIdx_append,
      List.findIdx_map, List.length_map, List.length_reverse, List.length_finRange,
      List.findIdx_singleton]
    rfl
  have hle : earlier ≤ n := List.findIdx_le_length.trans_eq (by simp)
  have hentry : x.isSome = true ∨ earlier < n := by
    refine h.imp_right fun hne => ?_
    obtain ⟨a, ha⟩ := List.exists_mem_of_ne_nil _ hne
    obtain ⟨k, hk⟩ := mem_occupants.mp ha
    induction k using Fin.lastCases with
    | last => cases hlast.symm.trans hk
    | cast k =>
        have hlt : earlier < (List.finRange n).reverse.length :=
          List.findIdx_lt_length_of_exists ⟨k, by simp, by simp [hk]⟩
        rwa [List.length_reverse, List.length_finRange] at hlt
  rw [hbefore, hafter]
  split_ifs with hlt hx
  · rfl
  · omega
  · exact absurd (hentry.resolve_left hx) hlt

end ShiftPipeline
