import Mathlib.Algebra.BigOperators.Fin
import Mathlib.Algebra.Order.BigOperators.Group.Finset
import Mathlib.Data.Fintype.BigOperators

/-!
# Counting threads by their place

A shared counter that every thread raises when it enters a region of its code and lowers when it
leaves is the number of threads in that region. `total weight place` is that number for a region
given by a weight on places, and a step of one thread changes it by the difference of two weights.
`tally` is the same for the entries of a list.
-/

namespace EasyLib.Counting

open scoped BigOperators

variable {Thread Place : Type*} [Fintype Thread]

def total (weight : Place → ℕ) (place : Thread → Place) : ℕ := ∑ thread, weight (place thread)

variable {weight : Place → ℕ} {place : Thread → Place}

theorem total_update_add [DecidableEq Thread] (weight : Place → ℕ) (place : Thread → Place)
    (thread : Thread) (next : Place) :
    total weight (Function.update place thread next) + weight (place thread) =
      total weight place + weight next := by
  have hupdate : (fun other => weight (Function.update place thread next other)) =
      Function.update (fun other => weight (place other)) thread (weight next) := by
    funext other
    by_cases heq : other = thread <;> simp [heq]
  have hsum := Finset.sum_erase_add Finset.univ (fun other => weight (place other))
    (Finset.mem_univ thread)
  unfold total
  rw [hupdate, Finset.sum_update_of_mem (Finset.mem_univ thread), Finset.sdiff_singleton_eq_erase]
  omega

theorem total_mono {weight' : Place → ℕ} (hle : ∀ p, weight p ≤ weight' p) :
    total weight place ≤ total weight' place :=
  Finset.sum_le_sum fun thread _ => hle (place thread)

theorem total_add (weight weight' : Place → ℕ) (place : Thread → Place) :
    total (fun p => weight p + weight' p) place = total weight place + total weight' place :=
  Finset.sum_add_distrib

theorem weight_le_total (weight : Place → ℕ) (place : Thread → Place) (thread : Thread) :
    weight (place thread) ≤ total weight place :=
  Finset.single_le_sum (fun other _ => Nat.zero_le (weight (place other))) (Finset.mem_univ thread)

theorem weight_add_weight_le_total {left right : Thread} (hne : left ≠ right) :
    weight (place left) + weight (place right) ≤ total weight place := by
  classical
  calc
    weight (place left) + weight (place right) =
        ∑ thread ∈ {left, right}, weight (place thread) := by
      rw [Finset.sum_pair hne]
    _ ≤ total weight place := Finset.sum_le_sum_of_subset (Finset.subset_univ _)

theorem total_le_card (hle : ∀ p, weight p ≤ 1) (place : Thread → Place) :
    total weight place ≤ Fintype.card Thread := by
  calc
    total weight place ≤ ∑ _thread : Thread, 1 := Finset.sum_le_sum fun thread _ => hle _
    _ = Fintype.card Thread := by simp

theorem total_lt_card (hle : ∀ p, weight p ≤ 1) {thread : Thread}
    (hzero : weight (place thread) = 0) : total weight place < Fintype.card Thread := by
  calc
    total weight place < ∑ _thread : Thread, 1 :=
      Finset.sum_lt_sum (fun other _ => hle _) ⟨thread, Finset.mem_univ thread, by omega⟩
    _ = Fintype.card Thread := by simp

theorem total_eq_zero (hzero : ∀ thread, weight (place thread) = 0) : total weight place = 0 :=
  Finset.sum_eq_zero fun thread _ => hzero thread

section Lists

variable {Entry : Type*} {entries : List Entry} {index : ℕ} {entry : Entry}

def tally (weight : Entry → ℕ) (entries : List Entry) : ℕ := (entries.map weight).sum

variable {weight : Entry → ℕ}

theorem tally_cons (weight : Entry → ℕ) (entry : Entry) (entries : List Entry) :
    tally weight (entry :: entries) = weight entry + tally weight entries := rfl

theorem tally_append_singleton (weight : Entry → ℕ) (entries : List Entry) (entry : Entry) :
    tally weight (entries ++ [entry]) = tally weight entries + weight entry := by
  simp [tally]

theorem tally_reverse (weight : Entry → ℕ) (entries : List Entry) :
    tally weight entries.reverse = tally weight entries := by
  rw [tally, List.map_reverse, List.sum_reverse]
  rfl

theorem tally_set_add (weight : Entry → ℕ) (hentry : entries[index]? = some entry) (next : Entry) :
    tally weight (entries.set index next) + weight entry = tally weight entries + weight next := by
  induction entries generalizing index with
  | nil => cases hentry
  | cons first rest ih =>
      cases index with
      | zero =>
          obtain rfl : first = entry := Option.some.inj hentry
          rw [List.set_cons_zero, tally_cons, tally_cons]
          omega
      | succ index =>
          have hrest := ih hentry
          rw [List.set_cons_succ, tally_cons, tally_cons]
          omega

theorem weight_le_tally (weight : Entry → ℕ) (hmem : entry ∈ entries) :
    weight entry ≤ tally weight entries :=
  List.le_sum_of_mem (List.mem_map_of_mem hmem)

end Lists

end EasyLib.Counting
