import Mathlib.Data.List.Basic
import Mathlib.Data.List.TakeWhile
import Mathlib.Tactic.Common

/-!
# Runs between separators

`Runs sep str runs` says that `runs` are the longest stretches of `str` without a separator, in their order.
Unlike cutting at each separator this gives no empty pieces: a scan skips all the separators it meets and
then takes all the rest up to the next one.
-/

namespace EasyLib.Tokens

variable {α : Type*} {sep : α → Bool} {str gap run rest : List α} {runs : List (List α)} {a : α}

inductive Runs (sep : α → Bool) : List α → List (List α) → Prop where
  | done {gap : List α} (hgap : ∀ a ∈ gap, sep a) : Runs sep gap []
  | last {gap run : List α} (hgap : ∀ a ∈ gap, sep a) (hne : run ≠ []) (hrun : ∀ a ∈ run, ¬ sep a) :
      Runs sep (gap ++ run) [run]
  | next {gap run rest : List α} {a : α} {runs : List (List α)} (hgap : ∀ a ∈ gap, sep a)
      (hne : run ≠ []) (hrun : ∀ a ∈ run, ¬ sep a) (ha : sep a) (hrest : Runs sep (a :: rest) runs) :
      Runs sep (gap ++ (run ++ a :: rest)) (run :: runs)

/-- A list is what a scan skips and the rest, which is empty or begins with something else. -/
theorem exists_span (skip : α → Bool) (str : List α) :
    ∃ front rest, str = front ++ rest ∧ (∀ a ∈ front, skip a) ∧ ∀ a ∈ rest.head?, ¬ skip a := by
  refine ⟨str.takeWhile skip, str.dropWhile skip, List.takeWhile_append_dropWhile.symm,
    fun a ha => List.mem_takeWhile_imp ha, fun a ha => ?_⟩
  simpa [Option.mem_def.mp ha] using List.head?_dropWhile_not skip str

/-- Every list has its runs. -/
theorem exists_runs (sep : α → Bool) (str : List α) : ∃ runs, Runs sep str runs := by
  induction hlen : str.length using Nat.strong_induction_on generalizing str with
  | _ length ih =>
      obtain ⟨gap, back, rfl, hgap, hback⟩ := exists_span sep str
      obtain ⟨run, rest, rfl, hrun, hrest⟩ := exists_span (fun a => !sep a) back
      have hrun : ∀ a ∈ run, ¬ sep a := fun a ha => by simpa using hrun a ha
      cases run with
      | nil =>
          cases rest with
          | nil => exact ⟨[], by simpa using Runs.done hgap⟩
          | cons a rest =>
              have hsep := hrest a rfl
              exact absurd (by simpa using hsep) (hback a rfl)
      | cons b run =>
          have hne : b :: run ≠ [] := List.cons_ne_nil b run
          cases rest with
          | nil => exact ⟨[b :: run], by simpa using Runs.last hgap hne hrun⟩
          | cons a rest =>
              have hless : (a :: rest).length < length := by
                rw [← hlen]
                simp only [List.length_append, List.length_cons]
                omega
              obtain ⟨runs, hruns⟩ := ih (a :: rest).length hless (a :: rest) rfl
              have ha : sep a := by simpa using hrest a rfl
              exact ⟨(b :: run) :: runs, .next hgap hne hrun ha hruns⟩

theorem Runs.of_mem (h : Runs sep str runs) : ∀ run ∈ runs, run ≠ [] ∧ ∀ a ∈ run, ¬ sep a := by
  induction h with
  | done _ => exact List.forall_mem_nil _
  | last _ hne hrun => exact List.forall_mem_singleton.mpr ⟨hne, hrun⟩
  | next _ hne hrun _ _ ih => exact List.forall_mem_cons.mpr ⟨⟨hne, hrun⟩, ih⟩

theorem Runs.length_le (h : Runs sep str runs) : runs.length ≤ str.length := by
  induction h with
  | done _ => exact Nat.zero_le _
  | last _ hne _ =>
      have hpos := List.length_pos_iff.mpr hne
      simp only [List.length_append, List.length_singleton]
      omega
  | next _ hne _ _ _ ih =>
      have hpos := List.length_pos_iff.mpr hne
      simp only [List.length_append, List.length_cons] at ih ⊢
      omega

theorem filter_of_sep (hgap : ∀ a ∈ gap, sep a) : gap.filter (fun a => !sep a) = [] :=
  List.filter_eq_nil_iff.mpr fun a ha => by simp [hgap a ha]

theorem filter_of_not_sep (hrun : ∀ a ∈ run, ¬ sep a) : run.filter (fun a => !sep a) = run :=
  List.filter_eq_self.mpr fun a ha => by simp [hrun a ha]

/-- The runs are all there is beside the separators. -/
theorem Runs.flatten_eq (h : Runs sep str runs) : runs.flatten = str.filter fun a => !sep a := by
  induction h with
  | done hgap => rw [filter_of_sep hgap, List.flatten_nil]
  | last hgap _ hrun =>
      rw [List.filter_append, filter_of_sep hgap, filter_of_not_sep hrun, List.flatten_singleton,
        List.nil_append]
  | next hgap _ hrun _ _ ih =>
      rw [List.filter_append, List.filter_append, filter_of_sep hgap, filter_of_not_sep hrun,
        List.flatten_cons, ih, List.nil_append]

/-- The list is made of the runs and of gaps of separators, and no gap between two runs is empty. -/
theorem Runs.exists_gaps (h : Runs sep str runs) :
    ∃ first gaps, gaps.length = runs.length ∧ (∀ gap ∈ first :: gaps, ∀ a ∈ gap, sep a) ∧
      (∀ gap ∈ gaps.dropLast, gap ≠ []) ∧ str = first ++ (List.zipWith (· ++ ·) runs gaps).flatten := by
  induction h with
  | @done gap hgap =>
      exact ⟨gap, [], rfl, List.forall_mem_singleton.mpr hgap, List.forall_mem_nil _, by simp⟩
  | @last gap run hgap _ _ =>
      refine ⟨gap, [[]], rfl, ?_, List.forall_mem_nil _, by simp⟩
      exact List.forall_mem_cons.mpr ⟨hgap, List.forall_mem_singleton.mpr (List.forall_mem_nil _)⟩
  | @next gap run rest a runs hgap _ _ ha hrest ih =>
      obtain ⟨first, gaps, hlen, hgaps, hdrop, heq⟩ := ih
      refine ⟨gap, first :: gaps, congrArg Nat.succ hlen, List.forall_mem_cons.mpr ⟨hgap, hgaps⟩, ?_, ?_⟩
      · cases gaps with
        | nil => exact List.forall_mem_nil _
        | cons second gaps =>
            rw [List.dropLast_cons_cons]
            refine List.forall_mem_cons.mpr ⟨?_, hdrop⟩
            -- The separator `a` comes from the gap: there is none in the run behind it.
            rintro rfl
            obtain ⟨run', runs, rfl⟩ := List.exists_cons_of_length_eq_add_one hlen.symm
            obtain ⟨hne', hrun'⟩ := hrest.of_mem run' List.mem_cons_self
            obtain ⟨b, run', rfl⟩ := List.exists_cons_of_ne_nil hne'
            rw [List.nil_append, List.zipWith_cons_cons, List.flatten_cons] at heq
            obtain ⟨rfl, -⟩ := List.cons.inj heq
            exact hrun' a List.mem_cons_self ha
      · rw [List.zipWith_cons_cons, List.flatten_cons, List.append_assoc, ← heq]

end EasyLib.Tokens
