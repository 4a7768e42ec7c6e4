import Mathlib.Data.List.Infix
import Mathlib.Tactic.Common

/-!
# Cutting a list at a separator

`Cut sep str pieces` says that `pieces` is what becomes of `str` when it is cut at `sep`, from the front
and at the leftmost place each time; a place that overlaps the one before does not count. A scan that
looks for one separator after the other follows a derivation of `Cut`, whatever it does with the pieces.
-/

namespace EasyLib.Tokens

variable {α : Type*} {sep str piece rest : List α} {pieces : List (List α)}

/-- In `piece ++ sep ++ rest` the separator does not occur before the end of `piece`. -/
def Leftmost (sep piece rest : List α) : Prop :=
  ∀ front back, front ++ sep ++ back = piece ++ sep ++ rest → piece.length ≤ front.length

/-- In `piece ++ sep ++ rest` the separator does not occur behind the end of `piece`. -/
def Rightmost (sep piece rest : List α) : Prop :=
  ∀ front back, front ++ sep ++ back = piece ++ sep ++ rest → front.length ≤ piece.length

inductive Cut (sep : List α) : List α → List (List α) → Prop where
  | last {str : List α} (h : ¬ sep <:+: str) : Cut sep str [str]
  | next {piece rest : List α} {pieces : List (List α)} (hpiece : Leftmost sep piece rest)
      (hrest : Cut sep rest pieces) : Cut sep (piece ++ sep ++ rest) (piece :: pieces)

/-! ### Where the separator is -/

theorem leftmost_nil (sep rest : List α) : Leftmost sep [] rest := fun _ _ _ => Nat.zero_le _

theorem leftmost_cons_iff {a : α} :
    Leftmost sep (a :: piece) rest ↔
      ¬ sep <+: a :: (piece ++ sep ++ rest) ∧ Leftmost sep piece rest := by
  constructor
  · intro h
    refine ⟨?_, fun front back heq => ?_⟩
    · rintro ⟨back, heq⟩
      exact absurd (h [] back heq) (Nat.not_succ_le_zero _)
    · exact Nat.le_of_succ_le_succ (h (a :: front) back (congrArg (a :: ·) heq))
  · rintro ⟨hhead, h⟩ front back heq
    cases front with
    | nil => exact absurd ⟨back, heq⟩ hhead
    | cons b front => exact Nat.succ_le_succ (h front back (List.cons.inj heq).2)

theorem exists_leftmost (h : sep <:+: str) :
    ∃ piece rest, str = piece ++ sep ++ rest ∧ Leftmost sep piece rest := by
  have hhead : ∀ {str : List α}, sep <+: str →
      ∃ piece rest, str = piece ++ sep ++ rest ∧ Leftmost sep piece rest := by
    rintro _ ⟨rest, rfl⟩
    exact ⟨[], rest, rfl, leftmost_nil sep rest⟩
  induction str with
  | nil => exact hhead (List.infix_nil.mp h ▸ List.prefix_rfl)
  | cons a str ih =>
      by_cases hpre : sep <+: a :: str
      · exact hhead hpre
      · obtain ⟨piece, rest, rfl, hleft⟩ := ih ((List.infix_cons_iff.mp h).resolve_left hpre)
        exact ⟨a :: piece, rest, rfl, leftmost_cons_iff.mpr ⟨hpre, hleft⟩⟩

/-- More text behind the separator does not make it occur earlier. -/
theorem Leftmost.append (h : Leftmost sep piece rest) (hidden : List α) :
    Leftmost sep piece (rest ++ hidden) := by
  intro front back heq
  by_contra hlt
  have hstarts : front ++ sep <+: piece ++ sep ++ rest := by
    refine List.prefix_of_prefix_length_le ⟨back, heq⟩ ⟨hidden, ?_⟩ ?_
    · rw [List.append_assoc]
    · simp only [List.length_append]
      omega
  obtain ⟨back', heq'⟩ := hstarts
  exact hlt (h front back' heq')

theorem Leftmost.of_append {front : List α} (h : Leftmost sep (front ++ piece) rest) :
    Leftmost sep piece rest := by
  induction front with
  | nil => exact h
  | cons a front ih => exact ih (leftmost_cons_iff.mp h).2

theorem Leftmost.not_contains (h : Leftmost sep piece rest) (hsep : sep ≠ []) : ¬ sep <:+: piece := by
  rintro ⟨front, back, rfl⟩
  have hle := h front (back ++ sep ++ rest) (by simp only [List.append_assoc])
  have hpos := List.length_pos_iff.mpr hsep
  simp only [List.length_append] at hle
  omega

theorem rightmost_cons {a : α} (h : Rightmost sep piece rest) : Rightmost sep (a :: piece) rest := by
  intro front back heq
  cases front with
  | nil => exact Nat.zero_le _
  | cons b front => exact Nat.succ_le_succ (h front back (List.cons.inj heq).2)

/-- A separator at the front that does not occur further on. -/
theorem rightmost_nil {a : α} (heq : sep ++ rest = a :: str) (hnot : ¬ sep <:+: str) :
    Rightmost sep [] rest := by
  intro front back hfront
  cases front with
  | nil => exact le_rfl
  | cons b front =>
      rw [List.nil_append, heq] at hfront
      exact absurd ⟨front, back, (List.cons.inj hfront).2⟩ hnot

/-! ### The pieces -/

theorem exists_cut (hsep : sep ≠ []) (str : List α) : ∃ pieces, Cut sep str pieces := by
  induction hlen : str.length using Nat.strong_induction_on generalizing str with
  | _ length ih =>
      by_cases h : sep <:+: str
      · obtain ⟨piece, rest, rfl, hleft⟩ := exists_leftmost h
        have hpos := List.length_pos_iff.mpr hsep
        obtain ⟨pieces, hcut⟩ := ih rest.length (by simp only [List.length_append] at hlen; omega) rest rfl
        exact ⟨piece :: pieces, .next hleft hcut⟩
      · exact ⟨[str], .last h⟩

theorem Cut.ne_nil (h : Cut sep str pieces) : pieces ≠ [] := by
  cases h with
  | last _ => exact List.cons_ne_nil _ _
  | next _ _ => exact List.cons_ne_nil _ _

theorem Cut.intercalate_eq (h : Cut sep str pieces) : sep.intercalate pieces = str := by
  induction h with
  | last _ => exact List.intercalate_singleton
  | next _ hrest ih => rw [List.intercalate_cons_of_ne_nil hrest.ne_nil, ih]

theorem Cut.not_contains (h : Cut sep str pieces) (hsep : sep ≠ []) :
    ∀ piece ∈ pieces, ¬ sep <:+: piece := by
  induction h with
  | last h => exact List.forall_mem_singleton.mpr h
  | next hpiece _ ih => exact List.forall_mem_cons.mpr ⟨hpiece.not_contains hsep, ih⟩

theorem Cut.length_le (h : Cut sep str pieces) (hsep : sep ≠ []) :
    pieces.length ≤ str.length + 1 := by
  have hpos := List.length_pos_iff.mpr hsep
  induction h with
  | last _ => simp
  | next _ _ ih =>
      simp only [List.length_cons, List.length_append]
      omega

theorem Cut.length_piece_le (h : Cut sep str pieces) : ∀ piece ∈ pieces, piece.length ≤ str.length := by
  induction h with
  | last _ => exact List.forall_mem_singleton.mpr le_rfl
  | next _ _ ih =>
      refine List.forall_mem_cons.mpr ⟨?_, fun piece hpiece => ?_⟩
      · simp only [List.length_append]
        omega
      · have hle := ih piece hpiece
        simp only [List.length_append]
        omega

/-- Without the separators there is no more than the list. -/
theorem Cut.length_join_le (h : Cut sep str pieces) : (([] : List α).intercalate pieces).length ≤ str.length := by
  induction h with
  | last _ => rw [List.intercalate_singleton]
  | next _ hrest ih =>
      rw [List.intercalate_cons_of_ne_nil hrest.ne_nil]
      simp only [List.length_append, List.length_nil]
      omega

/-- A separator that occurs is not in the joined pieces. -/
theorem Cut.length_join_lt (h : Cut sep str pieces) (hsep : sep ≠ []) (hoccurs : sep <:+: str) :
    (([] : List α).intercalate pieces).length < str.length := by
  cases h with
  | last hnot => exact absurd hoccurs hnot
  | next _ hrest =>
      have hle := hrest.length_join_le
      have hpos := List.length_pos_iff.mpr hsep
      rw [List.intercalate_cons_of_ne_nil hrest.ne_nil]
      simp only [List.length_append, List.length_nil]
      omega

/-! ### Separators of one element -/

theorem leftmost_singleton {c : α} (h : c ∉ piece) : Leftmost [c] piece rest := by
  intro front back heq
  by_contra hlt
  have hstarts : front ++ [c] <+: piece := by
    refine List.prefix_of_prefix_length_le ⟨back, heq⟩ ⟨[c] ++ rest, (List.append_assoc _ _ _).symm⟩ ?_
    simp only [List.length_append, List.length_singleton]
    omega
  exact h (hstarts.subset (List.mem_append_right front List.mem_cons_self))

theorem cut_intercalate {c : α} (hne : pieces ≠ []) (h : ∀ piece ∈ pieces, c ∉ piece) :
    Cut [c] ([c].intercalate pieces) pieces := by
  induction pieces with
  | nil => exact absurd rfl hne
  | cons piece pieces ih =>
      obtain ⟨hpiece, hrest⟩ := List.forall_mem_cons.mp h
      by_cases hnil : pieces = []
      · subst hnil
        rw [List.intercalate_singleton]
        exact .last fun hoccurs => hpiece ((List.singleton_infix_iff c piece).mp hoccurs)
      · rw [List.intercalate_cons_of_ne_nil hnil]
        exact .next (leftmost_singleton hpiece) (ih hnil hrest)

theorem Cut.singleton_notMem {c : α} (h : Cut [c] str pieces) : ∀ piece ∈ pieces, c ∉ piece := by
  intro piece hpiece hmem
  exact h.not_contains (List.cons_ne_nil c []) piece hpiece ((List.singleton_infix_iff c piece).mpr hmem)

theorem Cut.length_eq_count [DecidableEq α] {c : α} (h : Cut [c] str pieces) :
    pieces.length = str.count c + 1 := by
  induction h with
  | last hnot =>
      have hcount := List.count_eq_zero.mpr fun hmem => hnot ((List.singleton_infix_iff c _).mpr hmem)
      rw [hcount, List.length_singleton]
  | next hpiece _ ih =>
      have hnot := hpiece.not_contains (List.cons_ne_nil c [])
      have hcount := List.count_eq_zero.mpr fun hmem => hnot ((List.singleton_infix_iff c _).mpr hmem)
      rw [List.count_append, List.count_append, hcount, List.count_singleton_self, List.length_cons, ih]
      omega

/-! ### Without an empty piece at the end -/

/-- The pieces of a scan that stops at the end of the list and does not look for a piece behind it. -/
def trimLast (pieces : List (List α)) : List (List α) :=
  match pieces.getLast? with
  | some [] => pieces.dropLast
  | _ => pieces

theorem trimLast_cons (hne : pieces ≠ []) : trimLast (piece :: pieces) = piece :: trimLast pieces := by
  obtain ⟨second, pieces, rfl⟩ := List.exists_cons_of_ne_nil hne
  rw [trimLast, trimLast, List.getLast?_cons_cons, List.dropLast_cons_cons]
  split <;> rfl

theorem trimLast_singleton (hne : piece ≠ []) : trimLast [piece] = [piece] := by
  obtain ⟨a, piece, rfl⟩ := List.exists_cons_of_ne_nil hne
  rfl

theorem mem_of_mem_trimLast (h : piece ∈ trimLast pieces) : piece ∈ pieces := by
  rw [trimLast] at h
  split at h
  · exact List.dropLast_subset pieces h
  · exact h

theorem Cut.trimLast_eq_nil (h : Cut sep str pieces) (hsep : sep ≠ []) (hnil : str = []) :
    trimLast pieces = [] := by
  cases h with
  | last =>
      subst hnil
      rfl
  | next => simp [hsep] at hnil

theorem Cut.trimLast_ne_nil (h : Cut sep str pieces) (hne : str ≠ []) : trimLast pieces ≠ [] := by
  cases h with
  | last hnot =>
      rw [trimLast_singleton hne]
      exact List.cons_ne_nil _ _
  | next hpiece hrest =>
      rw [trimLast_cons hrest.ne_nil]
      exact List.cons_ne_nil _ _

end EasyLib.Tokens
