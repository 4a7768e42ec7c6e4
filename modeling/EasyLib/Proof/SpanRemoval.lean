import EasyLib.Proof.ScanTermination

/-!
# Removing a span

`RemoveSubstr` cuts the text from the first `sBegin` to the last `sEnd` out of the name and has
`ReplaceAll` remove it. If the two do not overlap, this text begins with `sBegin` and ends with `sEnd`, so it
occurs nowhere else and goes once. In any other case it is a text that was not meant: from the last `sEnd`
in front of `sBegin` the count `p1 - p0` wraps around and takes all that follows, and where the one ends at
the beginning of the other the text is empty and `ReplaceAll` does not end.
-/

namespace EasyLib.Common.EasyString

open CppString Tokens Loop

variable {songname sBegin sEnd str token s : Str}

theorem rfind_eq_none (h : rfind token str = none) : ¬ token <:+: str := by
  induction str with
  | nil =>
      rw [rfind] at h
      split_ifs at h with hnil
      exact fun hoccurs => hnil (List.infix_nil.mp hoccurs)
  | cons c str ih =>
      rw [rfind] at h
      cases hrest : rfind token str with
      | some pos =>
          rw [hrest] at h
          cases h
      | none =>
          simp only [hrest] at h
          split_ifs at h with hstarts
          intro hoccurs
          rcases List.infix_cons_iff.mp hoccurs with hhead | htail
          · exact hstarts (List.isPrefixOf_iff_prefix.mpr hhead)
          · exact ih hrest htail

theorem rfind_eq_some {pos : ℕ} (h : rfind token str = some pos) :
    ∃ front rest, str = front ++ token ++ rest ∧ Rightmost token front rest ∧ front.length = pos := by
  induction str generalizing pos with
  | nil =>
      rw [rfind] at h
      split_ifs at h with hnil
      cases h
      refine ⟨[], [], by rw [hnil]; rfl, fun front back heq => ?_, rfl⟩
      simp only [hnil, List.append_nil, List.append_eq_nil_iff] at heq
      rw [heq.1]
  | cons c str ih =>
      rw [rfind] at h
      cases hrest : rfind token str with
      | some offset =>
          simp only [hrest, Option.some.injEq] at h
          obtain ⟨front, rest, rfl, hright, rfl⟩ := ih hrest
          exact ⟨c :: front, rest, rfl, rightmost_cons hright, h⟩
      | none =>
          simp only [hrest] at h
          split_ifs at h with hstarts
          cases h
          obtain ⟨rest, heq⟩ := List.isPrefixOf_iff_prefix.mp hstarts
          exact ⟨[], rest, heq.symm, rightmost_nil heq (rfind_eq_none hrest), rfl⟩

/-! ### What is to be removed -/

/-- Without the text from the first `sBegin` to the last `sEnd`, if they come in this order. -/
def withoutSpan (songname sBegin sEnd : Str) : Str :=
  match find sBegin songname, rfind sEnd songname with
  | some p0, some p1 =>
      if p0 + sBegin.length ≤ p1 then songname.take p0 ++ songname.drop (p1 + sEnd.length) else songname
  | _, _ => songname

/-- The last `sEnd` does not begin before the first `sBegin` has ended. -/
def InOrder (songname sBegin sEnd : Str) : Prop :=
  ∀ p0 ∈ find sBegin songname, ∀ p1 ∈ rfind sEnd songname, p0 + sBegin.length ≤ p1

/-- A text that begins with the first `sBegin` and ends with the last `sEnd` occurs once. -/
theorem cut_span {front middle back : Str} (hBegin : sBegin ≠ [])
    (hleft : Leftmost sBegin front (middle ++ sEnd ++ back))
    (hright : Rightmost sEnd (front ++ sBegin ++ middle) back) :
    Cut (sBegin ++ middle ++ sEnd) (front ++ (sBegin ++ middle ++ sEnd) ++ back) [front, back] := by
  apply Cut.next
  · intro front' back' heq
    apply hleft front' (middle ++ sEnd ++ back')
    simpa only [List.append_assoc] using heq
  · apply Cut.last
    rintro ⟨front', back', rfl⟩
    have hle := hright (front ++ sBegin ++ middle ++ sEnd ++ front' ++ sBegin ++ middle) back'
      (by simp only [List.append_assoc])
    have hpos := List.length_pos_iff.mpr hBegin
    simp only [List.length_append] at hle
    omega

/-- The name around the span. -/
theorem exists_span_of_inOrder {p0 p1 : ℕ} (hfind : find sBegin songname = some p0)
    (hrfind : rfind sEnd songname = some p1) (hle : p0 + sBegin.length ≤ p1) :
    ∃ front middle back, songname = front ++ (sBegin ++ middle ++ sEnd) ++ back ∧
      Leftmost sBegin front (middle ++ sEnd ++ back) ∧ Rightmost sEnd (front ++ sBegin ++ middle) back ∧
      p0 = front.length ∧ p1 = (front ++ sBegin ++ middle).length := by
  obtain ⟨front, rest, heq, hleft, rfl⟩ := find_eq_some_iff.mp hfind
  obtain ⟨front', back, heq', hright, rfl⟩ := rfind_eq_some hrfind
  -- `front'` begins with `front ++ sBegin`, and what follows is the middle of the span.
  obtain ⟨middle, rfl⟩ : front ++ sBegin <+: front' := by
    refine List.prefix_of_prefix_length_le ⟨rest, heq.symm⟩ ⟨sEnd ++ back, ?_⟩ ?_
    · rw [heq', List.append_assoc]
    · rwa [List.length_append]
  obtain rfl : rest = middle ++ sEnd ++ back := by
    rw [heq', List.append_assoc, List.append_assoc, ← List.append_assoc middle] at heq
    exact (List.append_cancel_left heq).symm
  refine ⟨front, middle, back, ?_, hleft, hright, rfl, rfl⟩
  simpa only [List.append_assoc] using heq

theorem removeSubstr_of_inOrder {p0 p1 : ℕ} (hBegin : sBegin ≠ []) (hfind : find sBegin songname = some p0)
    (hrfind : rfind sEnd songname = some p1) (hle : p0 + sBegin.length ≤ p1) :
    removeSubstr songname sBegin sEnd =
      some (songname.take p0 ++ songname.drop (p1 + sEnd.length)) := by
  obtain ⟨front, middle, back, hname, hleft, hright, rfl, rfl⟩ := exists_span_of_inOrder hfind hrfind hle
  have hend : (front ++ sBegin ++ middle).length + sEnd.length =
      front.length + (sBegin ++ middle ++ sEnd).length := by
    simp only [List.length_append]
    omega
  have hne : sBegin ++ middle ++ sEnd ≠ [] := by simp [hBegin]
  have hcut := cut_span hBegin hleft hright
  have hsub := substr_piece front (sBegin ++ middle ++ sEnd) back
  have htake : songname.take front.length = front := by
    rw [hname, List.append_assoc, List.take_left]
  have hdrop : songname.drop (front.length + (sBegin ++ middle ++ sEnd).length) = back := by
    rw [hname, ← List.length_append, List.drop_left]
  rw [← List.append_assoc, ← hname] at hsub
  rw [← hname] at hcut
  rw [hend, htake, hdrop, removeSubstr, findFrom_zero, hfind]
  simp only [hrfind, hend, hsub, Option.bind_some, replaceAll_of_cut hne hcut []]
  simp [List.intercalate]

/-! ### Everything else -/

theorem replaceAll_nil (str strReplaced : Str) : replaceAll str [] strReplaced = none := by
  by_contra hsome
  obtain ⟨result, hresult⟩ := Option.ne_none_iff_exists'.mp hsome
  obtain ⟨left, hloop, -⟩ := Option.bind_eq_some_iff.mp hresult
  exact replaceRound_halts_iff.mp ⟨_, _, Option.join_eq_some_iff.mp hloop⟩ rfl

/-- `ReplaceAll` changes a string in which it removes something. -/
theorem replaceAll_ne_self (hoccurs : s <:+: str) : replaceAll str s [] ≠ some str := by
  by_cases hne : s = []
  · rw [hne, replaceAll_nil]
    exact (Option.some_ne_none str).symm
  · obtain ⟨pieces, hcut⟩ := exists_cut hne str
    have hlt := hcut.length_join_lt hne hoccurs
    rw [replaceAll_of_cut hne hcut]
    intro heq
    rw [Option.some.inj heq] at hlt
    exact absurd hlt (lt_irrefl _)

theorem substr_contained {pos count : Int} {sub : Str} (h : substr str pos count = some sub) :
    sub <:+: str := by
  rw [substr] at h
  split_ifs at h with hrange hneg
  · cases h
    exact (List.drop_suffix _ _).isInfix
  · cases h
    exact (List.take_prefix _ _).isInfix.trans (List.drop_suffix _ _).isInfix

theorem removeSubstr_ne_self {p0 p1 : ℕ} (hfind : find sBegin songname = some p0)
    (hrfind : rfind sEnd songname = some p1) : removeSubstr songname sBegin sEnd ≠ some songname := by
  rw [removeSubstr, findFrom_zero, hfind]
  simp only [hrfind]
  intro heq
  obtain ⟨s, hsub, hreplace⟩ := Option.bind_eq_some_iff.mp heq
  exact replaceAll_ne_self (substr_contained hsub) hreplace

/-- `RemoveSubstr` does what it is for exactly if there is no such pair of texts, or the last `sEnd` begins
behind the end of the first `sBegin`. -/
theorem removeSubstr_iff_inOrder (songname sEnd : Str) {sBegin : Str} (hBegin : sBegin ≠ []) :
    removeSubstr songname sBegin sEnd = some (withoutSpan songname sBegin sEnd) ↔
      InOrder songname sBegin sEnd := by
  cases hfind : find sBegin songname with
  | none => simp [removeSubstr, findFrom_zero, withoutSpan, InOrder, hfind]
  | some p0 =>
      cases hrfind : rfind sEnd songname with
      | none => simp [removeSubstr, findFrom_zero, withoutSpan, InOrder, hfind, hrfind]
      | some p1 =>
          have horder : InOrder songname sBegin sEnd ↔ p0 + sBegin.length ≤ p1 := by
            simp [InOrder, hfind, hrfind]
          rw [horder, withoutSpan, hfind, hrfind]
          by_cases hle : p0 + sBegin.length ≤ p1
          · simp only [removeSubstr_of_inOrder hBegin hfind hrfind hle, hle, if_true]
          · simp only [hle, if_false, iff_false]
            exact removeSubstr_ne_self hfind hrfind

theorem removeSubstr_iff_inOrder_brackets :
    removeSubstr ['a', '(', 'b', ')', 'c'] ['('] [')'] =
        some (withoutSpan ['a', '(', 'b', ')', 'c'] ['('] [')']) ↔
      InOrder ['a', '(', 'b', ')', 'c'] ['('] [')'] :=
  removeSubstr_iff_inOrder _ _ (List.cons_ne_nil _ _)

/-- Overlapping texts are removed, and so is all that follows the first `sBegin` where the last `sEnd` lies
in front of it; where that one ends at the beginning of `sBegin` the loop does not end. -/
theorem removeSubstr_not_inOrder :
    removeSubstr ['a', 'b'] ['a', 'b'] ['b'] = some [] ∧
    removeSubstr ['b', 'x', 'a'] ['a'] ['b'] = some ['b', 'x'] ∧
    removeSubstr ['b', 'a'] ['a'] ['b'] = none ∧
    ¬ Halts (replaceRound ['b', 'a'] [] []) ([], 0, false, findFrom ['b', 'a'] [] 0) := by
  refine ⟨by decide, by decide, by decide, ?_⟩
  rw [replaceRound_halts_iff, not_not]

end EasyLib.Common.EasyString
