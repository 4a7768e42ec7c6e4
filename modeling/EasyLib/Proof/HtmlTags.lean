import EasyLib.Proof.Tokenizing

/-!
# Removing tags

The scan of `RemoveHtmlTags` never goes back: what lies in front of its position has no `<` but those that
open a span it has skipped as too long, and these spans stay as they are. So text that comes together when
a tag is removed has no `<` on either side, and a second scan meets the same long spans and the same end.
-/

namespace EasyLib.Common.EasyString

open Tokens Loop

variable {s out text inner front rest : Str} {rounds : ℕ}

/-- What becomes of the text. A tag is removed, a longer span is kept, and an open one ends the scan. -/
inductive Stripped : Str → Str → Prop where
  | text {text : Str} (htext : '<' ∉ text) : Stripped text text
  | unclosed {text rest : Str} (htext : '<' ∉ text) (hrest : '>' ∉ rest) :
      Stripped (text ++ '<' :: rest) (text ++ '<' :: rest)
  | tag {text inner rest out : Str} (htext : '<' ∉ text) (hinner : '>' ∉ inner)
      (hshort : inner.length + 2 < 1024) (hrest : Stripped rest out) :
      Stripped (text ++ '<' :: (inner ++ '>' :: rest)) (text ++ out)
  | long {text inner rest out : Str} (htext : '<' ∉ text) (hinner : '>' ∉ inner)
      (hlong : 1024 ≤ inner.length + 2) (hrest : Stripped rest out) :
      Stripped (text ++ '<' :: (inner ++ '>' :: rest)) (text ++ '<' :: (inner ++ '>' :: out))

theorem exists_stripped (s : Str) : ∃ out, Stripped s out := by
  induction hlen : s.length using Nat.strong_induction_on generalizing s with
  | _ length ih =>
      by_cases hopen : '<' ∈ s
      · obtain ⟨text, back, rfl, htext⟩ := List.eq_append_cons_of_mem hopen
        by_cases hclose : '>' ∈ back
        · obtain ⟨inner, rest, rfl, hinner⟩ := List.eq_append_cons_of_mem hclose
          have hless : rest.length < length := by
            rw [← hlen]
            simp only [List.length_append, List.length_cons]
            omega
          obtain ⟨out, hout⟩ := ih rest.length hless rest rfl
          by_cases hshort : inner.length + 2 < 1024
          · exact ⟨_, .tag htext hinner hshort hout⟩
          · exact ⟨_, .long htext hinner (not_lt.mp hshort) hout⟩
        · exact ⟨_, .unclosed htext hclose⟩
      · exact ⟨s, .text hopen⟩

/-! ### A second time -/

/-- Text in front that has no `<` is text of the scan. -/
theorem Stripped.append (h : Stripped s out) (htext : '<' ∉ text) : Stripped (text ++ s) (text ++ out) := by
  have hboth : ∀ {more : Str}, '<' ∉ more → '<' ∉ text ++ more := fun hmore hmem =>
    (List.mem_append.mp hmem).elim htext hmore
  cases h with
  | text hmore => exact .text (hboth hmore)
  | unclosed hmore hrest =>
      rw [← List.append_assoc]
      exact .unclosed (hboth hmore) hrest
  | tag hmore hinner hshort hrest =>
      rw [← List.append_assoc, ← List.append_assoc]
      exact .tag (hboth hmore) hinner hshort hrest
  | long hmore hinner hlong hrest =>
      rw [← List.append_assoc, ← List.append_assoc]
      exact .long (hboth hmore) hinner hlong hrest

theorem Stripped.again (h : Stripped s out) : Stripped out out := by
  induction h with
  | text htext => exact .text htext
  | unclosed htext hrest => exact .unclosed htext hrest
  | tag htext _ _ _ ih => exact ih.append htext
  | long htext hinner hlong _ ih => exact .long htext hinner hlong ih

/-! ### The scan -/

theorem findFrom_singleton {c : Char} (hfront : c ∉ text) (front rest : Str) :
    findFrom (front ++ (text ++ c :: rest)) [c] front.length = some (front ++ text).length := by
  have hleft : Leftmost [c] text rest := leftmost_singleton hfront
  rw [← List.singleton_append, ← List.append_assoc text, findFrom_of_leftmost hleft, List.length_append]

theorem findFrom_singleton_absent {c : Char} (hnot : c ∉ rest) (front : Str) :
    findFrom (front ++ rest) [c] front.length = none :=
  findFrom_of_absent fun hoccurs => hnot ((List.singleton_infix_iff c rest).mp hoccurs)

/-- The end of a span, from the beginning of it. -/
theorem findFrom_close (hinner : '>' ∉ inner) (front rest : Str) :
    findFrom (front ++ '<' :: (inner ++ '>' :: rest)) ['>'] front.length =
      some (front.length + (inner.length + 1)) := by
  have hopen : '>' ∉ '<' :: inner := by simp [hinner]
  have hfind := findFrom_singleton hopen front rest
  rw [List.cons_append] at hfind
  rw [hfind, List.length_append, List.length_cons]

theorem removeTagRound_tag (hinner : '>' ∉ inner) (hshort : inner.length + 2 < 1024) (front rest : Str) :
    removeTagRound (front ++ '<' :: (inner ++ '>' :: rest), some front.length) =
      .inl (front ++ rest, findFrom (front ++ rest) ['<'] front.length) := by
  have hcount : front.length + (inner.length + 1) - front.length + 1 = inner.length + 2 := by omega
  have htake : (front ++ '<' :: (inner ++ '>' :: rest)).take front.length = front := List.take_left
  have hdrop : (front ++ '<' :: (inner ++ '>' :: rest)).drop (front.length + (inner.length + 2)) = rest := by
    rw [← List.drop_drop, List.drop_left]
    simp
  rw [removeTagRound, findFrom_close hinner]
  simp only [hcount, if_pos hshort, htake, hdrop]

theorem removeTagRound_long (hinner : '>' ∉ inner) (hlong : 1024 ≤ inner.length + 2) (front rest : Str) :
    removeTagRound (front ++ '<' :: (inner ++ '>' :: rest), some front.length) =
      .inl (front ++ '<' :: (inner ++ '>' :: rest),
        findFrom (front ++ '<' :: (inner ++ '>' :: rest)) ['<'] (front ++ '<' :: (inner ++ ['>'])).length) := by
  have hcount : front.length + (inner.length + 1) - front.length + 1 = inner.length + 2 := by omega
  have hlen : (front ++ '<' :: (inner ++ ['>'])).length = front.length + (inner.length + 1) + 1 := by
    simp only [List.length_append, List.length_cons, List.length_nil]
    omega
  rw [removeTagRound, findFrom_close hinner]
  simp only [hcount, if_neg (not_lt.mpr hlong), hlen]

/-- The loop from a position on, with `front` in front of it. -/
theorem iterate_removeTagRound (h : Stripped s out) :
    ∀ (front : Str) (rounds : ℕ), s.length < rounds →
      iterate removeTagRound rounds (front ++ s, findFrom (front ++ s) ['<'] front.length) =
        some (front ++ out) := by
  induction h with
  | text htext =>
      intro front rounds hrounds
      obtain ⟨rounds, rfl⟩ := Nat.exists_eq_succ_of_ne_zero (Nat.ne_zero_of_lt hrounds)
      rw [findFrom_singleton_absent htext]
      exact iterate_done rfl
  | @unclosed text rest htext hrest =>
      intro front rounds hrounds
      obtain ⟨rounds, rfl⟩ := Nat.exists_eq_succ_of_ne_zero (Nat.ne_zero_of_lt hrounds)
      have hopen : '>' ∉ '<' :: rest := by simp [hrest]
      rw [findFrom_singleton htext, ← List.append_assoc]
      apply iterate_done
      rw [removeTagRound, findFrom_singleton_absent hopen]
  | @tag text inner rest out htext hinner hshort _ ih =>
      intro front rounds hrounds
      obtain ⟨rounds, rfl⟩ := Nat.exists_eq_succ_of_ne_zero (Nat.ne_zero_of_lt hrounds)
      have hless : rest.length < rounds := by
        simp only [List.length_append, List.length_cons] at hrounds
        omega
      rw [findFrom_singleton htext, ← List.append_assoc,
        iterate_next (removeTagRound_tag hinner hshort (front ++ text) rest), ih (front ++ text) rounds hless,
        List.append_assoc]
  | @long text inner rest out htext hinner hlong _ ih =>
      intro front rounds hrounds
      obtain ⟨rounds, rfl⟩ := Nat.exists_eq_succ_of_ne_zero (Nat.ne_zero_of_lt hrounds)
      have hless : rest.length < rounds := by
        simp only [List.length_append, List.length_cons] at hrounds
        omega
      have hrest := ih (front ++ text ++ '<' :: (inner ++ ['>'])) rounds hless
      have hassoc : ∀ more : Str, front ++ text ++ '<' :: (inner ++ ['>']) ++ more =
          front ++ text ++ '<' :: (inner ++ '>' :: more) := by
        intro more
        simp only [List.append_assoc, List.cons_append, List.nil_append]
      rw [hassoc, hassoc] at hrest
      rw [findFrom_singleton htext, ← List.append_assoc,
        iterate_next (removeTagRound_long hinner hlong (front ++ text) rest), hrest, List.append_assoc]

theorem removeHtmlTags_of_stripped (h : Stripped s out) : removeHtmlTags s = some out :=
  iterate_removeTagRound h [] (s.length + 1) (Nat.lt_succ_self _)

/-- `RemoveHtmlTags` ends, removes short spans only, and has nothing to remove a second time. -/
theorem removeHtmlTags_idempotent (s : Str) :
    ∃ out, removeHtmlTags s = some out ∧ Stripped s out ∧ removeHtmlTags out = some out := by
  obtain ⟨out, hout⟩ := exists_stripped s
  exact ⟨out, removeHtmlTags_of_stripped hout, hout, removeHtmlTags_of_stripped hout.again⟩

end EasyLib.Common.EasyString
