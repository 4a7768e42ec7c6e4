import EasyLib.Proof.ConfigReload
import Mathlib.Data.List.TakeWhile

/-!
# The format of a configuration file

A line is trimmed, split at its first `=` and trimmed on both sides of it. The proofs take a trimmed line
apart at the position the code goes by, which is the position of the `=` as an `int`: for a line that
`Fits` it is the position itself and there is one behind it, and for any other line the code splits too
early, throws or takes the line for one without a value.
-/

namespace EasyLib.Common.Config

open CppString MachineInt

variable {str left right line key value : Str}

/-! ### Trimming -/

theorem dropWhile_of_bare (hbare : ∀ c ∈ str.head?, c ∉ blanks) :
    str.dropWhile (· ∈ blanks) = str := by
  cases str with
  | nil => rfl
  | cons c str => exact List.dropWhile_cons_of_neg (by simpa using hbare c rfl)

theorem trim_eq (hleft : ∀ c ∈ left, c ∈ blanks) (hright : ∀ c ∈ right, c ∈ blanks)
    (hne : str ≠ []) (hbare : Bare str) : trim (left ++ str ++ right) = str := by
  have hhead : ∀ c ∈ (str ++ right).head?, c ∉ blanks := by
    rw [List.head?_append_of_ne_nil str hne]
    exact hbare.1
  have hlast : ∀ c ∈ str.reverse.head?, c ∉ blanks := by
    rw [List.head?_reverse]
    exact hbare.2
  have hblank : ∀ c ∈ right.reverse, decide (c ∈ blanks) = true := fun c hc =>
    decide_eq_true (hright c (List.mem_reverse.mp hc))
  have hfirst : (left ++ str ++ right).dropWhile (· ∈ blanks) = str ++ right := by
    rw [List.append_assoc, List.dropWhile_append_of_pos fun c hc => decide_eq_true (hleft c hc),
      dropWhile_of_bare hhead]
  rw [trim, hfirst, List.reverse_append, List.dropWhile_append_of_pos hblank, dropWhile_of_bare hlast,
    List.reverse_reverse]

theorem trim_append_left (hleft : ∀ c ∈ left, c ∈ blanks) : trim (left ++ str) = trim str := by
  rw [trim, List.dropWhile_append_of_pos fun c hc => decide_eq_true (hleft c hc), trim]

/-- What is trimmed off is blank. -/
theorem trim_split (str : Str) :
    ∃ left right, (∀ c ∈ left, c ∈ blanks) ∧ (∀ c ∈ right, c ∈ blanks) ∧
      str = left ++ trim str ++ right := by
  have hfirst := List.takeWhile_append_dropWhile (p := fun c => decide (c ∈ blanks)) (l := str)
  have hlast := List.takeWhile_append_dropWhile (p := fun c => decide (c ∈ blanks))
    (l := (str.dropWhile (· ∈ blanks)).reverse)
  refine ⟨str.takeWhile (· ∈ blanks),
    ((str.dropWhile (· ∈ blanks)).reverse.takeWhile (· ∈ blanks)).reverse, ?_, ?_, ?_⟩
  · intro c hc
    have hblank := List.mem_takeWhile_imp hc
    exact of_decide_eq_true hblank
  · intro c hc
    have hblank := List.mem_takeWhile_imp (List.mem_reverse.mp hc)
    exact of_decide_eq_true hblank
  · rw [trim, List.append_assoc, ← List.reverse_append, hlast, List.reverse_reverse, hfirst]

theorem head?_dropWhile_not_mem (str : Str) :
    ∀ c ∈ (str.dropWhile (· ∈ blanks)).head?, c ∉ blanks := by
  intro c hc
  have hnot := List.head?_dropWhile_not (fun c => decide (c ∈ blanks)) str
  rw [Option.mem_def.mp hc] at hnot
  exact of_decide_eq_false hnot

theorem trim_bare (str : Str) : Bare (trim str) := by
  constructor
  · intro c hc
    apply head?_dropWhile_not_mem str c
    have hlast := List.takeWhile_append_dropWhile (p := fun c => decide (c ∈ blanks))
      (l := (str.dropWhile (· ∈ blanks)).reverse)
    rw [← List.reverse_reverse (str.dropWhile _), ← hlast, List.reverse_append, List.head?_append]
    exact Option.or_eq_some_iff.mpr (Or.inl hc)
  · intro c hc
    rw [trim, List.getLast?_reverse] at hc
    exact head?_dropWhile_not_mem _ c hc

theorem mem_of_mem_trim {c : Char} (h : c ∈ trim str) : c ∈ str := by
  obtain ⟨left, right, -, -, hsplit⟩ := trim_split str
  rw [hsplit]
  exact List.mem_append_left right (List.mem_append_right left h)

theorem mem_trim_of_mem {c : Char} (h : c ∈ str) (hnot : c ∉ blanks) : c ∈ trim str := by
  obtain ⟨left, right, hleft, hright, hsplit⟩ := trim_split str
  rw [hsplit] at h
  rcases List.mem_append.mp h with hmem | hmem
  · rcases List.mem_append.mp hmem with hmem | hmem
    · exact absurd (hleft c hmem) hnot
    · exact hmem
  · exact absurd (hright c hmem) hnot

theorem trim_ne_nil {c : Char} (h : c ∈ str) (hnot : c ∉ blanks) : trim str ≠ [] :=
  List.ne_nil_of_mem (mem_trim_of_mem h hnot)

/-- Nothing is trimmed off in front of a character that is not blank. -/
theorem head?_trim {c : Char} (h : str.head? = some c) (hnot : c ∉ blanks) :
    (trim str).head? = some c := by
  obtain ⟨left, right, hleft, -, hsplit⟩ := trim_split str
  cases left with
  | nil =>
      have hmem := mem_trim_of_mem (List.mem_of_mem_head? h) hnot
      rw [hsplit, List.nil_append, List.head?_append_of_ne_nil _ (List.ne_nil_of_mem hmem)] at h
      exact h
  | cons d left =>
      rw [hsplit, List.cons_append, List.cons_append, List.head?_cons, Option.some.injEq] at h
      exact absurd (h ▸ hleft d List.mem_cons_self) hnot

theorem count_trim (str : Str) : (trim str).count '=' = str.count '=' := by
  have hzero : ∀ blank : Str, (∀ c ∈ blank, c ∈ blanks) → blank.count '=' = 0 := by
    intro blank hblank
    apply List.count_eq_zero_of_not_mem
    intro hmem
    exact absurd (hblank '=' hmem) (by decide)
  obtain ⟨left, right, hleft, hright, hsplit⟩ := trim_split str
  conv_rhs => rw [hsplit]
  rw [List.count_append, List.count_append, hzero left hleft, hzero right hright]
  omega

/-! ### The position of the `=` -/

theorem toInt32_toNat_le (index : ℕ) : (toInt32 index).toNat ≤ index := by
  rw [toInt32_eq_bmod, Int.bmod_def]
  omega

/-- A position behind another one that is not negative has not wrapped around. -/
theorem toInt32_succ_of_nonneg {index : Int} (hne : toInt32 index ≠ -1)
    (hge : 0 ≤ toInt32 (toInt32 index + 1)) :
    0 ≤ toInt32 index ∧ toInt32 index < 2 ^ 31 - 1 ∧
      toInt32 (toInt32 index + 1) = toInt32 index + 1 := by
  have hlt := toInt32_lt index
  have hmin := neg_le_toInt32 index
  have hlast : toInt32 index ≠ 2 ^ 31 - 1 := by
    intro heq
    rw [heq] at hge
    exact absurd hge (by decide)
  have hnext : toInt32 (toInt32 index + 1) = toInt32 index + 1 :=
    toInt32_of_range (by omega) (by omega)
  rw [hnext] at hge
  exact ⟨by omega, by omega, hnext⟩

/-- **How a line is split.** The code cuts at `pos`, which lies at the `=` or before it. -/
theorem parseLine_eq_assignment (h : parseLine line = .assignment key value) :
    ∃ front back pos, '=' ∉ front ∧ trim line = front ++ '=' :: back ∧
      (trim line).head? ≠ some '#' ∧ 0 < pos ∧ pos < 2 ^ 31 - 1 ∧ pos ≤ front.length ∧
      (pos : Int) = toInt32 front.length ∧ (pos : Int) ≠ toInt32 (front.length + back.length : ℕ) ∧
      key = trim ((trim line).take pos) ∧ value = trim ((trim line).drop (pos + 1)) := by
  simp only [parseLine] at h
  split at h
  · cases h
  · rename_i hused
    push Not at hused
    obtain ⟨-, hhead, hsome, hzero, hlast⟩ := hused
    split at h
    · rename_i key' value' hkey hvalue
      obtain ⟨rfl, rfl⟩ := Line.assignment.inj h
      have hmem : '=' ∈ trim line := by
        by_contra hnot
        exact hsome (find_zero_eq_neg_one hnot)
      obtain ⟨front, back, hsplit, hfront⟩ := List.eq_append_cons_of_mem hmem
      have hfind : find (trim line) '=' 0 = toInt32 front.length := by
        rw [hsplit, find_zero_eq hfront]
      rw [hfind] at hkey hvalue hsome hzero hlast
      obtain ⟨⟨hge, -⟩, hvalue⟩ := substr_eq_some hvalue
      obtain ⟨-, hkey⟩ := substr_eq_some hkey
      obtain ⟨hnonneg, hlt, hnext⟩ := toInt32_succ_of_nonneg hsome hge
      have hpos : (((toInt32 front.length).toNat : ℕ) : Int) = toInt32 front.length :=
        Int.toNat_of_nonneg hnonneg
      have hbehind : (toInt32 front.length + 1).toNat = (toInt32 front.length).toNat + 1 := by omega
      refine ⟨front, back, (toInt32 front.length).toNat, hfront, hsplit, hhead, by omega, by omega,
        toInt32_toNat_le _, hpos, ?_, ?_, ?_⟩
      · rw [hpos]
        intro heq
        apply hlast
        rw [heq, hsplit, List.length_append, List.length_cons]
        congr 1
        omega
      · rw [hkey, if_neg (by omega), Int.toNat_zero, List.drop_zero]
      · rw [hvalue, if_pos (by decide), hnext, hbehind]
    · cases h

theorem not_ignored {front back : Str} (hfront : '=' ∉ front)
    (hsplit : trim line = front ++ '=' :: back) (hhead : (trim line).head? ≠ some '#')
    (hsome : toInt32 front.length ≠ -1) (hzero : toInt32 front.length ≠ 0)
    (hback : ¬ 2 ^ 32 ∣ back.length) :
    ¬ (trim line = [] ∨ (trim line).head? = some '#' ∨ find (trim line) '=' 0 = -1 ∨
      find (trim line) '=' 0 = 0 ∨ find (trim line) '=' 0 = toInt32 (((trim line).length : Int) - 1)) := by
  have hfind : find (trim line) '=' 0 = toInt32 front.length := by rw [hsplit, find_zero_eq hfront]
  rw [hfind]
  rintro (h | h | h | h | h)
  · rw [hsplit] at h
    exact List.append_ne_nil_of_right_ne_nil front (List.cons_ne_nil '=' back) h
  · exact hhead h
  · exact hsome h
  · exact hzero h
  · rw [toInt32_eq_toInt32_iff, hsplit, List.length_append, List.length_cons] at h
    omega

theorem parseLine_of_split {front back : Str} (hfront : '=' ∉ front)
    (hsplit : trim line = front ++ '=' :: back) (hhead : (trim line).head? ≠ some '#')
    (hpos : 0 < front.length) (hlt : front.length < 2 ^ 31 - 1) (hback : ¬ 2 ^ 32 ∣ back.length) :
    parseLine line = .assignment (trim front) (trim back) := by
  have hint : toInt32 front.length = front.length := toInt32_of_lt (by omega)
  have hbehind : toInt32 ((front.length : Int) + 1) = (front.length : Int) + 1 :=
    toInt32_of_range (by omega) (by omega)
  have hused := not_ignored hfront hsplit hhead (by omega) (by omega) hback
  have hfind : find (trim line) '=' 0 = front.length := by rw [hsplit, find_zero_eq hfront, hint]
  have hkey : substr (trim line) 0 front.length = some front := by
    rw [hsplit]
    exact substr_zero_eq
  have hvalue : substr (trim line) ((front.length : Int) + 1) (-1) = some back := by
    have hback : front ++ '=' :: back = (front ++ ['=']) ++ back := by simp
    have hnext : (front.length : Int) + 1 = (front ++ ['=']).length := by simp
    rw [hsplit, hback, hnext]
    exact substr_eq_rest (by decide)
  simp only [parseLine, if_neg hused]
  rw [hfind, hkey, hbehind, hvalue]

/-! ### Lines that are ignored -/

theorem parseLine_of_ignorable (h : Ignorable line) : parseLine line = .ignored := by
  simp only [parseLine]
  apply if_pos
  obtain ⟨-, hblank | ⟨left, comment, hleft, rfl⟩ | hnone | hleading | ⟨key, hkey, htrailing⟩⟩ := h
  · left
    by_contra hne
    obtain ⟨d, hd⟩ := Option.ne_none_iff_exists'.mp (mt List.head?_eq_none_iff.mp hne)
    exact (trim_bare line).1 d hd (hblank d (mem_of_mem_trim (List.mem_of_mem_head? hd)))
  · right; left
    rw [trim_append_left hleft]
    exact head?_trim rfl (by decide)
  · right; right; left
    exact find_zero_eq_neg_one hnone
  · right; right; right; left
    obtain ⟨back, hback⟩ := List.head?_eq_some_iff.mp hleading
    have hfind : find ([] ++ '=' :: back) '=' 0 = toInt32 ([] : Str).length :=
      find_zero_eq List.not_mem_nil
    rw [hback]
    exact hfind
  · right; right; right; right
    rw [htrailing, find_zero_eq hkey, List.length_append, List.length_singleton]
    congr 1
    omega

/-! ### Lines that assign -/

theorem trim_of_renders (h : Storable key value) (hrenders : Renders key value line) :
    ∃ front back, '=' ∉ front ∧ trim line = front ++ '=' :: back ∧ front.head? = key.head? ∧
      trim front = key ∧ trim back = value := by
  obtain ⟨left, afterKey, beforeValue, right, hblank, rfl⟩ := hrenders
  have hmem : ∀ c ∈ left ++ afterKey ++ beforeValue ++ right, c ∈ blanks ∧ c ≠ '=' := by
    intro c hc
    rcases hblank c hc with rfl | rfl <;> decide
  simp only [List.mem_append, or_imp, forall_and] at hmem
  obtain ⟨⟨⟨⟨hleft, hafter⟩, hbefore⟩, hright⟩, ⟨⟨-, hne⟩, -⟩, -⟩ := hmem
  have hhead : (key ++ afterKey).head? = key.head? := List.head?_append_of_ne_nil key h.key_ne_nil
  refine ⟨key ++ afterKey, beforeValue ++ value, ?_, ?_, hhead, ?_, ?_⟩
  · rw [List.mem_append]
    rintro (hin | hin)
    · exact h.key_eq hin
    · exact hne '=' hin rfl
  · apply trim_eq hleft hright (by simp)
    constructor
    · rw [List.head?_append_of_ne_nil _ (by simp [h.key_ne_nil]), hhead]
      exact h.key_bare.1
    · have hgroup : key ++ afterKey ++ '=' :: (beforeValue ++ value) =
          key ++ afterKey ++ '=' :: beforeValue ++ value := by simp
      rw [hgroup, List.getLast?_append_of_ne_nil _ h.value_ne_nil]
      exact h.value_bare.2
  · have htrim : trim ([] ++ key ++ afterKey) = key :=
      trim_eq (by simp) hafter h.key_ne_nil h.key_bare
    rwa [List.nil_append] at htrim
  · have htrim : trim (beforeValue ++ value ++ []) = value :=
      trim_eq hbefore (by simp) h.value_ne_nil h.value_bare
    rwa [List.append_nil] at htrim

theorem fits_iff {front back : Str} (hfront : '=' ∉ front) (hsplit : trim line = front ++ '=' :: back) :
    Fits line ↔ front.length < 2 ^ 31 - 1 ∧ ¬ 2 ^ 32 ∣ back.length := by
  rw [Fits, hsplit, before_append hfront, after_append hfront]

/-- **A line that lists a pair assigns it exactly when it fits.** -/
theorem parseLine_eq_assignment_iff (h : Storable key value) (hrenders : Renders key value line) :
    parseLine line = .assignment key value ↔ Fits line := by
  obtain ⟨front, back, hfront, hsplit, hhead, hkey, hvalue⟩ := trim_of_renders h hrenders
  have hne : front ≠ [] := by
    intro hnil
    rw [hnil] at hhead
    exact h.key_ne_nil (List.head?_eq_none_iff.mp hhead.symm)
  rw [fits_iff hfront hsplit]
  constructor
  · intro hparse
    obtain ⟨front', back', pos, hfront', hsplit', -, -, hlt, hle, hpos, hlast, -, hdrop⟩ :=
      parseLine_eq_assignment hparse
    have hsame := hsplit.symm.trans hsplit'
    obtain rfl : front = front' := by
      have hbefore := congrArg (before '=') hsame
      rwa [before_append hfront, before_append hfront'] at hbefore
    obtain rfl : back = back' := by
      have hafter := congrArg (after '=') hsame
      rwa [after_append hfront, after_append hfront] at hafter
    -- A cut before the `=` leaves the `=` in the value.
    have hcut : pos = front.length := by
      by_contra hlt
      rw [hsplit, List.drop_append_of_le_length (by omega), ← hvalue] at hdrop
      have hcount := congrArg (List.count '=') hdrop
      rw [count_trim, count_trim, List.count_append, List.count_cons_self] at hcount
      omega
    rw [hcut] at hlt hpos hlast
    refine ⟨hlt, fun hdvd => hlast ?_⟩
    rw [hpos, toInt32_eq_toInt32_iff]
    omega
  · rintro ⟨hlt, hback⟩
    have hcomment : (trim line).head? ≠ some '#' := by
      rw [hsplit, List.head?_append_of_ne_nil _ hne, hhead]
      exact h.key_comment
    rw [parseLine_of_split hfront hsplit hcomment (List.length_pos_of_ne_nil hne) hlt hback, hkey, hvalue]

/-- **Whatever a line assigns is storable.** -/
theorem storable_of_parseLine (hline : '\n' ∉ line) (h : parseLine line = .assignment key value) :
    Storable key value := by
  obtain ⟨front, back, pos, hfront, hsplit, hcomment, hpos, -, hle, hint, hlast, rfl, rfl⟩ :=
    parseLine_eq_assignment h
  have hne : trim line ≠ [] := by
    rw [hsplit]
    simp
  have hback : 0 < back.length := by
    by_contra hzero
    apply hlast
    rw [hint, Nat.eq_zero_of_not_pos hzero, Nat.add_zero]
  obtain ⟨c, hc⟩ := Option.ne_none_iff_exists'.mp (mt List.head?_eq_none_iff.mp hne)
  obtain ⟨d, hd⟩ := Option.ne_none_iff_exists'.mp (mt List.getLast?_eq_none_iff.mp hne)
  have hkey : (trim ((trim line).take pos)).head? = some c := by
    apply head?_trim
    · rw [List.head?_take, if_neg (by omega), hc]
    · exact (trim_bare line).1 c hc
  have hvalue : trim ((trim line).drop (pos + 1)) ≠ [] := by
    have hlong : ¬ (trim line).length ≤ pos + 1 := by
      rw [hsplit, List.length_append, List.length_cons]
      omega
    apply trim_ne_nil (c := d)
    · apply List.mem_of_mem_getLast?
      rw [List.getLast?_drop, if_neg hlong]
      exact hd
    · exact (trim_bare line).2 d hd
  refine ⟨?_, hvalue, trim_bare _, trim_bare _, fun hin => hline ?_, fun hin => hline ?_,
    fun hin => hfront ?_, ?_⟩
  · intro hnil
    rw [hnil] at hkey
    cases hkey
  · exact mem_of_mem_trim (List.mem_of_mem_take (mem_of_mem_trim hin))
  · exact mem_of_mem_trim (List.mem_of_mem_drop (mem_of_mem_trim hin))
  · have hin := mem_of_mem_trim hin
    rw [hsplit, List.take_append_of_le_length hle] at hin
    exact List.mem_of_mem_take hin
  · rw [hkey, ← hc]
    exact hcomment

/-! ### Whole files -/

variable {map : StrMap} {lines : List Str} {pairs : List (Str × Str)}

theorem fill_of_lists (hlists : Lists pairs lines) (hstorable : ∀ pair ∈ pairs, Storable pair.1 pair.2)
    (hfits : ∀ pair ∈ pairs, ∀ line ∈ lines, Renders pair.1 pair.2 line → Fits line) :
    fill map lines = (assignAll map pairs, true) := by
  induction hlists generalizing map with
  | nil => rfl
  | @pair key value line pairs lines hrenders _ ih =>
      have hfirst : Storable key value := hstorable (key, value) List.mem_cons_self
      have hline : Fits line :=
        hfits (key, value) List.mem_cons_self line List.mem_cons_self hrenders
      rw [fill, (parseLine_eq_assignment_iff hfirst hrenders).mpr hline]
      apply ih
      · exact fun pair hpair => hstorable pair (List.mem_cons_of_mem _ hpair)
      · intro pair hpair line hline
        exact hfits pair (List.mem_cons_of_mem _ hpair) line (List.mem_cons_of_mem _ hline)
  | other hignorable _ ih =>
      rw [fill, parseLine_of_ignorable hignorable]
      apply ih hstorable
      intro pair hpair line hline
      exact hfits pair hpair line (List.mem_cons_of_mem _ hline)

theorem fill_storable (hmap : ∀ key value, map key = some value → Storable key value)
    (hlines : ∀ line ∈ lines, '\n' ∉ line) (h : (fill map lines).1 key = some value) :
    Storable key value := by
  induction lines generalizing map with
  | nil => exact hmap key value h
  | cons line lines ih =>
      obtain ⟨hline, hlines⟩ := List.forall_mem_cons.mp hlines
      rw [fill] at h
      cases hparse : parseLine line with
      | ignored =>
          rw [hparse] at h
          exact ih hmap hlines h
      | assignment key' value' =>
          rw [hparse] at h
          refine ih (fun other value hother => ?_) hlines h
          by_cases heq : other = key'
          · rw [heq, Function.update_self, Option.some.injEq] at hother
            rw [heq, ← hother]
            exact storable_of_parseLine hline hparse
          · rw [Function.update_of_ne heq] at hother
            exact hmap other value hother
      | outOfRange =>
          rw [hparse] at h
          exact hmap key value h

theorem not_mem_of_renders (h : Storable key value) (hrenders : Renders key value line) :
    '\n' ∉ line := by
  obtain ⟨left, afterKey, beforeValue, right, hblank, rfl⟩ := hrenders
  have hnot : '\n' ∉ left ++ afterKey ++ beforeValue ++ right := by
    intro hmem
    rcases hblank _ hmem with heq | heq <;> cases heq
  simp only [List.mem_append, not_or] at hnot
  simp [hnot, h.key_line, h.value_line]

theorem not_mem_of_lists (hlists : Lists pairs lines)
    (hstorable : ∀ pair ∈ pairs, Storable pair.1 pair.2) : ∀ line ∈ lines, '\n' ∉ line := by
  induction hlists with
  | nil => exact List.forall_mem_nil _
  | pair hrenders _ ih =>
      obtain ⟨hfirst, hstorable⟩ := List.forall_mem_cons.mp hstorable
      exact List.forall_mem_cons.mpr ⟨not_mem_of_renders hfirst hrenders, ih hstorable⟩
  | other hignorable _ ih => exact List.forall_mem_cons.mpr ⟨hignorable.1, ih hstorable⟩

theorem parse_intercalate (hlines : ∀ line ∈ lines, '\n' ∉ line) :
    parse (['\n'].intercalate lines) = fill (fun _ => none) lines := by
  by_cases hne : lines = []
  · rw [hne]
    rfl
  · rw [parse, List.splitOn_intercalate _ hlines hne]

theorem init_eq_true {config : Config} {confCheck : StrMap → Bool} {content : Str}
    (h : (config.init confCheck (some content)).2 = some true) : (parse content).2 = true := by
  by_contra hnot
  rw [init_of_thrown (Bool.eq_false_of_not_eq_true hnot)] at h
  cases h

/-- What a successful `init` has loaded. -/
theorem getConfStr_init {config : Config} {confCheck : StrMap → Bool} {content : Str}
    (h : (config.init confCheck (some content)).2 = some true) (key : Str) :
    (config.init confCheck (some content)).1.getConfStr key = (parse content).1 key := by
  rw [getConfStr_eq, active_init, if_pos h]
  rfl

theorem init_lists (config : Config) (confCheck : StrMap → Bool) (hlists : Lists pairs lines)
    (hstorable : ∀ pair ∈ pairs, Storable pair.1 pair.2)
    (hfits : ∀ pair ∈ pairs, ∀ line ∈ lines, Renders pair.1 pair.2 line → Fits line)
    (hcheck : confCheck (assignAll (fun _ => none) pairs)) :
    (config.init confCheck (some (['\n'].intercalate lines))).2 = some true ∧
      ∀ key, (config.init confCheck (some (['\n'].intercalate lines))).1.getConfStr key =
        assignAll (fun _ => none) pairs key := by
  have hparse : parse (['\n'].intercalate lines) = (assignAll (fun _ => none) pairs, true) := by
    rw [parse_intercalate (not_mem_of_lists hlists hstorable), fill_of_lists hlists hstorable hfits]
  have htrue : (config.init confCheck (some (['\n'].intercalate lines))).2 = some true := by
    rw [init_of_accepted]
    · rw [hparse]
    · rw [hparse]
      exact hcheck
  refine ⟨htrue, fun key => ?_⟩
  rw [getConfStr_init htrue, hparse]

theorem fits_of_init_line {config : Config} {confCheck : StrMap → Bool} (h : Storable key value)
    (hrenders : Renders key value line) (htrue : (config.init confCheck (some line)).2 = some true)
    (hvalue : (config.init confCheck (some line)).1.getConfStr key = some value) : Fits line := by
  apply (parseLine_eq_assignment_iff h hrenders).mp
  have hdone := init_eq_true htrue
  have hline : parse line = fill (fun _ => none) [line] := by
    have hlines : ∀ other ∈ [line], '\n' ∉ other := by simp [not_mem_of_renders h hrenders]
    rw [← parse_intercalate hlines, List.intercalate_singleton]
  rw [getConfStr_init htrue, hline, fill] at hvalue
  rw [hline, fill] at hdone
  cases hparse : parseLine line with
  | ignored =>
      rw [hparse] at hvalue
      cases hvalue
  | assignment key' value' =>
      simp only [hparse, fill] at hvalue
      by_cases heq : key = key'
      · rw [heq, Function.update_self, Option.some.injEq] at hvalue
        rw [heq, hvalue]
      · rw [Function.update_of_ne heq] at hvalue
        cases hvalue
  | outOfRange =>
      rw [hparse] at hdone
      cases hdone

/-- **A file gives back the pairs it lists**, if the lines of these pairs fit, and a single pair comes
back only from a line that does. Whatever a file has in it, all that is loaded from it is storable. -/
theorem config_format (config : Config) (confCheck : StrMap → Bool) :
    (∀ (pairs : List (Str × Str)) (lines : List Str),
      (∀ pair ∈ pairs, Storable pair.1 pair.2) → Lists pairs lines →
      (∀ pair ∈ pairs, ∀ line ∈ lines, Renders pair.1 pair.2 line → Fits line) →
      confCheck (assignAll (fun _ => none) pairs) →
      (config.init confCheck (some (['\n'].intercalate lines))).2 = some true ∧
        ∀ key, (config.init confCheck (some (['\n'].intercalate lines))).1.getConfStr key =
          assignAll (fun _ => none) pairs key) ∧
    (∀ key value line : Str, Storable key value → Renders key value line →
      ((config.init (fun _ => true) (some line)).2 = some true ∧
        (∀ other, (config.init (fun _ => true) (some line)).1.getConfStr other =
          assignAll (fun _ => none) [(key, value)] other) ↔ Fits line)) ∧
    ∀ content key value : Str, (config.init confCheck (some content)).2 = some true →
      (config.init confCheck (some content)).1.getConfStr key = some value → Storable key value := by
  refine ⟨?_, ?_, ?_⟩
  · intro pairs lines hstorable hlists hfits hcheck
    exact init_lists config confCheck hlists hstorable hfits hcheck
  · intro key value line h hrenders
    constructor
    · rintro ⟨htrue, hall⟩
      apply fits_of_init_line h hrenders htrue
      rw [hall key, assignAll, List.foldl_cons, List.foldl_nil, Function.update_self]
    · intro hfits
      have hlists : Lists [(key, value)] [line] := .pair hrenders .nil
      have hinit := init_lists config (fun _ => true) hlists (by simpa using h)
        (by simpa using fun _ => hfits) rfl
      rwa [List.intercalate_singleton] at hinit
  · intro content key value htrue hvalue
    rw [getConfStr_init htrue] at hvalue
    refine fill_storable ?_ (fun line hline => not_mem_of_mem_splitOn hline) hvalue
    intro key value hnone
    cases hnone

theorem bare_singleton {c : Char} (h : c ∉ blanks) : Bare [c] := by
  constructor
  · rintro _ ⟨⟩
    exact h
  · rintro _ ⟨⟩
    exact h

theorem storable_ab : Storable ['a'] ['b'] where
  key_ne_nil := List.cons_ne_nil _ _
  value_ne_nil := List.cons_ne_nil _ _
  key_bare := bare_singleton (by decide)
  value_bare := bare_singleton (by decide)
  key_line := by decide
  value_line := by decide
  key_eq := by decide
  key_comment := by decide

/-- A comment, and a pair with blanks around it. -/
theorem config_format_pair :
    (new.init (fun _ => true) (some "# c=d\n a =\tb ".toList)).2 = some true ∧
      ∀ key, (new.init (fun _ => true) (some "# c=d\n a =\tb ".toList)).1.getConfStr key =
        assignAll (fun _ => none) [("a".toList, "b".toList)] key := by
  have hcomment : Ignorable "# c=d".toList :=
    ⟨by decide, .inr (.inl ⟨[], " c=d".toList, by simp, rfl⟩)⟩
  have hrenders : Renders ['a'] ['b'] " a =\tb ".toList :=
    ⟨[' '], [' '], ['\t'], [' '], by simp, rfl⟩
  apply (config_format new fun _ => true).1 [(['a'], ['b'])] ["# c=d".toList, " a =\tb ".toList]
  · simpa using storable_ab
  · exact .other hcomment (.pair hrenders .nil)
  · intro _ _ line hline _
    rcases List.mem_pair.mp hline with rfl | rfl <;> exact ⟨by decide, by decide⟩
  · rfl

/-! ### A line that is too long -/

theorem storable_replicate {n : ℕ} (hpos : 0 < n) : Storable (List.replicate n 'a') ['b'] := by
  have hne : n ≠ 0 := by omega
  constructor
  · simp [hne]
  · exact List.cons_ne_nil _ _
  · simp [Bare, List.head?_replicate, List.getLast?_replicate, hne, blanks]
  · exact bare_singleton (by decide)
  · simp
  · decide
  · simp
  · simp [List.head?_replicate, hne]

/-- The position behind the `=` is negative as an `int`. -/
theorem parseLine_of_ge {front back : Str} (hfront : '=' ∉ front)
    (hsplit : trim line = front ++ '=' :: back) (hhead : (trim line).head? ≠ some '#')
    (hge : 2 ^ 31 - 1 ≤ front.length) (hlt : front.length < 2 ^ 32 - 1)
    (hback : ¬ 2 ^ 32 ∣ back.length) : parseLine line = .outOfRange := by
  have hmod := toInt32_emod front.length
  have hused := not_ignored hfront hsplit hhead (by omega) (by omega) hback
  have hfind : find (trim line) '=' 0 = toInt32 front.length := by rw [hsplit, find_zero_eq hfront]
  have hbehind : toInt32 (toInt32 front.length + 1) = ((front.length + 1 : ℕ) : Int) - 2 ^ 32 := by
    rw [toInt32_succ, ← Nat.cast_succ]
    exact toInt32_of_ge (by omega) (by omega)
  have hvalue : substr (trim line) (((front.length + 1 : ℕ) : Int) - 2 ^ 32) (-1) = none :=
    if_neg (by omega)
  simp only [parseLine, if_neg hused]
  rw [hfind, hbehind, hvalue]
  cases substr (trim line) 0 (toInt32 front.length) <;> rfl

theorem parseLine_replicate {n : ℕ} (hge : 2 ^ 31 - 1 ≤ n) (hlt : n < 2 ^ 32 - 1) :
    parseLine (List.replicate n 'a' ++ ['=', 'b']) = .outOfRange := by
  have hne : n ≠ 0 := by omega
  have hhead : (List.replicate n 'a' ++ ['=', 'b']).head? = some 'a' := by
    simp [List.head?_append, List.head?_replicate, hne]
  have hbare : Bare (List.replicate n 'a' ++ ['=', 'b']) := by
    constructor
    · rw [hhead]
      rintro _ ⟨⟩
      decide
    · rw [List.getLast?_append_of_ne_nil _ (List.cons_ne_nil _ _)]
      rintro _ ⟨⟩
      decide
  have htrim : trim (List.replicate n 'a' ++ ['=', 'b']) = List.replicate n 'a' ++ ['=', 'b'] := by
    have hsame : trim ([] ++ (List.replicate n 'a' ++ ['=', 'b']) ++ []) = _ :=
      trim_eq (by simp) (by simp) (by simp) hbare
    rwa [List.nil_append, List.append_nil] at hsame
  apply parseLine_of_ge (storable_replicate (Nat.pos_of_ne_zero hne)).key_eq htrim
  · rw [htrim, hhead]
    decide
  · rwa [List.length_replicate]
  · rwa [List.length_replicate]
  · decide

/-- A key of `2 ^ 31` characters makes `init` throw. -/
theorem config_format_throws :
    ∃ key value line, Storable key value ∧ Renders key value line ∧
      (new.init (fun _ => true) (some line)).2 = none := by
  obtain ⟨n, hn⟩ : ∃ n : ℕ, n = 2 ^ 31 := ⟨_, rfl⟩
  have hstorable : Storable (List.replicate n 'a') ['b'] := storable_replicate (by omega)
  have hrenders : Renders (List.replicate n 'a') ['b'] (List.replicate n 'a' ++ ['=', 'b']) :=
    ⟨[], [], [], [], by simp, by simp⟩
  refine ⟨_, _, _, hstorable, hrenders, ?_⟩
  rw [init_of_thrown]
  have hlines : ∀ line ∈ [List.replicate n 'a' ++ ['=', 'b']], '\n' ∉ line := by
    simp
  have hparse := parse_intercalate hlines
  rw [List.intercalate_singleton, fill, parseLine_replicate (by omega) (by omega)] at hparse
  rw [hparse]

end EasyLib.Common.Config
