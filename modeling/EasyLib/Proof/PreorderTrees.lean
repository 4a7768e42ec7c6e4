import EasyLib.Leecode.VerifyPreorder
import EasyLib.Lib.ForLoop
import EasyLib.Proof.Tokenizing

/-!
# Serializations of trees

The depth of the stack is the number of subtrees that are still to come beside the one that is being read. So
from a depth `d` on, the tokens are those of `d + 1` trees exactly if the depth is 0 in front of the last
token, which is then a `#`. The code reads the last token apart, and all of them up to the index `2 ^ 31 - 1`.
With more tokens than that it answers by the depth it has got to.
-/

namespace EasyLib.Leecode.Solution

open Common CppString MachineInt Loop Tokens
open Common.EasyString (findFrom findFrom_of_leftmost findFrom_of_absent substr_piece)

variable {s token : Str} {tokens pieces front middle rest vec parent : List Str} {rounds depth : ℕ}

/-! ### Trees -/

/-- What a node may be written as. -/
def Label := { label : Str // label ≠ ['#'] ∧ ',' ∉ label }

inductive Tree where
  | absent
  | node (label : Label) (left right : Tree)

/-- The tokens of the preorder traversal. -/
def Tree.preorder : Tree → List Str
  | .absent => [['#']]
  | .node label left right => label.val :: (left.preorder ++ right.preorder)

def Tree.serialize (tree : Tree) : Str := [','].intercalate tree.preorder

theorem Tree.comma_notMem (tree : Tree) : ∀ token ∈ tree.preorder, ',' ∉ token := by
  induction tree with
  | absent => exact List.forall_mem_singleton.mpr (by decide)
  | node label left right ihleft ihright =>
      refine List.forall_mem_cons.mpr ⟨label.property.2, fun token htoken => ?_⟩
      rcases List.mem_append.mp htoken with hmem | hmem
      · exact ihleft token hmem
      · exact ihright token hmem

theorem Tree.preorder_ne_nil (tree : Tree) : tree.preorder ≠ [] := by
  cases tree <;> exact List.cons_ne_nil _ _

/-- The tokens of a number of trees, one behind the other. -/
def Forest (count : ℕ) (tokens : List Str) : Prop :=
  ∃ trees : List Tree, trees.length = count ∧ trees.flatMap Tree.preorder = tokens

theorem forest_one_iff : Forest 1 tokens ↔ ∃ tree : Tree, tree.preorder = tokens := by
  constructor
  · rintro ⟨trees, hlen, rfl⟩
    obtain ⟨tree, rfl⟩ := List.length_eq_one_iff.mp hlen
    exact ⟨tree, by rw [List.flatMap_singleton]⟩
  · rintro ⟨tree, rfl⟩
    exact ⟨[tree], rfl, List.flatMap_singleton _ _⟩

theorem forest_zero_iff : Forest 0 tokens ↔ tokens = [] := by
  constructor
  · rintro ⟨trees, hlen, rfl⟩
    rw [List.length_eq_zero_iff.mp hlen, List.flatMap_nil]
  · rintro rfl
    exact ⟨[], rfl, rfl⟩

theorem not_forest_nil (count : ℕ) : ¬ Forest (count + 1) [] := by
  rintro ⟨trees, hlen, hnil⟩
  obtain ⟨tree, trees, rfl⟩ := List.exists_cons_of_length_eq_add_one hlen
  rw [List.flatMap_cons, List.append_eq_nil_iff] at hnil
  exact tree.preorder_ne_nil hnil.1

/-- A `#` is a tree of its own. -/
theorem forest_absent_iff (count : ℕ) : Forest (count + 1) (['#'] :: tokens) ↔ Forest count tokens := by
  constructor
  · rintro ⟨trees, hlen, heq⟩
    obtain ⟨tree, trees, rfl⟩ := List.exists_cons_of_length_eq_add_one hlen
    cases tree with
    | absent => exact ⟨trees, Nat.succ.inj hlen, (List.cons.inj heq).2⟩
    | node label left right => exact absurd (List.cons.inj heq).1 label.property.1
  · rintro ⟨trees, hlen, rfl⟩
    exact ⟨.absent :: trees, congrArg Nat.succ hlen, rfl⟩

/-- A label is followed by one tree more. -/
theorem forest_node_iff (count : ℕ) (hhash : token ≠ ['#']) (hcomma : ',' ∉ token) :
    Forest (count + 1) (token :: tokens) ↔ Forest (count + 2) tokens := by
  constructor
  · rintro ⟨trees, hlen, heq⟩
    obtain ⟨tree, trees, rfl⟩ := List.exists_cons_of_length_eq_add_one hlen
    cases tree with
    | absent => exact absurd (List.cons.inj heq).1.symm hhash
    | node label left right =>
        refine ⟨left :: right :: trees, congrArg Nat.succ hlen, ?_⟩
        rw [List.flatMap_cons, List.flatMap_cons, ← List.append_assoc]
        exact (List.cons.inj heq).2
  · rintro ⟨trees, hlen, rfl⟩
    obtain ⟨left, trees, rfl⟩ := List.exists_cons_of_length_eq_add_one hlen
    obtain ⟨right, trees, rfl⟩ := List.exists_cons_of_length_eq_add_one (Nat.succ.inj hlen)
    refine ⟨.node ⟨token, hhash, hcomma⟩ left right :: trees, Nat.succ.inj hlen, ?_⟩
    rw [List.flatMap_cons, List.flatMap_cons, List.flatMap_cons, ← List.append_assoc]
    rfl

/-! ### The depth of the stack -/

/-- The depth behind some tokens, none of them the last one. -/
def depthAfter : ℕ → List Str → Option ℕ
  | depth, [] => some depth
  | depth, token :: tokens =>
      if token ≠ ['#'] then depthAfter (depth + 1) tokens
      else
        match depth with
        | 0 => none
        | depth + 1 => depthAfter depth tokens

theorem depthAfter_node (hhash : token ≠ ['#']) (depth : ℕ) (tokens : List Str) :
    depthAfter depth (token :: tokens) = depthAfter (depth + 1) tokens := if_pos hhash

theorem depthAfter_zero (tokens : List Str) : depthAfter 0 (['#'] :: tokens) = none := rfl

theorem depthAfter_absent (depth : ℕ) (tokens : List Str) :
    depthAfter (depth + 1) (['#'] :: tokens) = depthAfter depth tokens := rfl

/-- The depth is 0 in front of the last token, a `#`. -/
def Balanced (depth : ℕ) (tokens : List Str) : Prop :=
  ∃ front, tokens = front ++ [['#']] ∧ depthAfter depth front = some 0

theorem balanced_node_iff (hhash : token ≠ ['#']) :
    Balanced depth (token :: tokens) ↔ Balanced (depth + 1) tokens := by
  constructor
  · rintro ⟨front, heq, hdepth⟩
    cases front with
    | nil => exact absurd (List.cons.inj heq).1 hhash
    | cons first front =>
        obtain ⟨rfl, htokens⟩ := List.cons.inj heq
        rw [depthAfter_node hhash] at hdepth
        exact ⟨front, htokens, hdepth⟩
  · rintro ⟨front, rfl, hdepth⟩
    exact ⟨token :: front, rfl, by rw [depthAfter_node hhash, hdepth]⟩

theorem balanced_zero_iff : Balanced 0 (['#'] :: tokens) ↔ tokens = [] := by
  constructor
  · rintro ⟨front, heq, hdepth⟩
    cases front with
    | nil => exact (List.cons.inj heq).2
    | cons first front =>
        obtain ⟨rfl, -⟩ := List.cons.inj heq
        cases hdepth
  · rintro rfl
    exact ⟨[], rfl, rfl⟩

theorem balanced_succ_iff : Balanced (depth + 1) (['#'] :: tokens) ↔ Balanced depth tokens := by
  constructor
  · rintro ⟨front, heq, hdepth⟩
    cases front with
    | nil => cases hdepth
    | cons first front =>
        obtain ⟨rfl, htokens⟩ := List.cons.inj heq
        exact ⟨front, htokens, hdepth⟩
  · rintro ⟨front, rfl, hdepth⟩
    exact ⟨['#'] :: front, rfl, hdepth⟩

theorem depthAfter_append (depth : ℕ) (front rest : List Str) :
    depthAfter depth (front ++ rest) = (depthAfter depth front).bind fun depth => depthAfter depth rest := by
  induction front generalizing depth with
  | nil => rfl
  | cons token front ih =>
      by_cases hhash : token = ['#']
      · subst hhash
        cases depth with
        | zero => rfl
        | succ depth => rw [List.cons_append, depthAfter_absent, depthAfter_absent, ih]
      · rw [List.cons_append, depthAfter_node hhash, depthAfter_node hhash, ih]

theorem balanced_append_iff (hrest : rest ≠ []) :
    Balanced depth (front ++ rest) ↔ ∃ left, depthAfter depth front = some left ∧ Balanced left rest := by
  obtain ⟨middle, last, rfl⟩ := (List.eq_nil_or_concat' rest).resolve_left hrest
  rw [← List.append_assoc]
  constructor
  · rintro ⟨tokens, heq, hdepth⟩
    obtain ⟨rfl, hlast⟩ := List.append_inj' heq rfl
    rw [depthAfter_append, Option.bind_eq_some_iff] at hdepth
    obtain ⟨left, hfront, hmiddle⟩ := hdepth
    exact ⟨left, hfront, middle, by rw [hlast], hmiddle⟩
  · rintro ⟨left, hfront, tokens, heq, hdepth⟩
    obtain ⟨rfl, hlast⟩ := List.append_inj' heq rfl
    refine ⟨front ++ middle, by rw [hlast], ?_⟩
    rw [depthAfter_append, hfront]
    exact hdepth

/-- The tokens of trees are those that are balanced. -/
theorem forest_iff_balanced (hcomma : ∀ token ∈ tokens, ',' ∉ token) (depth : ℕ) :
    Forest (depth + 1) tokens ↔ Balanced depth tokens := by
  induction tokens generalizing depth with
  | nil =>
      refine iff_of_false (not_forest_nil depth) ?_
      rintro ⟨front, heq, -⟩
      exact absurd heq.symm (by simp)
  | cons token tokens ih =>
      obtain ⟨htoken, hrest⟩ := List.forall_mem_cons.mp hcomma
      by_cases hhash : token = ['#']
      · subst hhash
        rw [forest_absent_iff]
        cases depth with
        | zero => rw [forest_zero_iff, balanced_zero_iff]
        | succ depth => rw [ih hrest, balanced_succ_iff]
      · rw [forest_node_iff depth hhash htoken, ih hrest, balanced_node_iff hhash]

/-! ### The loops -/

theorem iterate_splitRound (hcut : Cut [','] s pieces) :
    ∀ (front : Str) (vec : List Str) (rounds : ℕ), pieces.length ≤ rounds →
      iterate (splitRound (front ++ s)) rounds (vec, front.length, findFrom (front ++ s) [','] front.length) =
        some (some (vec ++ pieces)) := by
  induction hcut with
  | last hnot =>
      intro front vec rounds hrounds
      obtain ⟨rounds, rfl⟩ := Nat.exists_eq_succ_of_ne_zero (Nat.ne_of_gt hrounds)
      apply iterate_done
      rw [findFrom_of_absent hnot, splitRound, substr_eq_rest (by decide), Option.map_some]
  | @next piece s pieces hpiece _ ih =>
      intro front vec rounds hrounds
      obtain ⟨rounds, rfl⟩ := Nat.exists_eq_succ_of_ne_zero (Nat.ne_zero_of_lt hrounds)
      have hrest := ih (front ++ piece ++ [',']) (vec ++ [piece]) rounds (Nat.le_of_succ_le_succ hrounds)
      have hsub := substr_piece front piece ([','] ++ s)
      rw [findFrom_of_leftmost hpiece]
      simp only [List.append_assoc, List.length_append, List.length_singleton] at hrest hsub ⊢
      refine (iterate_next ?_).trans hrest
      rw [splitRound, hsub, attempt, Nat.add_assoc]

theorem toInt32_counter (front : List Str) (token : Str) :
    toInt32 (toInt32 front.length + 1) = toInt32 (front ++ [token]).length := by
  rw [toInt32_succ, List.length_append, List.length_singleton, Nat.cast_succ]

section Rounds

variable (hfront : front.length < 2 ^ 31)

include hfront

theorem checkRound_node (hhash : token ≠ ['#']) :
    checkRound (front ++ token :: rest) (parent, toInt32 front.length) =
      .inl (token :: parent, toInt32 (front ++ [token]).length) := by
  rw [checkRound, getElem?_counter hfront]
  simp only [if_pos hhash, toInt32_counter front token]

theorem counter_ne_last (hrest : rest ≠ []) :
    toUInt64 (toInt32 front.length) ≠ (front ++ token :: rest).length - 1 := by
  have hpos := List.length_pos_iff.mpr hrest
  rw [toUInt64_toInt32 hfront, List.length_append, List.length_cons]
  omega

theorem checkRound_pop (hrest : rest ≠ []) (top : Str) :
    checkRound (front ++ ['#'] :: rest) (top :: parent, toInt32 front.length) =
      .inl (parent, toInt32 (front ++ [['#']]).length) := by
  have hlast : toUInt64 (toInt32 front.length) ≠ (front ++ ['#'] :: rest).length - 1 :=
    counter_ne_last hfront hrest
  have hpop : toUInt64 (toInt32 front.length) ≠ (front ++ ['#'] :: rest).length - 1 ∧
      (top :: parent).length > 0 := ⟨hlast, Nat.succ_pos _⟩
  rw [checkRound, getElem?_counter hfront]
  simp only [if_pos hpop, toInt32_counter front ['#'], List.tail_cons]
  exact if_neg (not_not.mpr rfl)

theorem checkRound_refused (hrest : rest ≠ []) :
    checkRound (front ++ ['#'] :: rest) ([], toInt32 front.length) = .inr false := by
  have hlast : toUInt64 (toInt32 front.length) ≠ (front ++ ['#'] :: rest).length - 1 :=
    counter_ne_last hfront hrest
  have hpop : ¬ (toUInt64 (toInt32 front.length) ≠ (front ++ ['#'] :: rest).length - 1 ∧
      ([] : List Str).length > 0) := fun hpop => absurd hpop.2 (by decide)
  rw [checkRound, getElem?_counter hfront]
  simp only [if_neg hpop, if_pos hlast]
  exact if_neg (not_not.mpr rfl)

theorem checkRound_last :
    checkRound (front ++ [['#']]) (parent, toInt32 front.length) =
      .inl (parent, toInt32 (front ++ [['#']]).length) := by
  have hlast : toUInt64 (toInt32 front.length) = (front ++ [['#']]).length - 1 := by
    rw [toUInt64_toInt32 hfront, List.length_append, List.length_singleton, Nat.add_sub_cancel]
  rw [checkRound, getElem?_counter hfront]
  simp only [hlast, ne_eq, not_true, if_false, false_and, toInt32_counter front ['#']]

end Rounds

theorem checkRound_done (hlen : vec.length ≤ 2 ^ 31) :
    checkRound vec (parent, toInt32 vec.length) = .inr (decide (parent.length = 0)) := by
  have hnone : vec[toUInt64 (toInt32 vec.length)]? = none := by
    apply List.getElem?_eq_none
    rcases Nat.lt_or_eq_of_le hlen with hlt | heq
    · rw [toUInt64_toInt32 hlt]
    · rw [heq, toUInt64_toInt32_wrapped]
      decide
  rw [checkRound, hnone]

/-- The rounds for tokens that are not the last one follow the depth. -/
theorem iterate_middle (middle : List Str) (hrest : rest ≠ []) (rounds : ℕ) :
    ∀ (front parent : List Str), front.length + middle.length ≤ 2 ^ 31 →
      (∀ depth, depthAfter parent.length middle = some depth →
        ∃ parent' : List Str, parent'.length = depth ∧
          iterate (checkRound (front ++ (middle ++ rest))) (middle.length + rounds)
              (parent, toInt32 front.length) =
            iterate (checkRound (front ++ (middle ++ rest))) rounds
              (parent', toInt32 (front ++ middle).length)) ∧
      (depthAfter parent.length middle = none →
        iterate (checkRound (front ++ (middle ++ rest))) (middle.length + rounds)
          (parent, toInt32 front.length) = some false) := by
  induction middle with
  | nil =>
      intro front parent _
      refine ⟨fun depth hdepth => ⟨parent, Option.some.inj hdepth, ?_⟩, fun hdepth => by cases hdepth⟩
      rw [List.length_nil, Nat.zero_add, List.append_nil]
  | cons token middle ih =>
      intro front parent hlen
      rw [List.length_cons] at hlen
      have hfront : front.length < 2 ^ 31 := by omega
      have hlen' : (front ++ [token]).length + middle.length ≤ 2 ^ 31 := by
        rw [List.length_append, List.length_singleton]
        omega
      have hne : middle ++ rest ≠ [] := fun hnil => hrest (List.append_eq_nil_iff.mp hnil).2
      have hvec : front ++ token :: (middle ++ rest) = front ++ [token] ++ (middle ++ rest) := by
        rw [List.append_assoc, List.singleton_append]
      have hrounds : (token :: middle).length + rounds = middle.length + rounds + 1 := by
        rw [List.length_cons]
        omega
      have hpos : front ++ token :: middle = front ++ [token] ++ middle := by
        rw [List.append_assoc, List.singleton_append]
      rw [hrounds, hpos, List.cons_append]
      by_cases hhash : token = ['#']
      · subst hhash
        cases parent with
        | nil =>
            rw [List.length_nil, depthAfter_zero]
            refine ⟨fun depth hdepth => ?_, fun _ => iterate_done (checkRound_refused hfront hne)⟩
            cases hdepth
        | cons top parent =>
            obtain ⟨hsome, hnone⟩ := ih (front ++ [['#']]) parent hlen'
            rw [← hvec] at hsome hnone
            rw [List.length_cons, depthAfter_absent, iterate_next (checkRound_pop hfront hne top)]
            exact ⟨hsome, hnone⟩
      · obtain ⟨hsome, hnone⟩ := ih (front ++ [token]) (token :: parent) hlen'
        rw [← hvec] at hsome hnone
        rw [depthAfter_node hhash, iterate_next (checkRound_node hfront hhash)]
        exact ⟨hsome, hnone⟩

theorem balanced_concat_iff {last : Str} :
    Balanced 0 (tokens ++ [last]) ↔ last = ['#'] ∧ depthAfter 0 tokens = some 0 := by
  constructor
  · rintro ⟨front, heq, hdepth⟩
    obtain ⟨rfl, hlast⟩ := List.append_inj' heq rfl
    exact ⟨List.singleton_inj.mp hlast, hdepth⟩
  · rintro ⟨rfl, hdepth⟩
    exact ⟨tokens, rfl, hdepth⟩

/-- The loop over the tokens, as long as its counter reaches all of them. -/
theorem iterate_checkRound (hne : tokens ≠ []) (hlen : tokens.length ≤ 2 ^ 31) :
    ∃ valid, iterate (checkRound tokens) (tokens.length + 1) ([], 0) = some valid ∧
      (valid = true ↔ Balanced 0 tokens) := by
  obtain ⟨middle, last, rfl⟩ := (List.eq_nil_or_concat' tokens).resolve_left hne
  rw [List.length_append, List.length_singleton] at hlen
  obtain ⟨hsome, hnone⟩ := iterate_middle middle (List.cons_ne_nil last []) 2 [] []
    (by rw [List.length_nil]; omega)
  have hmiddle : middle.length < 2 ^ 31 := by omega
  have hdone : (middle ++ [last]).length ≤ 2 ^ 31 := by
    rwa [List.length_append, List.length_singleton]
  rw [List.length_append, List.length_singleton, balanced_concat_iff]
  simp only [List.nil_append, List.length_nil] at hsome hnone
  cases hdepth : depthAfter 0 middle with
  | none =>
      refine ⟨false, hnone hdepth, ?_⟩
      simp
  | some depth =>
      obtain ⟨parent, rfl, hloop⟩ := hsome depth hdepth
      by_cases hhash : last = ['#']
      · subst hhash
        refine ⟨decide (parent.length = 0), ?_, by simp⟩
        refine hloop.trans ?_
        rw [iterate_next (checkRound_last hmiddle), iterate_done (checkRound_done hdone)]
      · refine ⟨false, ?_, by simp [hhash]⟩
        refine hloop.trans ?_
        rw [iterate_next (checkRound_node hmiddle hhash), iterate_done (checkRound_done hdone)]
        rfl

section Wrapped

variable (hrest : rest ≠ []) (hfront : front.length = 2 ^ 31)

include hrest hfront

/-- The loop over more tokens than its counter reaches: those behind them are not looked at. -/
theorem iterate_checkRound_wrapped (hlen : (front ++ rest).length ≤ 2 ^ 63)
    (hdepth : depthAfter 0 front = some depth) :
    iterate (checkRound (front ++ rest)) ((front ++ rest).length + 1) ([], 0) =
      some (decide (depth = 0)) := by
  obtain ⟨hsome, -⟩ := iterate_middle front hrest (rest.length + 1) [] [] (by simp [hfront])
  obtain ⟨parent, rfl, hloop⟩ := hsome depth hdepth
  have hnone : (front ++ rest)[toUInt64 (toInt32 front.length)]? = none := by
    apply List.getElem?_eq_none
    rw [hfront, toUInt64_toInt32_wrapped]
    omega
  rw [List.length_append, Nat.add_assoc]
  refine hloop.trans (iterate_done ?_)
  rw [List.nil_append, List.nil_append, checkRound, hnone]

theorem iterate_checkRound_refused (hdepth : depthAfter 0 front = none) :
    iterate (checkRound (front ++ rest)) ((front ++ rest).length + 1) ([], 0) = some false := by
  obtain ⟨-, hnone⟩ := iterate_middle front hrest (rest.length + 1) [] [] (by simp [hfront])
  rw [List.length_append, Nat.add_assoc]
  exact hnone hdepth

end Wrapped

/-! ### The whole function -/

theorem isValidSerialization_of_cut (hcut : Cut [','] s pieces) :
    isValidSerialization s = iterate (checkRound pieces) (pieces.length + 1) ([], 0) := by
  have hsplit := iterate_splitRound hcut [] [] (s.length + 1) (hcut.length_le (List.cons_ne_nil _ _))
  rw [List.nil_append, List.nil_append, List.length_nil] at hsplit
  rw [isValidSerialization]
  exact congrArg (fun vec => (Option.join vec).bind _) hsplit

/-- The tokens of a string are those of a tree exactly if the string is its serialization. -/
theorem serialize_iff (hcut : Cut [','] s pieces) :
    (∃ tree : Tree, s = tree.serialize) ↔ Balanced 0 pieces := by
  rw [← forest_iff_balanced hcut.singleton_notMem, forest_one_iff]
  constructor
  · rintro ⟨tree, rfl⟩
    have htree := cut_intercalate tree.preorder_ne_nil tree.comma_notMem
    have hsame := (EasyString.simpleTokenize_of_cut htree (List.cons_ne_nil _ _)).symm.trans
      (EasyString.simpleTokenize_of_cut hcut (List.cons_ne_nil _ _))
    exact ⟨tree, Option.some.inj hsame⟩
  · rintro ⟨tree, rfl⟩
    exact ⟨tree, hcut.intercalate_eq.symm⟩

/-- There are no more tokens than the counter reaches; or one of those it reaches is refused; or the stack is
empty behind them exactly if the rest is what is still to come: as many trees as there are nodes on it, and
one more. -/
def InSight (tokens : List Str) : Prop :=
  tokens.length ≤ 2 ^ 31 ∨
    ∀ depth, depthAfter 0 (tokens.take (2 ^ 31)) = some depth →
      (depth = 0 ↔ Forest (depth + 1) (tokens.drop (2 ^ 31)))

theorem valid_iff_inSight (hne : tokens ≠ []) (hcomma : ∀ token ∈ tokens, ',' ∉ token)
    (hlen : tokens.length ≤ 2 ^ 63) :
    (∃ valid, iterate (checkRound tokens) (tokens.length + 1) ([], 0) = some valid ∧
      (valid = true ↔ Balanced 0 tokens)) ↔ InSight tokens := by
  by_cases hshort : tokens.length ≤ 2 ^ 31
  · exact iff_of_true (iterate_checkRound hne hshort) (Or.inl hshort)
  · obtain ⟨front, rest, rfl, hfront⟩ : ∃ front rest, tokens = front ++ rest ∧ front.length = 2 ^ 31 :=
      ⟨_, _, (List.take_append_drop (2 ^ 31) tokens).symm, List.length_take_of_le (by omega)⟩
    have hrest : rest ≠ [] := by
      rintro rfl
      rw [List.append_nil] at hshort
      omega
    have hcomma' : ∀ token ∈ rest, ',' ∉ token := fun token htoken =>
      hcomma token (List.mem_append_right front htoken)
    rw [InSight, List.take_left' hfront, List.drop_left' hfront, balanced_append_iff hrest]
    cases hdepth : depthAfter 0 front with
    | none =>
        rw [iterate_checkRound_refused hrest hfront hdepth]
        refine iff_of_true ⟨false, rfl, ?_⟩ (Or.inr fun depth hsome => ?_)
        · simp
        · cases hsome
    | some depth =>
        rw [iterate_checkRound_wrapped hrest hfront hlen hdepth]
        simp only [hshort, false_or, Option.some.injEq, forall_eq', exists_eq_left',
          forest_iff_balanced hcomma', decide_eq_true_eq]

/-- **The strings that are judged right**, among all that a `string` can hold. -/
theorem isValidSerialization_iff (s : Str) (hsize : s.length < 2 ^ 63) :
    (∃ valid, isValidSerialization s = some valid ∧
      (valid = true ↔ ∃ tree : Tree, s = tree.serialize)) ↔ InSight (s.splitOn ',') := by
  have hcut : Cut [','] s (s.splitOn ',') := by
    have hpieces := cut_intercalate (List.splitOn_ne_nil ',' s) fun _ => not_mem_of_mem_splitOn
    rwa [List.intercalate_splitOn] at hpieces
  have hcommas : s.count ',' ≤ s.length := List.count_le_length
  have hlen := hcut.length_eq_count
  rw [isValidSerialization_of_cut hcut, serialize_iff hcut]
  exact valid_iff_inSight hcut.ne_nil hcut.singleton_notMem (by omega)

theorem isValidSerialization_iff_leaf :
    ∃ valid, isValidSerialization ['1', ',', '#', ',', '#'] = some valid ∧
      (valid = true ↔ ∃ tree : Tree, ['1', ',', '#', ',', '#'] = tree.serialize) :=
  (isValidSerialization_iff _ (by decide)).mpr (Or.inl (by decide))

/-! ### Beyond the counter -/

theorem depthAfter_push (hhash : token ≠ ['#']) (count depth : ℕ) (tokens : List Str) :
    depthAfter depth (List.replicate count token ++ tokens) = depthAfter (depth + count) tokens := by
  induction count generalizing depth with
  | zero => rfl
  | succ count ih =>
      rw [List.replicate_succ, List.cons_append, depthAfter_node hhash, ih, Nat.add_right_comm,
        Nat.add_assoc]

theorem depthAfter_pop (count depth : ℕ) :
    depthAfter (depth + count) (List.replicate count ['#']) = some depth := by
  induction count with
  | zero => rfl
  | succ count ih => rw [List.replicate_succ, ← Nat.add_assoc, depthAfter_absent, ih]

/-- A number of labels and as many `#`. -/
def pushedAndPopped (count : ℕ) : List Str := List.replicate count ['1'] ++ List.replicate count ['#']

theorem depthAfter_pushedAndPopped (count : ℕ) : depthAfter 0 (pushedAndPopped count) = some 0 := by
  rw [pushedAndPopped, depthAfter_push (by decide), depthAfter_pop]

theorem length_pushedAndPopped (count : ℕ) : (pushedAndPopped count).length = count + count := by
  rw [pushedAndPopped, List.length_append, List.length_replicate, List.length_replicate]

theorem comma_notMem_pushedAndPopped {count : ℕ} :
    ∀ token ∈ pushedAndPopped count ++ [['1']], ',' ∉ token := by
  intro token htoken
  simp only [pushedAndPopped, List.mem_append, List.mem_replicate, List.mem_singleton] at htoken
  rcases htoken with (⟨-, rfl⟩ | ⟨-, rfl⟩) | rfl <;> decide

theorem accepted_of_wrapped {count : ℕ} (hcount : count + count = 2 ^ 31) :
    ∃ s : Str, s.count ',' = 2 ^ 31 ∧ isValidSerialization s = some true ∧
      ¬ ∃ tree : Tree, s = tree.serialize := by
  have hne : pushedAndPopped count ++ [['1']] ≠ [] := by simp
  have hcut := cut_intercalate hne comma_notMem_pushedAndPopped
  have hlen : (pushedAndPopped count).length = 2 ^ 31 := (length_pushedAndPopped count).trans hcount
  have hlen' : (pushedAndPopped count ++ [['1']]).length = 2 ^ 31 + 1 := by
    rw [List.length_append, hlen, List.length_singleton]
  refine ⟨[','].intercalate (pushedAndPopped count ++ [['1']]), ?_, ?_, ?_⟩
  · have hcommas := hcut.length_eq_count
    omega
  · rw [isValidSerialization_of_cut hcut, iterate_checkRound_wrapped (List.cons_ne_nil _ _) hlen (by omega)
      (depthAfter_pushedAndPopped count)]
    rfl
  · rw [serialize_iff hcut, balanced_concat_iff]
    exact fun hbalanced => absurd hbalanced.1 (by decide)

/-- `2 ^ 30` labels, as many `#`, and then a label instead of the last `#`, which is not looked at. -/
theorem isValidSerialization_wrapped :
    ∃ s : Str, s.count ',' = 2 ^ 31 ∧ isValidSerialization s = some true ∧
      ¬ ∃ tree : Tree, s = tree.serialize := by
  have hcount : 2 ^ 30 + 2 ^ 30 = 2 ^ 31 := by decide
  exact accepted_of_wrapped hcount

end EasyLib.Leecode.Solution
