import EasyLib.Common.Strops

/-!
# Decoding percent escapes

What `UrlDecode` accepts depends on `FromHex` alone: at the end of the string it reads the null byte, which
is no digit, so that an escape that is cut short is refused. But `FromHex` takes any letter for a digit. The
grammar below has the digits as a parameter, and `UrlDecode` follows it with the digits of `FromHex`.
-/

namespace EasyLib.Common.EasyString

open Loop

variable {digit : UInt8 → Option UInt8} {str front rest ret out : Bytes} {x y : UInt8}

/-- A hexadecimal digit and its value. -/
def hexDigit (x : UInt8) : Option UInt8 :=
  if 'A'.toUInt8 ≤ x ∧ x ≤ 'F'.toUInt8 then some (x - 'A'.toUInt8 + 10)
  else if 'a'.toUInt8 ≤ x ∧ x ≤ 'f'.toUInt8 then some (x - 'a'.toUInt8 + 10)
  else if '0'.toUInt8 ≤ x ∧ x ≤ '9'.toUInt8 then some (x - '0'.toUInt8)
  else none

/-- `ret` is `str` with the escapes replaced, where each `%` that is met has two digits behind it. -/
inductive Decoded (digit : UInt8 → Option UInt8) : Bytes → Bytes → Prop where
  | nil : Decoded digit [] []
  | plain {c : UInt8} {rest out : Bytes} (hc : c ≠ '%'.toUInt8) (hrest : Decoded digit rest out) :
      Decoded digit (c :: rest) (c :: out)
  | escape {a b high low : UInt8} {rest out : Bytes} (hhigh : digit a = some high)
      (hlow : digit b = some low) (hrest : Decoded digit rest out) :
      Decoded digit ('%'.toUInt8 :: a :: b :: rest) ((high * 16 + low) :: out)

def WellFormed (digit : UInt8 → Option UInt8) (str : Bytes) : Prop := ∃ ret, Decoded digit str ret

theorem wellFormed_plain {c : UInt8} (hc : c ≠ '%'.toUInt8) (h : WellFormed digit (c :: rest)) :
    WellFormed digit rest := by
  obtain ⟨ret, hret⟩ := h
  cases hret with
  | plain _ hrest => exact ⟨_, hrest⟩
  | escape _ _ _ => exact absurd rfl hc

theorem wellFormed_escape (h : WellFormed digit ('%'.toUInt8 :: rest)) :
    ∃ a b back high low, rest = a :: b :: back ∧ digit a = some high ∧ digit b = some low ∧
      WellFormed digit back := by
  obtain ⟨ret, hret⟩ := h
  cases hret with
  | plain hc _ => exact absurd rfl hc
  | escape hhigh hlow hrest => exact ⟨_, _, _, _, _, rfl, hhigh, hlow, _, hrest⟩

theorem Decoded.mono {digit' : UInt8 → Option UInt8} (hdigit : ∀ x y, digit x = some y → digit' x = some y)
    (h : Decoded digit str out) : Decoded digit' str out := by
  induction h with
  | nil => exact .nil
  | plain hc _ ih => exact .plain hc ih
  | escape hhigh hlow _ ih => exact .escape (hdigit _ _ hhigh) (hdigit _ _ hlow) ih

theorem Decoded.unique (h : Decoded digit str out) {out' : Bytes} (h' : Decoded digit str out') :
    out = out' := by
  induction h generalizing out' with
  | nil =>
      cases h'
      rfl
  | plain hc _ ih =>
      cases h' with
      | plain _ hrest => rw [ih hrest]
      | escape _ _ _ => exact absurd rfl hc
  | escape hhigh hlow _ ih =>
      cases h' with
      | plain hc _ => exact absurd rfl hc
      | escape hhigh' hlow' hrest =>
          rw [hhigh, Option.some.injEq] at hhigh'
          rw [hlow, Option.some.injEq] at hlow'
          rw [hhigh', hlow', ih hrest]

theorem fromHex_of_hexDigit (h : hexDigit x = some y) : fromHex x = some y := by
  rw [hexDigit] at h
  split_ifs at h with hupper hlower hnumber
  · rw [fromHex, if_pos ⟨hupper.1, UInt8.le_trans hupper.2 (by decide)⟩, h]
  · have hnot : ¬ ('A'.toUInt8 ≤ x ∧ x ≤ 'Z'.toUInt8) := fun hletter =>
      absurd (UInt8.le_trans hlower.1 hletter.2) (by decide)
    rw [fromHex, if_neg hnot, if_pos ⟨hlower.1, UInt8.le_trans hlower.2 (by decide)⟩, h]
  · have hnot : ¬ ('A'.toUInt8 ≤ x ∧ x ≤ 'Z'.toUInt8) := fun hletter =>
      absurd (UInt8.le_trans hletter.1 hnumber.2) (by decide)
    have hnot' : ¬ ('a'.toUInt8 ≤ x ∧ x ≤ 'z'.toUInt8) := fun hletter =>
      absurd (UInt8.le_trans hletter.1 hnumber.2) (by decide)
    rw [fromHex, if_neg hnot, if_neg hnot', if_pos hnumber, h]

theorem fromHex_zero : fromHex 0 = none := by decide

/-! ### The loop -/

theorem byteAt_append (i : ℕ) : byteAt (front ++ rest) (front.length + i) = byteAt rest i := by
  rw [byteAt, byteAt, List.getD_eq_getElem?_getD, List.getD_eq_getElem?_getD,
    List.getElem?_append_right (Nat.le_add_right _ _), Nat.add_sub_cancel_left]

theorem urlDecodeRound_nil :
    urlDecodeRound (front ++ []) (ret, front.length) = .inr (true, ret) := by
  simp [urlDecodeRound]

theorem urlDecodeRound_plain {c : UInt8} (hc : c ≠ '%'.toUInt8) :
    urlDecodeRound (front ++ c :: rest) (ret, front.length) =
      .inl (ret ++ [c], (front ++ [c]).length) := by
  have hhead : byteAt (front ++ c :: rest) front.length = c := byteAt_append 0
  rw [urlDecodeRound, if_pos (by simp), hhead, if_neg hc, List.length_append, List.length_singleton]

theorem urlDecodeRound_escape {a b high low : UInt8} (hhigh : fromHex a = some high)
    (hlow : fromHex b = some low) :
    urlDecodeRound (front ++ '%'.toUInt8 :: a :: b :: rest) (ret, front.length) =
      .inl (ret ++ [high * 16 + low], (front ++ ['%'.toUInt8, a, b]).length) := by
  have hhead : byteAt (front ++ '%'.toUInt8 :: a :: b :: rest) front.length = '%'.toUInt8 :=
    byteAt_append 0
  have hfirst : byteAt (front ++ '%'.toUInt8 :: a :: b :: rest) (front.length + 1) = a := byteAt_append 1
  have hsecond : byteAt (front ++ '%'.toUInt8 :: a :: b :: rest) (front.length + 2) = b := byteAt_append 2
  have hroom : ¬ front.length + 2 > (front ++ '%'.toUInt8 :: a :: b :: rest).length := by
    simp only [List.length_append, List.length_cons]
    omega
  rw [urlDecodeRound, if_pos (by simp), hhead, if_pos rfl, if_neg hroom, hfirst, hsecond, hhigh, hlow]
  simp

/-- A `%` without two digits behind it, which at the end are missing. -/
theorem urlDecodeRound_refused
    (hnot : ∀ a b back high low, rest = a :: b :: back → fromHex a = some high → fromHex b ≠ some low) :
    urlDecodeRound (front ++ '%'.toUInt8 :: rest) (ret, front.length) = .inr (false, ret) := by
  have hhead : byteAt (front ++ '%'.toUInt8 :: rest) front.length = '%'.toUInt8 := byteAt_append 0
  have hfirst : byteAt (front ++ '%'.toUInt8 :: rest) (front.length + 1) = byteAt rest 0 := byteAt_append 1
  have hsecond : byteAt (front ++ '%'.toUInt8 :: rest) (front.length + 2) = byteAt rest 1 := byteAt_append 2
  have hdigits : ∀ high low, fromHex (byteAt rest 0) = some high → fromHex (byteAt rest 1) ≠ some low := by
    intro high low hhigh
    match rest with
    | [] => exact absurd hhigh (by simp [byteAt, fromHex_zero])
    | [a] => simp [byteAt, fromHex_zero]
    | a :: b :: back => exact hnot a b back high low rfl hhigh
  rw [urlDecodeRound, if_pos (by simp), hhead, if_pos rfl, hfirst, hsecond]
  split_ifs with hroom
  · rfl
  · split
    · rename_i high low hhigh hlow
      exact absurd hlow (hdigits high low hhigh)
    · rfl

/-- The loop decodes what is left of the string, or refuses it if it is not well formed. -/
theorem iterate_urlDecodeRound (rounds : ℕ) :
    ∀ front rest ret : Bytes, rest.length < rounds →
      ∃ ok out, iterate (urlDecodeRound (front ++ rest)) rounds (ret, front.length) = some (ok, ret ++ out) ∧
        (ok = true → Decoded fromHex rest out) ∧ (WellFormed fromHex rest → ok = true) := by
  induction rounds with
  | zero =>
      intro front rest ret hlen
      exact absurd hlen (Nat.not_lt_zero _)
  | succ rounds ih =>
      intro front rest ret hlen
      cases rest with
      | nil =>
          refine ⟨true, [], ?_, fun _ => .nil, fun _ => rfl⟩
          rw [iterate_done urlDecodeRound_nil, List.append_nil]
      | cons c rest =>
          by_cases hc : c = '%'.toUInt8
          · subst hc
            by_cases hdigits : ∃ a b back high low, rest = a :: b :: back ∧ fromHex a = some high ∧
                fromHex b = some low
            · obtain ⟨a, b, back, high, low, rfl, hhigh, hlow⟩ := hdigits
              obtain ⟨ok, out, hloop, hsound, hcomplete⟩ := ih (front ++ ['%'.toUInt8, a, b]) back
                (ret ++ [high * 16 + low]) (by simp only [List.length_cons] at hlen; omega)
              refine ⟨ok, (high * 16 + low) :: out, ?_, fun hok => .escape hhigh hlow (hsound hok), ?_⟩
              · rw [iterate_next (urlDecodeRound_escape hhigh hlow)]
                simpa using hloop
              · intro hwell
                obtain ⟨a', b', back', -, -, heq, -, -, hback⟩ := wellFormed_escape hwell
                cases heq
                exact hcomplete hback
            · push Not at hdigits
              refine ⟨false, [], ?_, fun hok => absurd hok Bool.false_ne_true, fun hwell => ?_⟩
              · rw [List.append_nil]
                exact iterate_done (urlDecodeRound_refused hdigits)
              · obtain ⟨a, b, back, high, low, heq, hhigh, hlow, -⟩ := wellFormed_escape hwell
                exact absurd hlow (hdigits a b back high low heq hhigh)
          · obtain ⟨ok, out, hloop, hsound, hcomplete⟩ := ih (front ++ [c]) rest (ret ++ [c])
              (Nat.lt_of_succ_lt_succ hlen)
            refine ⟨ok, c :: out, ?_, fun hok => .plain hc (hsound hok),
              fun hwell => hcomplete (wellFormed_plain hc hwell)⟩
            rw [iterate_next (urlDecodeRound_plain hc)]
            simpa using hloop

/-- `UrlDecode` follows the grammar with the digits that `FromHex` knows. -/
theorem urlDecode_eq (str : Bytes) :
    ∃ ok ret, urlDecode str = some (ok, ret) ∧ (ok = true → Decoded fromHex str ret) ∧
      (WellFormed fromHex str → ok = true) := by
  exact iterate_urlDecodeRound (str.length + 1) [] str [] (Nat.lt_succ_self _)

/-! ### Against the hexadecimal digits -/

/-- `UrlDecode` accepts exactly the strings that are well formed, and decodes them. -/
def DecodesExactly (str : Bytes) : Prop :=
  ∃ ok ret, urlDecode str = some (ok, ret) ∧ (ok = true ↔ WellFormed hexDigit str) ∧
    (ok = true → Decoded hexDigit str ret)

/-- `UrlDecode` is right about a string exactly if it is not one whose escapes all have letters or digits
behind the `%` but not all hexadecimal ones. -/
theorem decodesExactly_iff (str : Bytes) :
    DecodesExactly str ↔ (WellFormed fromHex str → WellFormed hexDigit str) := by
  obtain ⟨ok, ret, hresult, hsound, hcomplete⟩ := urlDecode_eq str
  have hhex : WellFormed hexDigit str → WellFormed fromHex str :=
    fun ⟨out, hout⟩ => ⟨out, hout.mono fun _ _ => fromHex_of_hexDigit⟩
  constructor
  · rintro ⟨ok', ret', hresult', hiff, -⟩ hwell
    rw [hresult, Option.some.injEq, Prod.mk.injEq] at hresult'
    exact hiff.mp (hresult'.1 ▸ hcomplete hwell)
  · intro hletters
    refine ⟨ok, ret, hresult, ⟨fun hok => hletters ⟨ret, hsound hok⟩, fun hwell => hcomplete (hhex hwell)⟩, ?_⟩
    intro hok
    obtain ⟨out, hout⟩ := hletters ⟨ret, hsound hok⟩
    rw [(hsound hok).unique (hout.mono fun _ _ => fromHex_of_hexDigit)]
    exact hout

/-- `%GZ` is accepted and stands for the byte `16 * 16 + 35`, cut down to 8 bits. -/
theorem urlDecode_letters :
    urlDecode ['%'.toUInt8, 'G'.toUInt8, 'Z'.toUInt8] = some (true, [35]) ∧
    ¬ WellFormed hexDigit ['%'.toUInt8, 'G'.toUInt8, 'Z'.toUInt8] := by
  refine ⟨by decide, fun hwell => ?_⟩
  obtain ⟨a, b, back, high, low, heq, hhigh, -, -⟩ := wellFormed_escape hwell
  obtain ⟨rfl, -⟩ := List.cons.inj heq
  have hletter : hexDigit 'G'.toUInt8 = none := by decide
  rw [hletter] at hhigh
  cases hhigh

end EasyLib.Common.EasyString
