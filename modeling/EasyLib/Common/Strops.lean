import EasyLib.Lib.CppString
import EasyLib.Lib.Loop
import Mathlib.Data.Nat.Notation
import Mathlib.Tactic.Common

/-!
# String operations

`common/Strops.cpp`, for strings of any length. A string is the list of its characters. `split` and
`CalStringSim` keep lengths and positions in an `int`, and the other functions in a `size_t`, which every
position of a string fits into.

A loop is given by what a round makes of its variables. A loop that does not end has no result, and neither
has one whose `substr` throws; the rounds tell the two apart.
-/

namespace EasyLib.Common

abbrev Str := List Char

namespace EasyString

/-- `string::find`: the first position at which `token` occurs. -/
def find (token : Str) : Str → Option ℕ
  | [] => if token = [] then some 0 else none
  | c :: rest =>
      if token.isPrefixOf (c :: rest) then some 0 else (find token rest).map (· + 1)

open CppString MachineInt Loop

/-- `find(token, pos)`. A position that is negative as an `int` lies behind the end of any string. -/
def findFrom (str token : Str) (pos : Int) : Option ℕ :=
  if 0 ≤ pos ∧ pos ≤ str.length then (find token (str.drop pos.toNat)).map (pos.toNat + ·) else none

/-! ### `split` -/

/-- A round of the loop of `split`, on `res` and `i`. What `find` returns is compared with `size` as an
unsigned number, which `size` is where the loop gets to. -/
def splitRound (str token : Str) (size : Int) :
    List Str × Int → (List Str × Int) ⊕ Option (List Str)
  | (res, i) =>
      if i < size then
        match (findFrom str token i).filter fun pos : ℕ => decide ((pos : Int) < size) with
        | some pos =>
            attempt (substr str i (pos - i)) fun sub =>
              (res ++ [sub], toInt32 (toInt32 (pos + token.length - 1) + 1))
        | none => .inr ((substr str i (size - i)).map fun sub => res ++ [sub])
      else .inr (some res)

/-- `split(str, token, res)`, as `res` is left. -/
def splitInto (str token : Str) (res : List Str) : Option (List Str) :=
  (iterate (splitRound str token (toInt32 str.length)) (str.length + 1) (res, 0)).join

/-! ### `SimpleTokenize` -/

/-- A round of the loop of `SimpleTokenize`, on `tokens` and `p0`. -/
def simpleTokenizeRound (str delims : Str) : List Str × ℕ → (List Str × ℕ) ⊕ Option (List Str)
  | (tokens, p0) =>
      match findFrom str delims p0 with
      | none => .inr ((substr str p0 (-1)).map fun token => tokens ++ [token])
      | some p1 =>
          attempt (substr str p0 (p1 - p0)) fun token => (tokens ++ [token], p1 + delims.length)

def simpleTokenize (str delims : Str) : Option (List Str) :=
  (iterate (simpleTokenizeRound str delims) (str.length + 1) ([], 0)).join

/-! ### `ReplaceAll` -/

/-- A round of the loop of `ReplaceAll`, on `strTemp`, `tpos`, `bHasReplaced` and `pos`. -/
def replaceRound (str strToReplaced strReplaced : Str) :
    Str × ℕ × Bool × Option ℕ → (Str × ℕ × Bool × Option ℕ) ⊕ Option (Str × ℕ × Bool)
  | (strTemp, tpos, hasReplaced, none) => .inr (some (strTemp, tpos, hasReplaced))
  | (strTemp, tpos, _, some pos) =>
      attempt (substr str tpos (pos - tpos)) fun sub =>
        (strTemp ++ (sub ++ strReplaced), pos + strToReplaced.length, true,
          findFrom str strToReplaced (pos + strToReplaced.length : ℕ))

/-- `ReplaceAll`, as `str` is left. -/
def replaceAll (str strToReplaced strReplaced : Str) : Option Str := do
  let (strTemp, tpos, hasReplaced) ← (iterate (replaceRound str strToReplaced strReplaced)
    (str.length + 2) ([], 0, false, findFrom str strToReplaced 0)).join
  if hasReplaced then (substr str tpos (-1)).map fun sub => strTemp ++ sub else some str

/-! ### `RemoveSubstr` -/

/-- `string::rfind`: the last position at which `token` occurs. -/
def rfind (token : Str) : Str → Option ℕ
  | [] => if token = [] then some 0 else none
  | c :: rest =>
      match rfind token rest with
      | some pos => some (pos + 1)
      | none => if token.isPrefixOf (c :: rest) then some 0 else none

/-- `RemoveSubstr`, as `songname` is left. A difference `p1 - p0` below 0 is larger than any length. -/
def removeSubstr (songname sBegin sEnd : Str) : Option Str :=
  match findFrom songname sBegin 0 with
  | none => some songname
  | some p0 =>
      match rfind sEnd songname with
      | none => some songname
      | some p1 =>
          (substr songname p0 ((p1 + sEnd.length : ℕ) - p0)).bind fun s => replaceAll songname s []

/-! ### `Tokenize` -/

/-- `find_first_of(delims, pos)`. -/
def findFirstOf (str delims : Str) (pos : ℕ) : Option ℕ :=
  ((str.drop pos).findIdx? fun c => decide (c ∈ delims)).map (pos + ·)

/-- `find_first_not_of(delims, pos)`. -/
def findFirstNotOf (str delims : Str) (pos : ℕ) : Option ℕ :=
  ((str.drop pos).findIdx? fun c => decide (c ∉ delims)).map (pos + ·)

/-- A round of the loop of `Tokenize`, on `tokens` and `pos`. -/
def tokenizeRound (str delims : Str) : List Str × ℕ → (List Str × ℕ) ⊕ Option (List Str)
  | (tokens, pos) =>
      match findFirstNotOf str delims pos with
      | none => .inr (some tokens)
      | some lastPos =>
          match findFirstOf str delims lastPos with
          | some pos => attempt (substr str lastPos (pos - lastPos)) fun token => (tokens ++ [token], pos)
          | none => .inr ((substr str lastPos (str.length - lastPos)).map fun token => tokens ++ [token])

/-- `Tokenize`, as `tokens` is left. -/
def tokenize (str delims : Str) : Option (List Str) :=
  (iterate (tokenizeRound str delims) (str.length + 1) ([], 0)).join

/-! ### `RemoveHtmlTags` -/

/-- A round of the loop of `RemoveHtmlTags`, on `strText` and `pos`. -/
def removeTagRound : Str × Option ℕ → (Str × Option ℕ) ⊕ Str
  | (strText, none) => .inr strText
  | (strText, some pos) =>
      match findFrom strText ['>'] pos with
      | none => .inr strText
      | some last =>
          if last - pos + 1 < 1024 then
            let replaced := strText.take pos ++ strText.drop (pos + (last - pos + 1))
            .inl (replaced, findFrom replaced ['<'] pos)
          else .inl (strText, findFrom strText ['<'] (last + 1 : ℕ))

/-- `RemoveHtmlTags`, as `strText` is left. -/
def removeHtmlTags (strText : Str) : Option Str :=
  iterate removeTagRound (strText.length + 1) (strText, findFrom strText ['<'] 0)

/-! ### `CalStringSim` -/

/-- The `ngram_map`, which is never walked through. -/
abbrev NgramMap := Str → Option ℕ

/-- `string(&s[i], n)` for `i` from 0 up to `len - n + 1`. -/
def ngrams (s : Str) (n : Int) : List Str :=
  (List.range (toInt32 (toInt32 s.length - n + 1)).toNat).map fun i => (s.drop i).take n.toNat

/-- `imap[key]++`. -/
def NgramMap.count (imap : NgramMap) (key : Str) : NgramMap :=
  Function.update imap key (some ((imap key).getD 0 + 1))

/-- A round of the second loop, on `common` and `imap`. -/
def matchNgram : ℕ × NgramMap → Str → ℕ × NgramMap
  | (common, imap), key =>
      match imap key with
      | none => (common, imap)
      | some left =>
          (common + 1, Function.update imap key (if left - 1 = 0 then none else some (left - 1)))

/-- `common` behind the two loops: how many n-grams of `s1` are found among those of `s2`, each once. -/
def ngramCommon (s1 s2 : Str) (n : Int) : ℕ :=
  ((ngrams s1 n).foldl matchNgram (0, (ngrams s2 n).foldl NgramMap.count fun _ => none)).1

/-- `CalStringSim` on two strings that are not empty: the dividend and the divisor. A negative `n` is no
length of a string. -/
def nonemptySim (s1 s2 : Str) (n : Int) : Option (Int × Int) :=
  let len1 := toInt32 s1.length
  let len2 := toInt32 s2.length
  if len1 < n ∧ len1 ≤ len2 then
    some (if (find s1 s2).isNone then 0 else 1, toInt32 (len2 - len1 + 1))
  else if len2 < n ∧ len2 ≤ len1 then
    some (if (find s2 s1).isNone then 0 else 1, toInt32 (len1 - len2 + 1))
  else if n < 0 then none
  else some (toInt32 (2 * ngramCommon s1 s2 n), toInt32 (len1 + len2 - 2 * n + 2))

/-- `CalStringSim`, where `none` is the null pointer. What it returns is a dividend and a divisor. -/
def calStringSim (s1 s2 : Option Str) (n : Int) : Option (Int × Int) :=
  match s1, s2 with
  | some (c1 :: rest1), some (c2 :: rest2) => nonemptySim (c1 :: rest1) (c2 :: rest2) n
  | _, _ => some (0, 1)

/-! ### `UrlDecode` -/

abbrev Bytes := List UInt8

/-- `FromHex`. -/
def fromHex (x : UInt8) : Option UInt8 :=
  if 'A'.toUInt8 ≤ x ∧ x ≤ 'Z'.toUInt8 then some (x - 'A'.toUInt8 + 10)
  else if 'a'.toUInt8 ≤ x ∧ x ≤ 'z'.toUInt8 then some (x - 'a'.toUInt8 + 10)
  else if '0'.toUInt8 ≤ x ∧ x ≤ '9'.toUInt8 then some (x - '0'.toUInt8)
  else none

/-- `str[i]`. Behind the last byte of a constant string there is a null byte. -/
def byteAt (str : Bytes) (i : ℕ) : UInt8 := str.getD i 0

/-- A round of the loop of `UrlDecode`, on `ret` and `i`. -/
def urlDecodeRound (str : Bytes) : Bytes × ℕ → (Bytes × ℕ) ⊕ (Bool × Bytes)
  | (ret, i) =>
      if i < str.length then
        if byteAt str i = '%'.toUInt8 then
          if i + 2 > str.length then .inr (false, ret)
          else
            match fromHex (byteAt str (i + 1)), fromHex (byteAt str (i + 2)) with
            | some high, some low => .inl (ret ++ [high * 16 + low], i + 3)
            | _, _ => .inr (false, ret)
        else .inl (ret ++ [byteAt str i], i + 1)
      else .inr (true, ret)

/-- `UrlDecode`: what it returns, and `ret` as it is left. -/
def urlDecode (str : Bytes) : Option (Bool × Bytes) :=
  iterate (urlDecodeRound str) (str.length + 1) ([], 0)

end EasyString

end EasyLib.Common
