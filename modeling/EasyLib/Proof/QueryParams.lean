import EasyLib.Http.HttpContext

/-!
# Parsing the parameters of a request

`scan` is the loop of `ParseUri` without its positions: it goes through the segments of the text and looks
for a `=` in all that is left of it. When the first one lies in a later segment, the key runs across a `&`
and the value up to the end, so that a segment without a `=` is harmless only while no other `=` follows.
The positions of the loop are those of the text as long as the scan meets none that is no `int`.
-/

namespace EasyLib.Http.HttpContext

open Common CppString MachineInt

def scan : List Str → ParamsMap → ParamsMap
  | [], paramsMap => paramsMap
  | segment :: segments, paramsMap =>
      let text := ['&'].intercalate (segment :: segments)
      if '=' ∈ text then
        scan segments (Function.update paramsMap (before '=' text)
          (some (after '=' (if '=' ∈ segment then segment else text))))
      else paramsMap

variable {uri front segment rest key value text : Str} {paramsMap : ParamsMap} {rounds : ℕ}

/-! ### One round of the loop -/

theorem substr_key :
    substr (front ++ (key ++ '=' :: value)) front.length
      (((front.length + key.length : ℕ) : Int) - front.length) = some key := by
  have hcount : ((front.length + key.length : ℕ) : Int) - front.length = key.length := by omega
  rw [hcount, substr_eq_middle]

theorem append_key : front ++ (key ++ '=' :: value) = (front ++ key ++ ['=']) ++ value := by
  simp

theorem length_append_key :
    ((front.length + key.length : ℕ) : Int) + 1 = (front ++ key ++ ['=']).length := by
  simp [Int.add_assoc]

/-- A key that is not in its segment runs across the `&` behind it. -/
theorem key_of_not_mem (hmem : '=' ∉ segment)
    (htext : segment ++ '&' :: rest = key ++ '=' :: value) :
    ∃ middle, key = segment ++ '&' :: middle := by
  rcases List.append_eq_append_iff.mp htext with ⟨middle, hkey, hrest⟩ | ⟨middle, hsegment, hrest⟩
  · cases middle with
    | nil => cases hrest
    | cons c middle =>
        obtain rfl : '&' = c := (List.cons.inj hrest).1
        exact ⟨middle, hkey⟩
  · cases middle with
    | nil => cases hrest
    | cons c middle =>
        obtain rfl : '=' = c := (List.cons.inj hrest).1
        rw [hsegment] at hmem
        exact absurd (List.mem_append_right key List.mem_cons_self) hmem

/-- The value ends before the next `&` when the key does. -/
theorem substr_value_of_mem (hmem : '=' ∈ segment) (hkey : '=' ∉ key)
    (htext : segment ++ '&' :: rest = key ++ '=' :: value) :
    substr (front ++ (key ++ '=' :: value)) (((front.length + key.length : ℕ) : Int) + 1)
      (((front.length + segment.length : ℕ) : Int) - (front.length + key.length : ℕ) - 1) =
        some (after '=' segment) := by
  obtain ⟨key', value', rfl, hkey'⟩ := List.eq_append_cons_of_mem hmem
  rw [List.append_assoc, List.cons_append] at htext
  have hsame : key' = key := by
    have hbefore := congrArg (before '=') htext
    rwa [before_append hkey', before_append hkey] at hbefore
  subst hsame
  have hvalue : value' ++ '&' :: rest = value := by
    have hafter := congrArg (after '=') htext
    rwa [after_append hkey', after_append hkey'] at hafter
  subst hvalue
  have hcount : ((front.length + (key' ++ '=' :: value').length : ℕ) : Int) -
      (front.length + key'.length : ℕ) - 1 = value'.length := by
    simp only [List.length_append, List.length_cons]
    omega
  rw [append_key, length_append_key, hcount, substr_eq_middle, after_append hkey']

/-- Otherwise the length of the value is negative, and the value is all that is left. -/
theorem substr_value_of_not_mem (hmem : '=' ∉ segment)
    (htext : segment ++ '&' :: rest = key ++ '=' :: value) :
    substr (front ++ (key ++ '=' :: value)) (((front.length + key.length : ℕ) : Int) + 1)
      (((front.length + segment.length : ℕ) : Int) - (front.length + key.length : ℕ) - 1) =
        some value := by
  have hle : segment.length ≤ key.length := by
    obtain ⟨middle, rfl⟩ := key_of_not_mem hmem htext
    simp
  rw [append_key, length_append_key]
  exact substr_eq_rest (by omega)

theorem parseParams_of_not_mem (htext : '=' ∉ text) :
    parseParams (front ++ text) (rounds + 1) front.length paramsMap = some paramsMap := by
  have hpos2 : find (front ++ text) '=' front.length = -1 := find_eq_neg_one htext
  simp only [parseParams, hpos2, if_true, ite_self]

theorem parseParams_cons (hsegment : '&' ∉ segment) (hmem : '=' ∈ segment ++ '&' :: rest)
    (hamp : front.length + segment.length < 2 ^ 31 - 1)
    (heq : front.length + (before '=' (segment ++ '&' :: rest)).length < 2 ^ 31 - 1) :
    parseParams (front ++ (segment ++ '&' :: rest)) (rounds + 1) front.length paramsMap =
      parseParams (front ++ segment ++ ['&'] ++ rest) rounds (front ++ segment ++ ['&']).length
        (Function.update paramsMap (before '=' (segment ++ '&' :: rest))
          (some (after '=' (if '=' ∈ segment then segment else segment ++ '&' :: rest)))) := by
  have hpos : find (front ++ (segment ++ '&' :: rest)) '&' front.length =
      (front.length + segment.length : ℕ) := find_eq hsegment (by omega)
  have hnext : (front ++ segment ++ ['&']).length = ((front.length + segment.length : ℕ) : Int) + 1 := by
    simp [Int.add_assoc]
  obtain ⟨key, value, htext, hkey⟩ := List.eq_append_cons_of_mem hmem
  rw [htext, before_append hkey] at heq
  have hpos2 : find (front ++ (segment ++ '&' :: rest)) '=' front.length =
      (front.length + key.length : ℕ) := by
    rw [htext]
    exact find_eq hkey (by omega)
  have hvalue : substr (front ++ (key ++ '=' :: value))
      (((front.length + key.length : ℕ) : Int) + 1)
      (((front.length + segment.length : ℕ) : Int) - (front.length + key.length : ℕ) - 1) =
        some (after '=' (if '=' ∈ segment then segment else segment ++ '&' :: rest)) := by
    split_ifs with hin
    · exact substr_value_of_mem hin hkey htext
    · rw [substr_value_of_not_mem hin htext, htext, after_append hkey]
  have huri : front ++ segment ++ ['&'] ++ rest = front ++ (segment ++ '&' :: rest) := by simp
  rw [hnext, huri]
  simp only [parseParams, hpos, hpos2]
  rw [if_pos (by omega), if_neg (by omega)]
  -- No position wraps around, and neither does a length.
  rw [toInt32_of_range (by omega) (by omega), toInt32_of_range (by omega) (by omega),
    toInt32_of_range (by omega) (by omega), toInt32_of_range (by omega) (by omega)]
  rw [htext] at hvalue ⊢
  rw [substr_key, hvalue, before_append hkey]
  rfl

theorem parseParams_last (hamp : '&' ∉ text) (hmem : '=' ∈ text)
    (heq : front.length + (before '=' text).length < 2 ^ 31 - 1) :
    parseParams (front ++ text) (rounds + 1) front.length paramsMap =
      some (Function.update paramsMap (before '=' text) (some (after '=' text))) := by
  obtain ⟨key, value, rfl, hkey⟩ := List.eq_append_cons_of_mem hmem
  rw [before_append hkey] at heq
  have hpos : find (front ++ (key ++ '=' :: value)) '&' front.length = -1 := find_eq_neg_one hamp
  have hpos2 : find (front ++ (key ++ '=' :: value)) '=' front.length =
      (front.length + key.length : ℕ) := find_eq hkey (by omega)
  have hend : (front.length : Int) ≠ (front ++ (key ++ '=' :: value)).length := by
    simp only [List.length_append, List.length_cons]
    omega
  have hcount : ((front ++ (key ++ '=' :: value)).length : Int) -
      (front.length + key.length : ℕ) - 1 = value.length := by
    simp only [List.length_append, List.length_cons]
    omega
  have hvalue : substr (front ++ (key ++ '=' :: value))
      (((front.length + key.length : ℕ) : Int) + 1) value.length = some value := by
    rw [append_key, length_append_key, substr_eq, List.take_length]
  simp only [parseParams, hpos, hpos2]
  rw [if_neg (by simp), if_pos hend, if_neg (by omega), toInt32_of_range (by omega) (by omega),
    toInt32_of_range (by omega) (by omega), hcount, substr_key, hvalue, before_append hkey,
    after_append hkey]
  rfl

/-! ### The whole scan -/

theorem parseParams_eq_scan (segments : List Str) (hne : segments ≠ [])
    (hsegments : ∀ segment ∈ segments, '&' ∉ segment) (hrounds : segments.length ≤ rounds)
    (hmeasured : Measured front.length segments) :
    parseParams (front ++ ['&'].intercalate segments) rounds front.length paramsMap =
      some (scan segments paramsMap) := by
  induction segments generalizing front paramsMap rounds with
  | nil => exact absurd rfl hne
  | cons segment segments ih =>
      obtain ⟨rounds, rfl⟩ : ∃ fewer, rounds = fewer + 1 := by
        rw [List.length_cons] at hrounds
        exact ⟨rounds - 1, by omega⟩
      obtain ⟨hsegment, hrest⟩ := List.forall_mem_cons.mp hsegments
      simp only [scan]
      by_cases hmem : '=' ∈ ['&'].intercalate (segment :: segments)
      · obtain ⟨heq, hamp, hmeasured⟩ := hmeasured hmem
        rw [if_pos hmem]
        cases segments with
        | nil =>
            rw [List.intercalate_singleton] at hmem heq ⊢
            rw [parseParams_last hsegment hmem heq, if_pos hmem]
            rfl
        | cons second segments =>
            have hne : second :: segments ≠ [] := List.cons_ne_nil second segments
            rw [List.intercalate_cons_cons, List.append_assoc, List.singleton_append] at hmem heq ⊢
            rw [parseParams_cons hsegment hmem (hamp hne) heq]
            apply ih hne hrest
            · rw [List.length_cons] at hrounds
              omega
            · simpa [Nat.add_assoc] using hmeasured
      · rw [if_neg hmem]
        exact parseParams_of_not_mem hmem

theorem length_le_intercalate (segments : List Str) :
    segments.length ≤ (['&'].intercalate segments).length + 1 := by
  induction segments with
  | nil => exact Nat.zero_le _
  | cons segment segments ih =>
      cases segments with
      | nil => exact Nat.le_add_left 1 _
      | cons second segments =>
          rw [List.intercalate_cons_cons, List.length_append, List.length_append]
          simp only [List.length_cons, List.length_nil] at ih ⊢
          omega

theorem before_length_lt {c : Char} (hmem : c ∈ text) : (before c text).length < text.length := by
  obtain ⟨left, right, rfl, hleft⟩ := List.eq_append_cons_of_mem hmem
  rw [before_append hleft, List.length_append, List.length_cons]
  omega

/-- A text whose end is in reach is so as a whole. -/
theorem measured_of_lt {segments : List Str} {offset : ℕ}
    (hlen : offset + (['&'].intercalate segments).length < 2 ^ 31) : Measured offset segments := by
  induction segments generalizing offset with
  | nil => trivial
  | cons segment segments ih =>
      intro hmem
      have hbefore := before_length_lt hmem
      refine ⟨by omega, fun hne => ?_, ?_⟩
      · obtain ⟨second, segments, rfl⟩ := List.exists_cons_of_ne_nil hne
        rw [List.intercalate_cons_cons, List.length_append, List.length_append,
          List.length_singleton] at hlen
        omega
      · cases segments with
        | nil => trivial
        | cons second segments =>
            apply ih
            rw [List.intercalate_cons_cons, List.length_append, List.length_append,
              List.length_singleton] at hlen
            omega

theorem parseUri_of_mem {path : Str} {segments : List Str} {context : HttpContext}
    (hpath : '?' ∉ path) (hne : segments ≠ []) (hsegments : ∀ segment ∈ segments, '&' ∉ segment)
    (hlen : path.length < 2 ^ 31 - 1) (hmeasured : Measured (path.length + 1) segments) :
    parseUri context (path ++ '?' :: ['&'].intercalate segments) =
      some { url := path, paramsMap := scan segments context.paramsMap } := by
  have hfits := length_le_intercalate segments
  have hpos : find (path ++ '?' :: ['&'].intercalate segments) '?' 0 = path.length :=
    (find_zero_eq hpath).trans (toInt32_of_lt (by omega))
  have hurl : substr (path ++ '?' :: ['&'].intercalate segments) 0 path.length = some path :=
    substr_zero_eq
  have hsplit : path ++ '?' :: ['&'].intercalate segments =
      (path ++ ['?']) ++ ['&'].intercalate segments := by simp
  have hnext : toInt32 ((path.length : Int) + 1) = (path ++ ['?']).length := by
    rw [toInt32_of_range (by omega) (by omega)]
    simp
  unfold parseUri
  simp only [hpos, hurl]
  rw [if_pos (by omega), hnext, hsplit, parseParams_eq_scan segments hne hsegments]
  · rfl
  · simp only [List.length_append, List.length_singleton]
    omega
  · rwa [List.length_append, List.length_singleton]

theorem parseUri_of_lt {path : Str} {segments : List Str} {context : HttpContext}
    (hpath : '?' ∉ path) (hne : segments ≠ []) (hsegments : ∀ segment ∈ segments, '&' ∉ segment)
    (hlen : (path ++ '?' :: ['&'].intercalate segments).length < 2 ^ 31) :
    parseUri context (path ++ '?' :: ['&'].intercalate segments) =
      some { url := path, paramsMap := scan segments context.paramsMap } := by
  rw [List.length_append, List.length_cons] at hlen
  exact parseUri_of_mem hpath hne hsegments (by omega) (measured_of_lt (by omega))

theorem parseUri_of_not_mem {context : HttpContext} (huri : '?' ∉ uri)
    (hmeasured : Measured 0 (uri.splitOn '&')) :
    parseUri context uri =
      some { url := uri, paramsMap := scan (uri.splitOn '&') context.paramsMap } := by
  have hpos : find uri '?' 0 = -1 := find_zero_eq_neg_one huri
  have hfits := length_le_intercalate (uri.splitOn '&')
  have hscan : parseParams ([] ++ ['&'].intercalate (uri.splitOn '&')) (uri.length + 1)
      ([] : Str).length context.paramsMap = some (scan (uri.splitOn '&') context.paramsMap) := by
    apply parseParams_eq_scan _ (List.splitOn_ne_nil '&' uri)
    · intro segment hsegment
      exact not_mem_of_mem_splitOn hsegment
    · rwa [List.intercalate_splitOn] at hfits
    · exact hmeasured
  rw [List.intercalate_splitOn] at hscan
  -- The scan begins at the front, one behind the `-1` of the `?`.
  have hzero : parseParams uri (uri.length + 1) (toInt32 (-1 + 1)) context.paramsMap = _ := hscan
  unfold parseUri
  simp only [hpos, hzero]
  rfl

/-! ### Encoded parameters come back -/

theorem intercalate_cons_eq_append (segment : Str) (segments : List Str) :
    ∃ more, ['&'].intercalate (segment :: segments) = segment ++ more := by
  cases segments with
  | nil => exact ⟨[], by simp⟩
  | cons second segments =>
      exact ⟨['&'] ++ ['&'].intercalate (second :: segments), by
        rw [List.intercalate_cons_cons, List.append_assoc]⟩

theorem scan_pair (hkey : '=' ∉ key) (segments : List Str) :
    scan ((key ++ '=' :: value) :: segments) paramsMap =
      scan segments (Function.update paramsMap key (some value)) := by
  obtain ⟨more, htext⟩ := intercalate_cons_eq_append (key ++ '=' :: value) segments
  rw [List.append_assoc, List.cons_append] at htext
  have hmem : '=' ∈ key ++ '=' :: value := List.mem_append_right key List.mem_cons_self
  simp only [scan, htext]
  rw [if_pos (List.mem_append_right key List.mem_cons_self), if_pos hmem, before_append hkey,
    after_append hkey]

theorem scan_pairs (pairs : List (Str × Str)) (hpairs : ∀ pair ∈ pairs, '=' ∉ pair.1)
    (segments : List Str) (paramsMap : ParamsMap) :
    scan (pairs.map (fun pair => pair.1 ++ '=' :: pair.2) ++ segments) paramsMap =
      scan segments (assignAll paramsMap pairs) := by
  induction pairs generalizing paramsMap with
  | nil => rfl
  | cons pair pairs ih =>
      obtain ⟨hkey, hrest⟩ := List.forall_mem_cons.mp hpairs
      rw [List.map_cons, List.cons_append, scan_pair hkey, ih hrest]
      rfl

theorem segments_of_pairs {pairs : List (Str × Str)}
    (hpairs : ∀ pair ∈ pairs, '=' ∉ pair.1 ∧ '&' ∉ pair.1 ∧ '&' ∉ pair.2) :
    ∀ segment ∈ pairs.map fun pair => pair.1 ++ '=' :: pair.2, '&' ∉ segment := by
  intro segment hsegment
  obtain ⟨pair, hpair, rfl⟩ := List.mem_map.mp hsegment
  obtain ⟨-, hkey, hvalue⟩ := hpairs pair hpair
  simp [hkey, hvalue]

theorem intercalate_concat_nil (segments : List Str) (hne : segments ≠ []) :
    ['&'].intercalate (segments ++ [[]]) = ['&'].intercalate segments ++ ['&'] := by
  induction segments with
  | nil => exact absurd rfl hne
  | cons segment segments ih =>
      cases segments with
      | nil => simp [List.intercalate_cons_cons]
      | cons second segments =>
          have htail := ih (List.cons_ne_nil second segments)
          rw [List.cons_append] at htail
          simp only [List.cons_append, List.intercalate_cons_cons, List.append_assoc, htail]

/-- A number of pairs, which may be none. -/
theorem parseUri_pairs {path : Str} {pairs : List (Str × Str)} (hpath : '?' ∉ path)
    (hpairs : ∀ pair ∈ pairs, '=' ∉ pair.1 ∧ '&' ∉ pair.1 ∧ '&' ∉ pair.2)
    (hlen : (path ++ '?' :: encode pairs).length < 2 ^ 31) :
    parseUri new (path ++ '?' :: encode pairs) =
      some { url := path, paramsMap := assignAll (fun _ => none) pairs } := by
  by_cases hne : pairs = []
  · subst hne
    have hparse : parseUri new (path ++ '?' :: ['&'].intercalate [[]]) = _ :=
      parseUri_of_lt hpath (List.cons_ne_nil [] []) (by simp) hlen
    exact hparse
  · have hscan := scan_pairs pairs (fun pair hpair => (hpairs pair hpair).1) [] new.paramsMap
    rw [List.append_nil] at hscan
    rw [encode, parseUri_of_lt hpath (by simpa using hne) (segments_of_pairs hpairs) hlen, hscan]
    rfl

/-- **Encoded parameters come back.** A trailing `&` adds nothing to them, and neither does a `?` with
nothing behind it. -/
theorem parseUri_encode (path : Str) (pairs : List (Str × Str)) (hpath : '?' ∉ path)
    (hne : pairs ≠ [])
    (hpairs : ∀ pair ∈ pairs, '=' ∉ pair.1 ∧ '&' ∉ pair.1 ∧ '&' ∉ pair.2) :
    ((path ++ '?' :: encode pairs).length < 2 ^ 31 →
      parseUri new (path ++ '?' :: encode pairs) =
        some { url := path, paramsMap := assignAll (fun _ => none) pairs }) ∧
    ((path ++ '?' :: (encode pairs ++ ['&'])).length < 2 ^ 31 →
      parseUri new (path ++ '?' :: (encode pairs ++ ['&'])) =
        some { url := path, paramsMap := assignAll (fun _ => none) pairs }) ∧
    ((path ++ ['?']).length < 2 ^ 31 →
      parseUri new (path ++ ['?']) = some { url := path, paramsMap := fun _ => none }) := by
  refine ⟨parseUri_pairs hpath hpairs, fun hlen => ?_, ?_⟩
  · have hmap : (pairs.map fun pair => pair.1 ++ '=' :: pair.2) ≠ [] := by simpa using hne
    rw [encode, ← intercalate_concat_nil _ hmap] at hlen ⊢
    rw [parseUri_of_lt hpath (by simp) _ hlen, scan_pairs pairs fun pair hpair => (hpairs pair hpair).1]
    · rfl
    · intro segment hsegment
      rcases List.mem_append.mp hsegment with hmem | hmem
      · exact segments_of_pairs hpairs segment hmem
      · rw [List.mem_singleton.mp hmem]
        exact List.not_mem_nil
  · intro hlen
    have hempty := parseUri_pairs hpath (List.forall_mem_nil _) hlen
    exact hempty

/-- The second value of a key counts, with the `=` and the `?` that it contains. -/
theorem parseUri_encode_two :
    parseUri new "/p?k=1&k=a=?".toList =
      some { url := "/p".toList
             paramsMap := assignAll (fun _ => none)
               [("k".toList, "1".toList), ("k".toList, "a=?".toList)] } :=
  (parseUri_encode "/p".toList [("k".toList, "1".toList), ("k".toList, "a=?".toList)] (by decide)
    (by decide) (by decide)).1 (by decide)

/-! ### Parameters that leave their segment -/

theorem mem_intercalate {segments : List Str} :
    '=' ∈ ['&'].intercalate segments ↔ ∃ segment ∈ segments, '=' ∈ segment := by
  induction segments with
  | nil => simp
  | cons segment segments ih =>
      cases segments with
      | nil => simp
      | cons second segments =>
          rw [List.intercalate_cons_cons, List.mem_append, List.mem_append, ih]
          simp

theorem scan_of_not_mem {segments : List Str} (h : '=' ∉ ['&'].intercalate segments) :
    scan segments paramsMap = paramsMap := by
  cases segments with
  | nil => rfl
  | cons segment segments => simp only [scan, if_neg h]

theorem scan_ne_none {segments : List Str} (hkey : paramsMap key ≠ none) :
    scan segments paramsMap key ≠ none := by
  induction segments generalizing paramsMap with
  | nil => exact hkey
  | cons segment segments ih =>
      simp only [scan]
      split
      · apply ih
        by_cases heq : key = before '=' (['&'].intercalate (segment :: segments))
        · rw [← heq, Function.update_self]
          exact Option.some_ne_none _
        · rwa [Function.update_of_ne heq]
      · exact hkey

theorem scan_before_ne_none {segments : List Str}
    (h : '=' ∈ ['&'].intercalate (segment :: segments)) (paramsMap : ParamsMap) :
    scan (segment :: segments) paramsMap (before '=' (['&'].intercalate (segment :: segments))) ≠
      none := by
  simp only [scan, if_pos h]
  apply scan_ne_none
  rw [Function.update_self]
  exact Option.some_ne_none _

theorem scan_of_pairwise {segments : List Str}
    (h : segments.Pairwise fun earlier later => '=' ∈ later → '=' ∈ earlier)
    (hscan : scan segments paramsMap key = some value) :
    paramsMap key = some value ∨ key ++ '=' :: value ∈ segments ∧ '=' ∉ key := by
  induction segments generalizing paramsMap with
  | nil => exact Or.inl hscan
  | cons segment segments ih =>
      obtain ⟨hfirst, hrest⟩ := List.pairwise_cons.mp h
      by_cases hmem : '=' ∈ ['&'].intercalate (segment :: segments)
      · have hsegment : '=' ∈ segment := by
          obtain ⟨later, hlater, heq⟩ := mem_intercalate.mp hmem
          rcases List.mem_cons.mp hlater with rfl | hlater
          · exact heq
          · exact hfirst later hlater heq
        obtain ⟨key', value', rfl, hkey'⟩ := List.eq_append_cons_of_mem hsegment
        rw [scan_pair hkey'] at hscan
        rcases ih hrest hscan with hupdate | ⟨hlater, hkey⟩
        · by_cases heq : key = key'
          · subst heq
            rw [Function.update_self, Option.some.injEq] at hupdate
            subst hupdate
            exact Or.inr ⟨List.mem_cons_self, hkey'⟩
          · rw [Function.update_of_ne heq] at hupdate
            exact Or.inl hupdate
        · exact Or.inr ⟨List.mem_cons_of_mem _ hlater, hkey⟩
      · rw [scan_of_not_mem hmem] at hscan
        exact Or.inl hscan

theorem scan_of_not_pairwise {segments : List Str}
    (h : ¬ segments.Pairwise fun earlier later => '=' ∈ later → '=' ∈ earlier)
    (paramsMap : ParamsMap) : ∃ key, '&' ∈ key ∧ scan segments paramsMap key ≠ none := by
  induction segments generalizing paramsMap with
  | nil => exact absurd List.Pairwise.nil h
  | cons segment segments ih =>
      by_cases hfirst : ∀ later ∈ segments, '=' ∈ later → '=' ∈ segment
      · -- The first segment is in order, so there is a `=` left for the loop to go on.
        have hrest : ¬ segments.Pairwise fun earlier later => '=' ∈ later → '=' ∈ earlier :=
          fun hpairwise => h (List.pairwise_cons.mpr ⟨hfirst, hpairwise⟩)
        have hmem : '=' ∈ ['&'].intercalate (segment :: segments) := by
          by_contra hnot
          have hnone : ∀ later ∈ segments, '=' ∉ later := fun later hlater heq =>
            hnot (mem_intercalate.mpr ⟨later, List.mem_cons_of_mem _ hlater, heq⟩)
          apply hrest
          exact List.pairwise_of_forall_mem_list fun _ _ later hlater heq =>
            absurd heq (hnone later hlater)
        simp only [scan, if_pos hmem]
        exact ih hrest _
      · push Not at hfirst
        obtain ⟨later, hlater, heq, hnot⟩ := hfirst
        have hmem : '=' ∈ ['&'].intercalate (segment :: segments) :=
          mem_intercalate.mpr ⟨later, List.mem_cons_of_mem _ hlater, heq⟩
        refine ⟨_, ?_, scan_before_ne_none hmem paramsMap⟩
        obtain ⟨second, segments, rfl⟩ := List.exists_cons_of_ne_nil (List.ne_nil_of_mem hlater)
        rw [List.intercalate_cons_cons, List.append_assoc, List.singleton_append] at hmem ⊢
        obtain ⟨key, value, htext, hkey⟩ := List.eq_append_cons_of_mem hmem
        obtain ⟨middle, rfl⟩ := key_of_not_mem hnot htext
        rw [htext, before_append hkey]
        exact List.mem_append_right segment List.mem_cons_self

theorem confined_iff_of_mem {path query : Str} (hpath : '?' ∉ path) :
    Confined (path ++ '?' :: query)
        { url := path, paramsMap := scan (query.splitOn '&') fun _ => none } ↔
      Orderly (path ++ '?' :: query) := by
  have hmem : '?' ∈ path ++ '?' :: query := List.mem_append_right path List.mem_cons_self
  rw [Orderly, if_pos hmem, after_append hpath]
  constructor
  · intro hconfined
    by_contra hnot
    obtain ⟨key, hkey, hsome⟩ := scan_of_not_pairwise hnot fun _ => none
    obtain ⟨value, hvalue⟩ := Option.ne_none_iff_exists'.mp hsome
    exact (hconfined key value hvalue).2.2.2.1 hkey
  · intro hpairwise key value hvalue
    rcases scan_of_pairwise hpairwise hvalue with hnone | ⟨hsegment, hkey⟩
    · cases hnone
    · have hamp := not_mem_of_mem_splitOn hsegment
      rw [after_append hpath]
      refine ⟨hmem, hsegment, hkey, fun hin => hamp ?_, fun hin => hamp ?_⟩
      · exact List.mem_append_left _ hin
      · exact List.mem_append_right key (List.mem_cons_of_mem _ hin)

theorem confined_iff_of_not_mem (huri : '?' ∉ uri) :
    Confined uri { url := uri, paramsMap := scan (uri.splitOn '&') fun _ => none } ↔
      Orderly uri := by
  rw [Orderly, if_neg huri]
  constructor
  · intro hconfined hmem
    obtain ⟨segment, segments, hsplit⟩ := List.exists_cons_of_ne_nil (List.splitOn_ne_nil '&' uri)
    have hjoin : ['&'].intercalate (uri.splitOn '&') = uri := List.intercalate_splitOn '&'
    rw [← hjoin, hsplit] at hmem
    have hsome := scan_before_ne_none hmem fun _ => none
    rw [← hsplit] at hsome
    obtain ⟨value, hvalue⟩ := Option.ne_none_iff_exists'.mp hsome
    exact huri (hconfined _ value hvalue).1
  · intro hnot key value hvalue
    rw [scan_of_not_mem (by rwa [List.intercalate_splitOn])] at hvalue
    cases hvalue

/-- **Parameters stay in their segments exactly in the orderly URIs**, of those whose positions the scan can
hold. -/
theorem parseUri_confined_iff (uri : Str) (hreach : InReach uri) :
    ∃ context, parseUri new uri = some context ∧ (context.Confined uri ↔ Orderly uri) := by
  by_cases hmem : '?' ∈ uri
  · rw [InReach, if_pos hmem] at hreach
    obtain ⟨path, query, rfl, hpath⟩ := List.eq_append_cons_of_mem hmem
    rw [before_append hpath, after_append hpath] at hreach
    have hjoin : ['&'].intercalate (query.splitOn '&') = query := List.intercalate_splitOn '&'
    have hparse : parseUri new (path ++ '?' :: ['&'].intercalate (query.splitOn '&')) = _ :=
      parseUri_of_mem hpath (List.splitOn_ne_nil '&' query)
        (fun _ hsegment => not_mem_of_mem_splitOn hsegment) hreach.1 hreach.2
    rw [hjoin] at hparse
    exact ⟨_, hparse, confined_iff_of_mem hpath⟩
  · rw [InReach, if_neg hmem] at hreach
    exact ⟨_, parseUri_of_not_mem hmem hreach, confined_iff_of_not_mem hmem⟩

/-- The key of `/p?x=1&y=2&z` stays inside although its last segment has no `=`. -/
theorem parseUri_confined_of_trailing :
    ∃ context, parseUri new "/p?x=1&y=2&z".toList = some context ∧
      context.Confined "/p?x=1&y=2&z".toList := by
  obtain ⟨context, hparse, hiff⟩ := parseUri_confined_iff "/p?x=1&y=2&z".toList (by decide)
  exact ⟨context, hparse, hiff.mpr (by decide)⟩

/-- A segment without a `=` makes the next key run across the `&`, and a path is taken for a query when
there is none. -/
theorem parseUri_not_confined :
    (∃ context, parseUri new "/?a&b=1".toList = some context ∧
      context.paramsMap "a&b".toList = some "1".toList ∧ ¬ context.Confined "/?a&b=1".toList) ∧
    ∃ context, parseUri new "/a=b".toList = some context ∧
      context.paramsMap "/a".toList = some "b".toList ∧ ¬ context.Confined "/a=b".toList := by
  refine ⟨⟨_, rfl, by decide, fun hconfined => ?_⟩, ⟨_, rfl, by decide, fun hconfined => ?_⟩⟩
  · exact (hconfined "a&b".toList "1".toList (by decide)).2.2.2.1 (by decide)
  · exact absurd (hconfined "/a".toList "b".toList (by decide)).1 (by decide)

end EasyLib.Http.HttpContext
