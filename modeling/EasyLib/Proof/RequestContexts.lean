import EasyLib.Http.Request
import EasyLib.Proof.QueryParams
import Mathlib.Data.List.TakeWhile

/-!
# What a callback reads from a request

The parts of a request come through `Init` one by one. The copy of the body goes piece by piece, and what is
lost of a piece is what stands behind the first null character in it, whatever the array holds behind the
piece. So the copy is a part of the body, and the whole of it exactly when there is no null character.
-/

namespace EasyLib.Http

open Common CppString

namespace RequestContext

variable {request : Request} {context : RequestContext} {behind : ℕ → Str}

/-! ### The body -/

theorem ofCharPtr_sublist (memory : Str) : (ofCharPtr memory).Sublist memory :=
  List.takeWhile_sublist _

theorem ofCharPtr_eq_self_iff {memory : Str} : ofCharPtr memory = memory ↔ nullChar ∉ memory := by
  rw [ofCharPtr, List.takeWhile_eq_self_iff]
  constructor
  · intro hall hmem
    exact of_decide_eq_true (hall nullChar hmem) rfl
  · intro hnot c hc
    exact decide_eq_true fun heq => hnot (heq ▸ hc)

/-- What lies behind the piece does not get into the copy. -/
theorem take_ofCharPtr_append (piece garbage : Str) :
    (ofCharPtr (piece ++ garbage)).take piece.length = ofCharPtr piece := by
  induction piece with
  | nil => rfl
  | cons c piece ih =>
      by_cases hc : c = nullChar
      · rw [ofCharPtr, ofCharPtr, List.cons_append, List.takeWhile_cons_of_neg (by simp [hc]),
          List.takeWhile_cons_of_neg (by simp [hc]), List.take_nil]
      · rw [ofCharPtr, ofCharPtr, List.cons_append, List.takeWhile_cons_of_pos (by simp [hc]),
          List.takeWhile_cons_of_pos (by simp [hc]), List.length_cons, List.take_succ_cons]
        exact congrArg (c :: ·) ih

/-- The copy of a part of the body. -/
structure Copied (part copy : Str) : Prop where
  sublist : copy.Sublist part
  whole : copy = part ↔ nullChar ∉ part

theorem copied_nil : Copied [] [] := ⟨List.Sublist.refl [], by simp⟩

theorem copied_ofCharPtr (piece : Str) : Copied piece (ofCharPtr piece) :=
  ⟨ofCharPtr_sublist piece, ofCharPtr_eq_self_iff⟩

theorem Copied.append {part copy more moreCopy : Str} (h : Copied part copy)
    (hmore : Copied more moreCopy) : Copied (part ++ more) (copy ++ moreCopy) := by
  refine ⟨h.sublist.append hmore.sublist, ?_⟩
  rw [List.mem_append, not_or, ← h.whole, ← hmore.whole]
  constructor
  · intro heq
    -- Neither copy is longer than its part, so that both are as long.
    have hlength := congrArg List.length heq
    have hle := h.sublist.length_le
    have hle' := hmore.sublist.length_le
    rw [List.length_append, List.length_append] at hlength
    exact ⟨h.sublist.eq_of_length (by omega), hmore.sublist.eq_of_length (by omega)⟩
  · rintro ⟨rfl, rfl⟩
    rfl

theorem bodyRound_of_ne_nil {buf : Str} (hne : buf ≠ []) (body : Str) :
    bodyRound behind (buf, body) = .inl (buf.drop 127, body ++ ofCharPtr (buf.take 127)) := by
  have hlength : 0 < buf.length := List.length_pos_of_ne_nil hne
  have hn : 0 < min buf.length (128 - 1) := lt_min hlength (by omega)
  have htake : buf.take (min buf.length 127) = buf.take 127 := by
    rw [Nat.min_comm, ← List.take_eq_take_min]
  have hdrop : buf.drop (min buf.length 127) = buf.drop 127 := by
    obtain hle | hle := Nat.le_total buf.length 127
    · rw [Nat.min_eq_left hle, List.drop_length, List.drop_eq_nil_of_le hle]
    · rw [Nat.min_eq_right hle]
  have hcopy := take_ofCharPtr_append (buf.take 127) (behind buf.length)
  rw [List.length_take, Nat.min_comm] at hcopy
  simp only [bodyRound]
  rw [if_pos hlength.ne', if_pos hn]
  simp only [Nat.reduceSub]
  rw [htake, hdrop, hcopy]

theorem iterate_bodyRound (behind : ℕ → Str) (buffer : Str) :
    ∃ body, Loop.iterate (bodyRound behind) (buffer.length + 1) (buffer, []) = some body ∧
      Copied buffer body := by
  apply Loop.iterate_of_measure (fun state => ∃ part, part ++ state.1 = buffer ∧ Copied part state.2)
    (Copied buffer) (fun state => state.1.length)
  · rintro ⟨buf, body⟩ next ⟨part, hpart, hcopied⟩ hround
    have hne : buf ≠ [] := by
      rintro rfl
      cases hround
    rw [bodyRound_of_ne_nil hne] at hround
    obtain rfl := Sum.inl.inj hround
    refine ⟨⟨part ++ buf.take 127, ?_, hcopied.append (copied_ofCharPtr _)⟩, ?_⟩
    · rw [List.append_assoc, List.take_append_drop, hpart]
    · have hlength := List.length_pos_of_ne_nil hne
      simp only [List.length_drop]
      omega
  · rintro ⟨buf, body⟩ result ⟨part, hpart, hcopied⟩ hround
    have hnil : buf = [] := by
      by_contra hne
      rw [bodyRound_of_ne_nil hne] at hround
      cases hround
    subst hnil
    obtain rfl := Sum.inr.inj hround
    rw [← hpart, List.append_nil]
    exact hcopied
  · exact ⟨[], rfl, copied_nil⟩
  · exact Nat.lt_succ_self _

/-! ### The maps -/

theorem assignAll_eq_lookup (map : ParamsMap) (pairs : List (Str × Str)) (name : Str) :
    assignAll map pairs name = (pairs.reverse.lookup name).or (map name) := by
  induction pairs generalizing map with
  | nil => rfl
  | cons pair pairs ih =>
      have hcons : assignAll map (pair :: pairs) =
          assignAll (Function.update map pair.1 (some pair.2)) pairs := rfl
      rw [hcons, ih, List.reverse_cons, List.lookup_append, Option.or_assoc]
      congr 1
      by_cases hname : name = pair.1
      · rw [hname, Function.update_self, List.lookup_cons, beq_self_eq_true]
        rfl
      · have hbeq : (name == pair.1) = false := beq_eq_false_iff_ne.mpr hname
        rw [Function.update_of_ne hname, List.lookup_cons, hbeq]
        rfl

theorem getD_assignAll (pairs : List (Str × Str)) (name : Str) :
    (assignAll (fun _ => none) pairs name).getD [] = lastValue pairs name := by
  rw [assignAll_eq_lookup, Option.or_none, lastValue]

/-! ### The URI -/

theorem parseUri_url {uri : Str} (context : HttpContext) (hlen : uri.length < 2 ^ 31) :
    ∃ paramsMap, context.parseUri uri = some { url := before '?' uri, paramsMap } := by
  by_cases hmem : '?' ∈ uri
  · obtain ⟨path, query, rfl, hpath⟩ := List.eq_append_cons_of_mem hmem
    have hjoin : ['&'].intercalate (query.splitOn '&') = query := List.intercalate_splitOn '&'
    rw [before_append hpath]
    rw [← hjoin] at hlen ⊢
    exact ⟨_, HttpContext.parseUri_of_lt hpath (List.splitOn_ne_nil '&' query)
      (fun _ hsegment => not_mem_of_mem_splitOn hsegment) hlen⟩
  · have hbefore : before '?' uri = uri := by
      rw [before, List.takeWhile_eq_self_iff]
      exact fun c hc => decide_eq_true fun heq => hmem (heq ▸ hc)
    rw [hbefore]
    have hmeasured : HttpContext.Measured 0 (uri.splitOn '&') := by
      apply HttpContext.measured_of_lt
      rwa [Nat.zero_add, List.intercalate_splitOn]
    exact ⟨_, HttpContext.parseUri_of_not_mem hmem hmeasured⟩

/-! ### The whole request -/

theorem init_faithful (behind : ℕ → Str) (hlen : request.uri.length < 2 ^ 31) :
    ∃ context, init behind new request = some context ∧ Faithful request context := by
  obtain ⟨paramsMap, hparse⟩ := parseUri_url HttpContext.new hlen
  obtain ⟨body, hbody, hcopied⟩ := iterate_bodyRound behind request.inputBuffer
  have hparse' : new.parseUri request.uri = some ⟨before '?' request.uri, paramsMap⟩ := hparse
  have hbody' : Loop.iterate (bodyRound behind) (request.inputBuffer.length + 1)
      (request.inputBuffer, new.body) = some body := hbody
  refine ⟨⟨⟨before '?' request.uri, paramsMap⟩, assignAll (fun _ => none) request.inputHeaders, body⟩,
    ?_, rfl, ?_, ?_, hcopied.whole, hcopied.sublist⟩
  · simp only [init, hparse', hbody', Option.bind_eq_bind, Option.bind_some]
    rfl
  · intro path pairs huri hpath hpairs name
    rw [huri] at hparse hlen
    rw [HttpContext.parseUri_pairs hpath hpairs hlen] at hparse
    obtain ⟨-, rfl⟩ := HttpContext.mk.inj (Option.some.inj hparse)
    exact getD_assignAll pairs name
  · exact getD_assignAll request.inputHeaders

end RequestContext

namespace Registered

variable {CallBack : Type} {service : Registered CallBack} {request : Request} {callback : CallBack}

/-- **Requests reach their callbacks.** Each request is handed, once, to the callback registered for its
URI up to the `?`, or to the default callback, with a context that tells what the request says. -/
theorem requests_reach_callbacks (behind : ℕ → Str) (hlen : request.uri.length < 2 ^ 31)
    (hdefault : service.defaultCallback = some callback) :
    ∃ context, service.genericCallBack behind request =
        some ((service.callbackMap (before '?' request.uri)).getD callback, context) ∧
      context.Faithful request := by
  obtain ⟨context, hinit, hfaithful⟩ := RequestContext.init_faithful behind hlen
  refine ⟨context, ?_, hfaithful⟩
  simp only [genericCallBack, hinit, hfaithful.url, Option.bind_eq_bind, Option.bind_some]
  cases service.callbackMap (before '?' request.uri) with
  | some registered => rfl
  | none =>
      rw [hdefault]
      rfl

/-- A service with one processor besides the default one, and a request whose body holds a null
character. -/
theorem requests_reach_callbacks_echo :
    let service := (new.registerDefaultCallback false).registerRequestCallback "/echo".toList true
    let request : Request :=
      { uri := "/echo?k=v".toList
        inputHeaders := [("Host".toList, "a".toList), ("Host".toList, "b".toList)]
        inputBuffer := ['x', RequestContext.nullChar, 'y'] }
    ∃ context, service.genericCallBack (fun _ => []) request = some (true, context) ∧
      context.getParamValue "k".toList = "v".toList ∧ context.getHeaderValue "Host".toList = "b".toList ∧
      context.body ≠ request.inputBuffer := by
  intro service request
  have hlen : request.uri.length < 2 ^ 31 := by decide
  have hdefault : service.defaultCallback = some false := rfl
  obtain ⟨context, hcalled, hfaithful⟩ := requests_reach_callbacks (fun _ => []) hlen hdefault
  have hregistered : (service.callbackMap (before '?' request.uri)).getD false = true := by decide
  rw [hregistered] at hcalled
  refine ⟨context, hcalled, ?_, ?_, ?_⟩
  · have huri : request.uri = "/echo".toList ++ '?' :: HttpContext.encode [("k".toList, "v".toList)] := by
      decide
    rw [hfaithful.params _ _ huri (by decide) (by decide)]
    decide
  · rw [hfaithful.headers]
    decide
  · intro hbody
    exact hfaithful.body.mp hbody (by decide)

end Registered

end EasyLib.Http
