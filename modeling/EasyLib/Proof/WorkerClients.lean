import EasyLib.Easytcp.Worker
import EasyLib.Proof.ClientWrites
import Mathlib.Data.List.Nodup
import Mathlib.Data.List.Perm.Basic

/-!
# The clients of a worker thread

`EventFlag` says at any time which events of a client are in the base, so its destructor takes out all that
are there, and no callback finds a client that was freed. `OnRead` frees a client only while its `OnWrite` is
not running, as callbacks are not nested. The pipe holds whole records, so no read is cut short.
-/

namespace EasyLib.Easytcp

open scoped List

/-! ### One client -/

namespace Client

variable {client next : Client} {label : Label}

def Flagged (client : Client) : Prop := client.eventFlag = if client.pending then 3 else 1

theorem Flagged.setWriteEvent (h : client.Flagged) : client.setWriteEvent.Flagged := by
  rw [Flagged, Client.setWriteEvent, h]
  cases client.pending <;> rfl

theorem Flagged.onWrite (h : client.Flagged) : client.onWrite.Flagged := by
  rw [Flagged, Client.onWrite, h]
  cases client.pending <;> rfl

theorem Flagged.of_eq (h : client.Flagged) (hflag : next.eventFlag = client.eventFlag)
    (hpending : next.pending = client.pending) : next.Flagged := by
  rw [Flagged, hflag, hpending]
  exact h

theorem step_flagged (h : client.Flagged) (hstep : client.step label = some next) : next.Flagged := by
  cases label with
  | send data =>
      rcases step_send_eq_some hstep with ⟨-, rfl⟩ | ⟨-, rfl⟩
      · exact h
      · exact Flagged.setWriteEvent h
  | onWrite =>
      obtain ⟨-, hnext⟩ := Option.ite_none_right_eq_some.mp hstep
      rw [← Option.some.inj hnext]
      exact h.onWrite
  | onSend result =>
      cases result with
      | accepted count =>
          obtain ⟨desc, rest, -, ⟨-, rfl⟩ | ⟨-, rfl⟩⟩ := onSend_accepted_eq_some hstep
          · exact Flagged.setWriteEvent h
          · exact h.of_eq rfl rfl
      | overrun taken =>
          obtain ⟨desc, rest, -, -, rfl⟩ := onSend_overrun_eq_some hstep
          exact Flagged.setWriteEvent h
      | again =>
          obtain ⟨-, hsend⟩ := Option.ite_none_right_eq_some.mp hstep
          obtain ⟨-, hnext⟩ := Option.ite_none_left_eq_some.mp hsend
          rw [← Option.some.inj hnext]
          exact h.setWriteEvent.of_eq rfl rfl
      | error =>
          obtain ⟨-, hsend⟩ := Option.ite_none_right_eq_some.mp hstep
          obtain ⟨-, hnext⟩ := Option.ite_none_left_eq_some.mp hsend
          rw [← Option.some.inj hnext]
          exact h.of_eq rfl rfl
  | finish =>
      obtain ⟨-, hnext⟩ := Option.ite_none_right_eq_some.mp hstep
      rw [← Option.some.inj hnext]
      exact h.of_eq rfl rfl

/-- A client that is neither writing nor about to be told that it can write only takes a `Send`. -/
theorem step_eq_none (hpending : client.pending = false) (hwriting : client.writing = false)
    (hlabel : ∀ data, label ≠ .send data) : client.step label = none := by
  cases label with
  | send data => exact absurd rfl (hlabel data)
  | onWrite | onSend result | finish => simp [step, hpending, hwriting]

end Client

namespace Served

variable {c : Served}

/-- What holds of a client that exists, and of one that was freed. -/
structure Kept (c : Served) : Prop where
  live : c.freed = false → c.reading = true ∧ c.client.Flagged
  dead : c.freed = true → c.reading = false ∧ c.client.pending = false ∧ c.client.writing = false

theorem new_kept (fd : BitVec 32) : (new fd).Kept := by
  refine ⟨fun _ => ⟨rfl, rfl⟩, fun hfreed => ?_⟩
  cases hfreed

theorem Kept.delete (h : c.Kept) (hfreed : c.freed = false) (hwriting : c.client.writing = false) :
    c.delete.Kept := by
  have hflag : c.client.eventFlag = if c.client.pending then 3 else 1 := (h.live hfreed).2
  refine ⟨fun hlive => Bool.noConfusion hlive, fun _ => ⟨?_, ?_, hwriting⟩⟩
  · simp only [Served.delete, hflag]
    cases c.client.pending <;> rfl
  · simp only [Served.delete, hflag]
    cases c.client.pending <;> rfl

theorem Kept.set_client {client : Client} {label : Client.Label} (h : c.Kept) (hfreed : c.freed = false)
    (hstep : c.client.step label = some client) : Kept { c with client } := by
  obtain ⟨hreading, hflagged⟩ := h.live hfreed
  refine ⟨fun _ => ⟨hreading, Client.step_flagged hflagged hstep⟩, fun hdead => ?_⟩
  exact absurd (hfreed.symm.trans hdead) Bool.false_ne_true

end Served

/-- An element of a list in its place. -/
theorem exists_split {α : Type*} {list : List α} {index : ℕ} {a : α} (h : list[index]? = some a) :
    ∃ before after, list = before ++ a :: after ∧
      ∀ b, list.set index b = before ++ b :: after := by
  obtain ⟨hlt, hget⟩ := List.getElem?_eq_some_iff.mp h
  have hset : ∀ b, list.set index b = list.take index ++ b :: list.drop (index + 1) := by
    intro b
    rw [List.set_eq_take_append_cons_drop, if_pos hlt]
  refine ⟨_, _, ?_, hset⟩
  rw [← hset a, ← hget, List.set_getElem_self]

/-! ### The thread -/

namespace Thread

variable {s next : Thread} {label : Label} {id : ℕ} {c : Served}

/-- The thread, with the records it has still to read. -/
structure Sound (records : List ConnInfo) (s : Thread) : Prop where
  kept : ∀ c ∈ s.clients, c.Kept
  writing : ∀ id c, s.clients[id]? = some c → (c.client.writing = true ↔ s.activity = .writing id)
  given : s.given = s.taken.map Prod.fst ++ records
  whole : s.torn = 0
  made : s.clients.map Served.fd = (s.taken.filter Prod.snd).map fun entry => entry.1.fd
  apart : (s.openFds.filter (· ≠ -1)).Nodup
  valid : -1 ∉ s.clients.filterMap Served.liveFd
  closed : s.closed ~ (s.clients.filter Served.freed).map Served.fd

def Inv (s : Thread) : Prop := ∃ records, s.pipe = ConnInfo.records.stream records ∧ s.Sound records

variable {info : ConnInfo} {records : List ConnInfo} {nonBlocking : Bool}

theorem new_sound : new.Sound [] where
  kept := fun _ hc => by cases hc
  writing := fun _ _ hc => by cases hc
  given := rfl
  whole := rfl
  made := rfl
  apart := List.nodup_nil
  valid := List.not_mem_nil
  closed := .rfl

/-! ### The records -/

theorem waiting_eq (h : s.given = s.taken.map Prod.fst ++ records) : s.waiting = records := by
  rw [waiting, h]
  exact List.drop_left' (List.length_map ..)

theorem Sound.write {pipe : List UInt8} (h : s.Sound records)
    (hfree : info.fd = -1 ∨ info.fd ∉ s.openFds) :
    Sound (records ++ [info]) { s with pipe, given := s.given ++ [info] } := by
  have hgiven : s.given ++ [info] = s.taken.map Prod.fst ++ (records ++ [info]) := by
    rw [← List.append_assoc, ← h.given]
  have hopen : openFds { s with pipe, given := s.given ++ [info] } = s.openFds ++ [info.fd] := by
    have hwaiting : waiting { s with pipe, given := s.given ++ [info] } = records ++ [info] :=
      waiting_eq hgiven
    rw [openFds, openFds, hwaiting, waiting_eq h.given, List.map_append, ← List.append_assoc]
    rfl
  refine ⟨h.kept, h.writing, hgiven, h.whole, h.made, ?_, h.valid, h.closed⟩
  rw [hopen, List.filter_append]
  by_cases hfd : info.fd = -1
  · simpa [hfd] using h.apart
  · have hnot : info.fd ∉ s.openFds.filter (· ≠ -1) :=
      fun hmem => hfree.resolve_left hfd (List.mem_of_mem_filter hmem)
    have hsingle : [info.fd].filter (· ≠ -1) = [info.fd] :=
      List.filter_cons_of_pos (decide_eq_true hfd)
    rw [hsingle, ← List.concat_eq_append]
    exact h.apart.concat hnot

theorem given_processNewConnect (hgiven : s.given = s.taken.map Prod.fst ++ info :: records) :
    (s.processNewConnect info nonBlocking).given =
      (s.processNewConnect info nonBlocking).taken.map Prod.fst ++ records := by
  simp only [processNewConnect, List.map_append, List.append_assoc]
  exact hgiven

/-- The descriptor of the record goes from the pipe to a new client, or to those that are left alone. -/
theorem openFds_processNewConnect (hgiven : s.given = s.taken.map Prod.fst ++ info :: records) :
    (s.processNewConnect info nonBlocking).openFds ~ s.openFds := by
  rw [openFds, openFds, waiting_eq hgiven, waiting_eq (given_processNewConnect hgiven)]
  cases nonBlocking with
  | false =>
      simp only [processNewConnect, List.filterMap_append, List.append_assoc]
      exact .rfl
  | true =>
      have hlive : [Served.new info.fd].filterMap Served.liveFd = [info.fd] := rfl
      have hrefused : [(info, true)].filterMap refusedFd = [] := rfl
      simp only [processNewConnect, if_true, List.filterMap_append, List.append_assoc, hlive, hrefused,
        List.append_nil, List.nil_append, List.cons_append]
      exact List.perm_middle.symm.append_left _

theorem getElem?_processNewConnect
    (hget : (s.processNewConnect info nonBlocking).clients[id]? = some c) :
    s.clients[id]? = some c ∨ nonBlocking = true ∧ c = .new info.fd := by
  cases nonBlocking with
  | false => exact .inl hget
  | true =>
      have hget : (s.clients ++ [.new info.fd])[id]? = some c := hget
      by_cases hlt : id < s.clients.length
      · rw [List.getElem?_append_left hlt] at hget
        exact .inl hget
      · rw [List.getElem?_append_right (not_lt.mp hlt)] at hget
        exact .inr ⟨rfl, List.mem_singleton.mp (List.mem_of_getElem? hget)⟩

/-- The first record is taken, for a new client or for none. -/
theorem Sound.processNewConnect (h : s.Sound (info :: records)) (hactivity : s.activity = .accepting)
    (hvalid : nonBlocking = true → info.fd ≠ -1) :
    (s.processNewConnect info nonBlocking).Sound records := by
  refine ⟨fun c hc => ?_, fun id c hget => ?_, given_processNewConnect h.given, h.whole, ?_,
    ((openFds_processNewConnect h.given).filter _).nodup_iff.mpr h.apart, ?_, ?_⟩
  · obtain ⟨id, hget⟩ := List.mem_iff_getElem?.mp hc
    rcases getElem?_processNewConnect hget with hold | ⟨-, rfl⟩
    · exact h.kept c (List.mem_of_getElem? hold)
    · exact Served.new_kept info.fd
  · rcases getElem?_processNewConnect hget with hold | ⟨-, rfl⟩
    · exact h.writing id c hold
    · exact iff_of_false Bool.false_ne_true (fun heq => by cases hactivity.symm.trans heq)
  · cases nonBlocking with
    | false =>
        simp only [Thread.processNewConnect, List.filter_append, List.map_append]
        exact h.made.trans (List.append_nil _).symm
    | true =>
        simp only [Thread.processNewConnect, if_true, List.filter_append, List.map_append]
        exact congrArg (· ++ [info.fd]) h.made
  · cases nonBlocking with
    | false => exact h.valid
    | true =>
        have hlive : [Served.new info.fd].filterMap Served.liveFd = [info.fd] := rfl
        simp only [Thread.processNewConnect, if_true, List.filterMap_append, hlive, List.mem_append,
          List.mem_singleton, not_or]
        exact ⟨h.valid, (hvalid rfl).symm⟩
  · cases nonBlocking with
    | false => exact h.closed
    | true =>
        have hfreed : [Served.new info.fd].filter Served.freed = [] := rfl
        simp only [Thread.processNewConnect, if_true, List.filter_append, hfreed, List.append_nil]
        exact h.closed

/-! ### The clients -/

theorem Sound.of_activity {activity : Activity} (h : s.Sound records)
    (hold : ∀ id, s.activity ≠ .writing id) (hnew : ∀ id, activity ≠ .writing id) :
    Sound records { s with activity } where
  kept := h.kept
  writing := fun id c hc => ((h.writing id c hc).trans (iff_false_intro (hold id))).trans
    (iff_false_intro (hnew id)).symm
  given := h.given
  whole := h.whole
  made := h.made
  apart := h.apart
  valid := h.valid
  closed := h.closed

theorem idle_ne_writing (hactivity : s.activity = .idle) : ∀ id, s.activity ≠ .writing id := by
  intro id heq
  cases hactivity.symm.trans heq

/-- What replaces a client in its place. -/
theorem getElem?_set {changed d : Served} {other : ℕ}
    (hget : (s.clients.set id changed)[other]? = some d) :
    other = id ∧ d = changed ∨ other ≠ id ∧ s.clients[other]? = some d := by
  by_cases heq : id = other
  · subst heq
    rw [List.getElem?_set_self'] at hget
    obtain ⟨_, -, hchanged⟩ := Option.map_eq_some_iff.mp hget
    exact .inl ⟨rfl, hchanged.symm⟩
  · rw [List.getElem?_set_ne heq] at hget
    exact .inr ⟨Ne.symm heq, hget⟩

/-- A client is freed: its descriptor leaves those that are open. -/
theorem Sound.delete (h : s.Sound records) (hget : s.clients[id]? = some c)
    (hfreed : c.freed = false) (hactivity : s.activity = .idle) :
    Sound records { s with clients := s.clients.set id c.delete, closed := s.closed ++ [c.fd] } := by
  obtain ⟨before, after, hclients, hset⟩ := exists_split hget
  have hwriting : c.client.writing = false := by
    rw [← Bool.not_eq_true, h.writing id c hget]
    exact idle_ne_writing hactivity id
  have hlive : c.liveFd = some c.fd := by rw [Served.liveFd, hfreed]; rfl
  have hsub : ((s.clients.set id c.delete).filterMap Served.liveFd).Sublist
      (s.clients.filterMap Served.liveFd) := by
    rw [hset, hclients, List.filterMap_append, List.filterMap_append,
      List.filterMap_cons_none (rfl : c.delete.liveFd = none), List.filterMap_cons_some hlive]
    exact (List.sublist_cons_self _ _).append_left _
  refine ⟨fun d hd => ?_, fun other d hd => ?_, h.given, h.whole, ?_, ?_, fun hmem => ?_, ?_⟩
  · obtain ⟨other, hother⟩ := List.mem_iff_getElem?.mp hd
    rcases getElem?_set hother with ⟨-, rfl⟩ | ⟨-, hold⟩
    · exact (h.kept c (List.mem_of_getElem? hget)).delete hfreed hwriting
    · exact h.kept d (List.mem_of_getElem? hold)
  · rcases getElem?_set hd with ⟨-, rfl⟩ | ⟨-, hold⟩
    · exact iff_of_false (by simpa [Served.delete] using hwriting) (idle_ne_writing hactivity other)
    · exact h.writing other d hold
  · have hmade := h.made
    rw [hclients] at hmade
    dsimp only
    rw [hset, ← hmade, List.map_append, List.map_append]
    rfl
  · refine List.Nodup.sublist (List.Sublist.filter _ ?_) h.apart
    exact (hsub.append_right _).append_right _
  · exact h.valid (hsub.mem hmem)
  · have hclosed := h.closed
    dsimp only
    rw [hclients, List.filter_append, List.filter_cons_of_neg (by simp [hfreed])] at hclosed
    rw [hset, List.filter_append, List.filter_cons_of_pos (rfl : c.delete.freed = true)]
    simp only [List.map_append, List.map_cons] at hclosed ⊢
    exact (hclosed.append_right _).trans (List.perm_append_singleton ..|>.trans List.perm_middle.symm)

/-- A function of a client that exists leaves the descriptors alone. -/
theorem Sound.set_client {client : Client} {step : Client.Label} {activity : Activity}
    (h : s.Sound records) (hget : s.clients[id]? = some c) (hfreed : c.freed = false)
    (hstep : c.client.step step = some client)
    (hself : client.writing = true ↔ activity = .writing id)
    (hothers : ∀ other, other ≠ id → (s.activity = .writing other ↔ activity = .writing other)) :
    Sound records { s with clients := s.clients.set id { c with client }, activity } := by
  obtain ⟨before, after, hclients, hset⟩ := exists_split hget
  have hlive : (s.clients.set id { c with client }).filterMap Served.liveFd =
      s.clients.filterMap Served.liveFd := by
    rw [hset, hclients, List.filterMap_append, List.filterMap_append]
    rfl
  refine ⟨fun d hd => ?_, fun other d hd => ?_, h.given, h.whole, ?_, ?_, fun hmem => ?_, ?_⟩
  · obtain ⟨other, hother⟩ := List.mem_iff_getElem?.mp hd
    rcases getElem?_set hother with ⟨-, rfl⟩ | ⟨-, hold⟩
    · exact (h.kept c (List.mem_of_getElem? hget)).set_client hfreed hstep
    · exact h.kept d (List.mem_of_getElem? hold)
  · rcases getElem?_set hd with ⟨rfl, rfl⟩ | ⟨hne, hold⟩
    · exact hself
    · exact (h.writing other d hold).trans (hothers other hne)
  · have hmade := h.made
    rw [hclients] at hmade
    dsimp only
    rw [hset, ← hmade, List.map_append, List.map_append]
    rfl
  · have hapart := h.apart
    rw [openFds, ← hlive] at hapart
    exact hapart
  · rw [hlive] at hmem
    exact h.valid hmem
  · have hclosed := h.closed
    dsimp only
    rw [hset]
    rw [hclients] at hclosed
    simp only [List.filter_append, List.map_append, List.filter_cons, hfreed, Bool.false_eq_true,
      if_false] at hclosed ⊢
    exact hclosed

/-! ### The steps -/

theorem acceptRound_inv (h : s.Inv) (hactivity : s.activity = .accepting)
    (hvalid : nonBlocking = true →
      ∀ info ∈ ConnInfo.ofBytes (s.pipe.take ConnInfo.size), info.fd ≠ -1) :
    (s.acceptRound nonBlocking).Inv := by
  obtain ⟨records, hpipe, hsound⟩ := h
  cases records with
  | nil =>
      have hempty : s.pipe.take ConnInfo.size = [] := by rw [hpipe]; rfl
      rw [acceptRound, if_pos hempty]
      refine ⟨[], hpipe, hsound.of_activity (fun id heq => ?_) (fun id heq => ?_)⟩
      · cases hactivity.symm.trans heq
      · cases heq
  | cons info records =>
      have htake : s.pipe.take ConnInfo.size = info.bytes := by
        rw [hpipe]
        exact ConnInfo.records.take_stream info records
      have hdrop : s.pipe.drop ConnInfo.size = ConnInfo.records.stream records := by
        rw [hpipe]
        exact ConnInfo.records.drop_stream info records
      rw [htake, ConnInfo.ofBytes_bytes] at hvalid
      have hne : info.bytes ≠ [] := by
        intro hnil
        have hlength := info.length_bytes
        rw [hnil] at hlength
        cases hlength
      have hrest : ({ s with pipe := s.pipe.drop ConnInfo.size } : Thread).Sound (info :: records) :=
        ⟨hsound.kept, hsound.writing, hsound.given, hsound.whole, hsound.made, hsound.apart,
          hsound.valid, hsound.closed⟩
      rw [acceptRound, htake, if_neg hne, ConnInfo.ofBytes_bytes]
      exact ⟨records, hdrop, hrest.processNewConnect hactivity fun hmade => hvalid hmade info rfl⟩

theorem onClient_eq_some {step : Client.Label} {client : Client}
    (hstep : s.onClient id c step = some (next, client)) : c.client.step step = some client ∧
      next = { s with clients := s.clients.set id { c with client } } := by
  obtain ⟨client', hclient, hnext⟩ := Option.bind_eq_some_iff.mp hstep
  obtain ⟨-, hnext⟩ := Option.ite_none_left_eq_some.mp hnext
  obtain ⟨rfl, rfl⟩ := Prod.mk.inj (Option.some.inj hnext)
  exact ⟨hclient, rfl⟩

/-- A step of `OnWrite`, which is called for clients that exist only. -/
theorem Inv.onClient {step : Client.Label} {client : Client} {activity : Activity} (h : s.Inv)
    (hget : s.clients[id]? = some c) (hlabel : ∀ data, step ≠ .send data)
    (hcall : s.onClient id c step = some (next, client))
    (hself : client.writing = true ↔ activity = .writing id)
    (hothers : ∀ other, other ≠ id → (s.activity = .writing other ↔ activity = .writing other)) :
    Inv { next with activity } := by
  obtain ⟨hclient, rfl⟩ := onClient_eq_some hcall
  obtain ⟨records, hpipe, hsound⟩ := h
  refine ⟨records, hpipe, hsound.set_client hget ?_ hclient hself hothers⟩
  by_contra hfreed
  obtain ⟨-, hpending, hwriting⟩ :=
    (hsound.kept c (List.mem_of_getElem? hget)).dead (by simpa using hfreed)
  rw [Client.step_eq_none hpending hwriting hlabel] at hclient
  cases hclient

theorem step_inv (h : s.Inv) (hstep : s.step label = some next) : next.Inv := by
  cases label with
  | write info =>
      obtain ⟨hfree, hnext⟩ := Option.ite_none_right_eq_some.mp hstep
      obtain ⟨records, hpipe, hsound⟩ := h
      rw [← Option.some.inj hnext]
      refine ⟨records ++ [info], ?_, hsound.write hfree⟩
      rw [Records.stream_concat, ← hpipe]
      rfl
  | onAccept =>
      obtain ⟨⟨hidle, -⟩, hnext⟩ := Option.ite_none_right_eq_some.mp hstep
      obtain ⟨records, hpipe, hsound⟩ := h
      rw [← Option.some.inj hnext]
      exact ⟨records, hpipe, hsound.of_activity (idle_ne_writing hidle) fun id heq => by cases heq⟩
  | acceptRound nonBlocking =>
      obtain ⟨⟨hactivity, hvalid⟩, hnext⟩ := Option.ite_none_right_eq_some.mp hstep
      rw [← Option.some.inj hnext]
      exact acceptRound_inv h hactivity hvalid
  | onRead id len =>
      obtain ⟨c, hget, hnext⟩ := Option.bind_eq_some_iff.mp hstep
      obtain ⟨⟨hidle, hreading⟩, hnext⟩ := Option.ite_none_right_eq_some.mp hnext
      obtain ⟨records, hpipe, hsound⟩ := h
      rw [← Option.some.inj hnext, onRead]
      split_ifs
      · refine ⟨records, hpipe, hsound.delete hget ?_ hidle⟩
        by_contra hfreed
        have hdead := (hsound.kept c (List.mem_of_getElem? hget)).dead (by simpa using hfreed)
        exact absurd (hdead.1.symm.trans hreading) Bool.false_ne_true
      · exact ⟨records, hpipe, hsound.of_activity (idle_ne_writing hidle) fun id heq => by cases heq⟩
  | send id data =>
      obtain ⟨c, hget, hnext⟩ := Option.bind_eq_some_iff.mp hstep
      obtain ⟨⟨-, hfreed⟩, hnext⟩ := Option.ite_none_right_eq_some.mp hnext
      obtain ⟨⟨next', client⟩, hcall, rfl⟩ := Option.map_eq_some_iff.mp hnext
      obtain ⟨hclient, rfl⟩ := onClient_eq_some hcall
      obtain ⟨records, hpipe, hsound⟩ := h
      refine ⟨records, hpipe, hsound.set_client hget (by simpa using hfreed) hclient ?_ fun _ _ => .rfl⟩
      have hwriting : client.writing = c.client.writing := by
        rcases Client.step_send_eq_some hclient with ⟨-, rfl⟩ | ⟨-, rfl⟩ <;> rfl
      rw [hwriting]
      exact hsound.writing id c hget
  | userReturn =>
      obtain ⟨hworking, hnext⟩ := Option.ite_none_right_eq_some.mp hstep
      obtain ⟨records, hpipe, hsound⟩ := h
      rw [← Option.some.inj hnext]
      refine ⟨records, hpipe, hsound.of_activity (fun id heq => ?_) fun id heq => by cases heq⟩
      cases hworking.symm.trans heq
  | onWrite id =>
      obtain ⟨c, hget, hnext⟩ := Option.bind_eq_some_iff.mp hstep
      obtain ⟨hidle, hnext⟩ := Option.ite_none_right_eq_some.mp hnext
      obtain ⟨⟨next', client⟩, hcall, rfl⟩ := Option.map_eq_some_iff.mp hnext
      have hwriting : client.writing = true := by
        obtain ⟨-, hclient⟩ := Option.ite_none_right_eq_some.mp (onClient_eq_some hcall).1
        rw [← Option.some.inj hclient]
        rfl
      refine h.onClient hget (fun data heq => by cases heq) hcall (iff_of_true hwriting rfl) ?_
      intro other hne
      refine iff_of_false (idle_ne_writing hidle other) fun heq => hne ?_
      exact (Activity.writing.inj heq).symm
  | onSend id result =>
      obtain ⟨c, hget, hnext⟩ := Option.bind_eq_some_iff.mp hstep
      obtain ⟨hactivity, hnext⟩ := Option.ite_none_right_eq_some.mp hnext
      obtain ⟨⟨next', client⟩, hcall, rfl⟩ := Option.map_eq_some_iff.mp hnext
      refine h.onClient hget (fun data heq => by cases heq) hcall ?_ fun other hne => ?_
      · cases client.writing <;> simp
      · rw [hactivity]
        cases client.writing <;> simp [hne.symm]
  | finish id =>
      obtain ⟨c, hget, hnext⟩ := Option.bind_eq_some_iff.mp hstep
      obtain ⟨hactivity, hnext⟩ := Option.ite_none_right_eq_some.mp hnext
      obtain ⟨⟨next', client⟩, hcall, rfl⟩ := Option.map_eq_some_iff.mp hnext
      have hwriting : ¬ client.writing = true := by
        obtain ⟨-, hclient⟩ := Option.ite_none_right_eq_some.mp (onClient_eq_some hcall).1
        rw [← Option.some.inj hclient]
        exact Bool.false_ne_true
      refine h.onClient hget (fun data heq => by cases heq) hcall ?_ fun other hne => ?_
      · exact iff_of_false hwriting fun heq => by cases heq
      · rw [hactivity]
        simp [hne.symm]

theorem Inv.serving (h : s.Inv) : s.Serving := by
  obtain ⟨records, hpipe, hsound⟩ := h
  have hwaiting := waiting_eq hsound.given
  refine ⟨fun c hc hevent => ?_, fun c hc hfreed => ((hsound.kept c hc).live hfreed).1,
    ⟨by rw [hwaiting]; exact hsound.given, by rw [hwaiting]; exact hpipe⟩, hsound.whole, hsound.made, ?_,
    hsound.closed⟩
  · by_contra hfreed
    obtain ⟨hreading, hpending, -⟩ := (hsound.kept c hc).dead (by simpa using hfreed)
    simp [hreading, hpending] at hevent
  · have hlive : (s.clients.filterMap Served.liveFd).filter (· ≠ -1) =
        s.clients.filterMap Served.liveFd := by
      rw [List.filter_eq_self]
      intro fd hfd
      exact decide_eq_true fun heq => hsound.valid (heq ▸ hfd)
    have hapart := hsound.apart
    rw [openFds, List.filter_append, List.filter_append, hlive] at hapart
    exact hapart.of_append_left.of_append_left

/-- **A worker thread serves the clients it has.** Whatever the master writes, the peers send and the user
code does, as long as no freed client is used and no event is set while it is in the base, no event in the
base belongs to a client that was freed, and every record leads to one client or to none, in order. -/
theorem worker_serves {labels : List Label} (hrun : Machine.run step new labels = some s) : s.Serving := by
  have hinv : s.Inv :=
    Machine.run_invariant_of_forall (fun _ _ _ => step_inv) ⟨[], rfl, new_sound⟩ hrun
  exact hinv.serving

/-- Two connections are accepted and a third call of `accept(2)` fails; the first client is written to and
then closed by its peer, and its descriptor comes back with a fourth connection. -/
def fourAccepts : List Label :=
  [.write ⟨7, List.replicate 16 0, rfl⟩, .write ⟨8, List.replicate 16 1, rfl⟩, .onAccept,
    .acceptRound true, .write ⟨-1, List.replicate 16 1, rfl⟩, .acceptRound true, .acceptRound false,
    .acceptRound false, .onRead 0 3, .send 0 [1, 2], .userReturn, .onRead 0 0,
    .write ⟨7, List.replicate 16 2, rfl⟩, .onAccept, .acceptRound true]

theorem worker_serves_four :
    ∃ s, Machine.run step new fourAccepts = some s ∧ s.closed = [7] ∧
      s.clients.map Served.fd = [7, 8, 7] ∧ s.Serving := by
  have hreached : (Machine.run step new fourAccepts).any
      (fun s => s.closed = [7] ∧ s.clients.map Served.fd = [7, 8, 7]) = true := by
    decide +kernel
  obtain ⟨s, hrun, hs⟩ := (Option.any_eq_true _ _).mp hreached
  obtain ⟨hclosed, hclients⟩ := of_decide_eq_true hs
  exact ⟨s, hrun, hclosed, hclients, worker_serves hrun⟩

end Thread

end EasyLib.Easytcp
