import EasyLib.Easytcp.Threadpool

/-!
# What a client sends and when it asks to

`OnWrite` always sends from the start of a buffer and counts what was sent of it twice over. Neither
shows as long as every buffer goes out in one piece. Once a piece has been taken, the next one comes
from the wrong place, and unless it is the last one `pos_` is moved too far as well, so that bytes are
missing whatever they are.

The write event is asked for by `Send` and by a `send(2)` that falls short, without a look at
`WRITE_EVENT_ON`. The flag is kept in step with libevent all the same, so the test that is not made
would have been the right one.
-/

namespace EasyLib.Easytcp.Client

open MachineInt

variable {client next : Client} {label : Label} {data : List UInt8} {count : ℕ} {desc : BufDesc}
  {rest : List BufDesc}

/-! ### The bytes -/

structure Inv (client : Client) : Prop where
  intact : client.Intact
  pos : ∀ desc ∈ client.sendBufList, desc.pos ≤ desc.len

theorem new_inv : Inv new := by
  refine ⟨rfl, ?_⟩
  intro desc hdesc
  cases hdesc

theorem remainder_new (hle : data.length ≤ maxRecvLen) : (BufDesc.new data).remainder = data := by
  rw [BufDesc.new, dif_pos hle]
  rfl

theorem remainder_new_of_gt (hgt : ¬ data.length ≤ maxRecvLen) :
    (BufDesc.new data).remainder = [] := by
  rw [BufDesc.new, dif_neg hgt]
  rfl

theorem pos_new (data : List UInt8) : (BufDesc.new data).pos = 0 := by
  unfold BufDesc.new
  split_ifs <;> rfl

theorem pos_advancePos (hlt : desc.pos + count < desc.len) :
    (advancePos desc count).pos = desc.pos + (count + desc.pos) := by
  have hle := desc.length_le
  simp only [advancePos, toUInt16, BufDesc.len, maxRecvLen] at *
  omega

theorem step_send_eq_some (hstep : client.step (.send data) = some next) :
    (data = [] ∧ next = client) ∨ (data ≠ [] ∧ next = { client with
      sendBufList := client.sendBufList ++ [BufDesc.new data]
      sent := client.sent ++ data }.setWriteEvent) := by
  obtain ⟨-, hnext⟩ := Option.ite_none_left_eq_some.mp hstep
  rw [← Option.some.inj hnext]
  by_cases hempty : data = []
  · rw [send, if_pos hempty]
    exact Or.inl ⟨hempty, rfl⟩
  · rw [send, if_neg hempty]
    exact Or.inr ⟨hempty, rfl⟩

theorem send_inv (h : Inv client) (hfits : data.length ≤ maxRecvLen)
    (hstep : client.step (.send data) = some next) : Inv next := by
  rcases step_send_eq_some hstep with ⟨-, rfl⟩ | ⟨-, rfl⟩
  · exact h
  · constructor
    · unfold Intact setWriteEvent
      rw [List.flatMap_append, List.flatMap_singleton, remainder_new hfits, ← List.append_assoc,
        h.intact]
    · intro desc hdesc
      rcases List.mem_append.mp hdesc with hold | hnew
      · exact h.pos desc hold
      · rw [List.mem_singleton.mp hnew, pos_new]
        exact Nat.zero_le _

theorem send_not_intact (h : Inv client) (hfits : ¬ data.length ≤ maxRecvLen)
    (hstep : client.step (.send data) = some next) : ¬ next.Intact := by
  rcases step_send_eq_some hstep with ⟨rfl, -⟩ | ⟨hne, rfl⟩
  · exact absurd (Nat.zero_le _) hfits
  · unfold Intact setWriteEvent
    rw [List.flatMap_append, List.flatMap_singleton, remainder_new_of_gt hfits, List.append_nil,
      h.intact]
    intro hintact
    exact hne (List.self_eq_append_right.mp hintact)

/-- What a `send(2)` that takes bytes does: it falls short, or it empties the first buffer. -/
theorem onSend_accepted_eq_some (hstep : client.step (.onSend (.accepted count)) = some next) :
    ∃ desc rest, client.sendBufList = desc :: rest ∧
      ((desc.pos + count < desc.len ∧ next = { client with
        kernel := client.kernel ++ desc.buf.take count
        sendBufList := advancePos desc count :: rest }.setWriteEvent) ∨
      (desc.pos + count = desc.len ∧ next = { client with
        kernel := client.kernel ++ desc.buf.take count
        sendBufList := rest })) := by
  obtain ⟨-, hstep⟩ := Option.ite_none_right_eq_some.mp hstep
  rw [onSend] at hstep
  cases hlist : client.sendBufList with
  | nil =>
      rw [hlist] at hstep
      cases hstep
  | cons desc rest =>
      rw [hlist] at hstep
      refine ⟨desc, rest, rfl, ?_⟩
      dsimp only at hstep
      split_ifs at hstep with hshort hall
      · exact Or.inl ⟨hshort, (Option.some.inj hstep).symm⟩
      · exact Or.inr ⟨hall, (Option.some.inj hstep).symm⟩

/-- What a `send(2)` past the end of a buffer does; it takes a position past the end. -/
theorem onSend_overrun_eq_some {taken : List UInt8}
    (hstep : client.step (.onSend (.overrun taken)) = some next) :
    ∃ desc rest, client.sendBufList = desc :: rest ∧ desc.len < desc.pos ∧ next = { client with
      kernel := client.kernel ++ taken
      sendBufList := advancePos desc taken.length :: rest }.setWriteEvent := by
  obtain ⟨-, hstep⟩ := Option.ite_none_right_eq_some.mp hstep
  rw [onSend] at hstep
  cases hlist : client.sendBufList with
  | nil =>
      rw [hlist] at hstep
      cases hstep
  | cons desc rest =>
      rw [hlist] at hstep
      obtain ⟨⟨hover, -⟩, hnext⟩ := Option.ite_none_right_eq_some.mp hstep
      exact ⟨desc, rest, rfl, hover, (Option.some.inj hnext).symm⟩

theorem onSend_again_eq_some (hstep : client.step (.onSend .again) = some next) :
    next = { client.setWriteEvent with writing := false } := by
  obtain ⟨-, hnext⟩ := Option.ite_none_right_eq_some.mp hstep
  obtain ⟨-, hnext⟩ := Option.ite_none_left_eq_some.mp hnext
  exact (Option.some.inj hnext).symm

theorem accepted_inv (h : Inv client) (hfaithful : client.Faithful (.onSend (.accepted count)))
    (hstep : client.step (.onSend (.accepted count)) = some next) : Inv next := by
  obtain ⟨desc, rest, hlist, hnext⟩ := onSend_accepted_eq_some hstep
  have hdesc := hfaithful desc (by rw [hlist]; rfl)
  have hintact := h.intact
  have hpos := h.pos
  rw [Intact, hlist, List.flatMap_cons, ← List.append_assoc] at hintact
  rw [hlist] at hpos
  rcases hnext with ⟨hshort, rfl⟩ | ⟨hall, rfl⟩
  · -- only the first piece of a buffer can fall short
    have hzero : desc.pos = 0 := by
      rcases hdesc with hzero | ⟨hall, -⟩
      · exact hzero
      · omega
    have hadvance := pos_advancePos hshort
    rw [hzero] at hadvance
    have hpieces : desc.buf.take count ++ (advancePos desc count).remainder = desc.remainder := by
      rw [BufDesc.remainder, BufDesc.remainder, hadvance, hzero, Nat.zero_add, Nat.add_zero]
      exact List.take_append_drop count desc.buf
    constructor
    · unfold Intact setWriteEvent
      rw [List.flatMap_cons, ← List.append_assoc, List.append_assoc client.kernel, hpieces, hintact]
    · intro other hother
      rcases List.mem_cons.mp hother with rfl | hother
      · rw [hadvance]
        simp only [advancePos, BufDesc.len] at *
        omega
      · exact hpos other (List.mem_cons_of_mem _ hother)
  · have htake : desc.buf.take count = desc.remainder := by
      rcases hdesc with hzero | ⟨-, htake⟩
      · rw [BufDesc.remainder, hzero, List.drop_zero]
        exact List.take_of_length_le (by simp only [BufDesc.len] at hall; omega)
      · exact htake
    constructor
    · unfold Intact
      rw [htake, hintact]
    · intro other hother
      exact hpos other (List.mem_cons_of_mem _ hother)

/-- A later piece that falls short skips bytes, and one that does not must repeat the right ones. -/
theorem accepted_not_intact (h : Inv client)
    (hfaithful : ¬ client.Faithful (.onSend (.accepted count)))
    (hstep : client.step (.onSend (.accepted count)) = some next) : ¬ next.Intact := by
  obtain ⟨desc, rest, hlist, hnext⟩ := onSend_accepted_eq_some hstep
  have hdesc : ¬ (desc.pos = 0 ∨ desc.pos + count = desc.len ∧
      desc.buf.take count = desc.remainder) := by
    intro hgood
    apply hfaithful
    intro other hother
    rw [hlist] at hother
    obtain rfl : desc = other := Option.some.inj hother
    exact hgood
  obtain ⟨hpos, htake⟩ := not_or.mp hdesc
  have hintact := h.intact
  rw [Intact, hlist, List.flatMap_cons, ← List.append_assoc] at hintact
  rcases hnext with ⟨hshort, rfl⟩ | ⟨hall, rfl⟩
  · unfold Intact setWriteEvent
    rw [← hintact, List.flatMap_cons, ← List.append_assoc]
    intro heq
    have hlength := congrArg List.length heq
    have hadvance := pos_advancePos hshort
    simp only [List.length_append, BufDesc.remainder, List.length_drop, List.length_take, hadvance]
      at hlength
    simp only [advancePos, BufDesc.len] at *
    omega
  · unfold Intact
    rw [← hintact]
    intro heq
    exact htake ⟨hall, List.append_cancel_left (List.append_cancel_right heq)⟩

theorem step_inv (h : Inv client) (hfaithful : client.Faithful label)
    (hstep : client.step label = some next) : Inv next := by
  cases label with
  | send data => exact send_inv h hfaithful hstep
  | onWrite =>
      obtain ⟨-, hnext⟩ := Option.ite_none_right_eq_some.mp hstep
      rw [← Option.some.inj hnext]
      exact ⟨h.intact, h.pos⟩
  | onSend result =>
      cases result with
      | accepted count => exact accepted_inv h hfaithful hstep
      | overrun taken =>
          obtain ⟨desc, rest, hlist, hover, -⟩ := onSend_overrun_eq_some hstep
          have hpos := h.pos desc (by rw [hlist]; exact List.mem_cons_self)
          exact absurd hpos (not_le.mpr hover)
      | again =>
          rw [onSend_again_eq_some hstep]
          exact ⟨h.intact, h.pos⟩
      | error =>
          obtain ⟨-, hnext⟩ := Option.ite_none_right_eq_some.mp hstep
          obtain ⟨-, hnext⟩ := Option.ite_none_left_eq_some.mp hnext
          rw [← Option.some.inj hnext]
          exact ⟨h.intact, h.pos⟩
  | finish =>
      obtain ⟨-, hnext⟩ := Option.ite_none_right_eq_some.mp hstep
      rw [← Option.some.inj hnext]
      exact ⟨h.intact, h.pos⟩

theorem step_not_intact (h : Inv client) (hfaithful : ¬ client.Faithful label)
    (hstep : client.step label = some next) : ¬ next.Intact := by
  cases label with
  | send data => exact send_not_intact h hfaithful hstep
  | onSend result =>
      cases result with
      | accepted count => exact accepted_not_intact h hfaithful hstep
      | _ => exact absurd trivial hfaithful
  | _ => exact absurd trivial hfaithful

/-- The stream is intact in every state of a run if and only if every call of `Send` fits in a buffer
and every `send(2)` that takes bytes takes them from a buffer of which none were taken before, up to
the coincidence that the last bytes of the buffer are its first. -/
theorem client_intact_iff (labels : List Label)
    (henabled : Machine.AllSteps step (Machine.Enabled step) new labels) :
    Machine.Safe step Intact new labels ↔ Machine.AllSteps step Faithful new labels := by
  apply Machine.safe_iff_allSteps_of_enabled Inv (fun _ h => h.intact) (fun _ _ h => h) _ _ labels new
    new_inv henabled
  · intro client label next h _ hfaithful hstep
    exact step_inv h hfaithful hstep
  · intro client label next h hfaithful hstep
    exact step_not_intact h hfaithful hstep

theorem client_intact_two :
    Machine.Safe step Intact new
      [.send [1, 2, 3], .onWrite, .onSend (.accepted 3), .finish, .send [4, 5], .onWrite,
        .onSend (.accepted 1), .onSend .again] :=
  (client_intact_iff _ (by decide +kernel)).mpr (by decide +kernel)

/-- A buffer that goes out in two pieces starts from the beginning again with the second one. -/
theorem client_not_intact_of_two_pieces :
    ∃ client, Machine.run step new
        [.send [1, 2, 3], .onWrite, .onSend (.accepted 1), .onSend (.accepted 2)] = some client ∧
      client.kernel = [1, 1, 2] ∧ ¬ client.Intact :=
  ⟨_, rfl, rfl, by decide +kernel⟩

/-! ### The write event -/

theorem writeEventOn_or (flag : BitVec 8) : (flag ||| writeEventOn) &&& writeEventOn ≠ 0 := by
  revert flag
  decide

theorem writeEventOn_and_not (flag : BitVec 8) : flag &&& ~~~writeEventOn &&& writeEventOn = 0 := by
  revert flag
  decide

structure InStep (client : Client) : Prop where
  used : client.misused = false
  flag : client.eventFlag &&& writeEventOn ≠ 0 ↔ client.pending
  waits : client.writing = false → client.sendBufList ≠ [] → client.pending

theorem new_inStep : InStep new :=
  ⟨rfl, by decide, fun _ hne => absurd rfl hne⟩

theorem InStep.disciplined (h : InStep client) : client.Disciplined :=
  ⟨h.used, fun hwriting => ⟨h.waits hwriting, h.flag⟩⟩

theorem InStep.pending_eq_false (h : InStep client) (hflag : client.eventFlag &&& writeEventOn = 0) :
    client.pending = false := by
  by_contra hpending
  exact h.flag.mpr (by simpa using hpending) hflag

theorem InStep.setWriteEvent (h : InStep client) (hflag : client.eventFlag &&& writeEventOn = 0) :
    InStep client.setWriteEvent := by
  refine ⟨?_, iff_of_true (writeEventOn_or _) rfl, fun _ _ => rfl⟩
  rw [Client.setWriteEvent, h.used, h.pending_eq_false hflag]
  rfl

theorem InStep.misused (h : InStep client) (hflag : ¬ client.eventFlag &&& writeEventOn = 0) :
    client.setWriteEvent.misused = true := by
  rw [Client.setWriteEvent, h.flag.mp hflag]
  exact Bool.or_true _

theorem step_inStep (h : InStep client) (hadmissible : client.Admissible label)
    (hcalm : client.Calm label) (hstep : client.step label = some next) : InStep next := by
  cases label with
  | send data =>
      rcases step_send_eq_some hstep with ⟨-, rfl⟩ | ⟨hne, rfl⟩
      · exact h
      · have hflag := hcalm.resolve_left hne
        have hset := h.setWriteEvent hflag
        exact ⟨hset.used, hset.flag, fun _ _ => rfl⟩
  | onWrite =>
      obtain ⟨-, hnext⟩ := Option.ite_none_right_eq_some.mp hstep
      rw [← Option.some.inj hnext]
      refine ⟨h.used, iff_of_false (not_not.mpr (writeEventOn_and_not _)) Bool.false_ne_true, ?_⟩
      intro hwriting
      cases hwriting
  | onSend result =>
      cases result with
      | accepted count =>
          obtain ⟨desc, rest, hlist, hnext⟩ := onSend_accepted_eq_some hstep
          obtain ⟨hwriting, -⟩ := Option.ite_none_right_eq_some.mp hstep
          rcases hnext with ⟨hshort, rfl⟩ | ⟨hall, rfl⟩
          · have hflag : client.eventFlag &&& writeEventOn = 0 := by
              rcases hcalm desc (by rw [hlist]; rfl) with hall | hflag
              · omega
              · exact hflag
            have hset := h.setWriteEvent hflag
            exact ⟨hset.used, hset.flag, fun _ _ => rfl⟩
          · refine ⟨h.used, h.flag, ?_⟩
            intro hidle
            rw [hwriting] at hidle
            cases hidle
      | overrun taken =>
          obtain ⟨desc, rest, -, -, rfl⟩ := onSend_overrun_eq_some hstep
          have hset := h.setWriteEvent hcalm
          exact ⟨hset.used, hset.flag, fun _ _ => rfl⟩
      | again =>
          rw [onSend_again_eq_some hstep]
          have hset := h.setWriteEvent hcalm
          exact ⟨hset.used, hset.flag, fun _ _ => rfl⟩
      | error => exact absurd rfl hadmissible.2
  | finish =>
      obtain ⟨⟨-, hempty⟩, hnext⟩ := Option.ite_none_right_eq_some.mp hstep
      rw [← Option.some.inj hnext]
      exact ⟨h.used, h.flag, fun _ hne => absurd hempty hne⟩

theorem step_misused (h : InStep client) (hcalm : ¬ client.Calm label)
    (hstep : client.step label = some next) : next.misused = true := by
  cases label with
  | send data =>
      obtain ⟨hne, hflag⟩ := not_or.mp hcalm
      rcases step_send_eq_some hstep with ⟨hempty, -⟩ | ⟨-, rfl⟩
      · exact absurd hempty hne
      · exact h.misused hflag
  | onSend result =>
      cases result with
      | accepted count =>
          obtain ⟨desc, rest, hlist, hnext⟩ := onSend_accepted_eq_some hstep
          have hdesc : ¬ (desc.pos + count = desc.len ∨ client.eventFlag &&& writeEventOn = 0) := by
            intro hgood
            apply hcalm
            intro other hother
            rw [hlist] at hother
            obtain rfl : desc = other := Option.some.inj hother
            exact hgood
          obtain ⟨hshort, hflag⟩ := not_or.mp hdesc
          rcases hnext with ⟨-, rfl⟩ | ⟨hall, -⟩
          · exact h.misused hflag
          · exact absurd hall hshort
      | overrun taken =>
          obtain ⟨desc, rest, -, -, rfl⟩ := onSend_overrun_eq_some hstep
          exact h.misused hcalm
      | again =>
          rw [onSend_again_eq_some hstep]
          exact h.misused hcalm
      | error => exact absurd trivial hcalm
  | _ => exact absurd trivial hcalm

/-- The write event is used as libevent asks in every state of a run if and only if nothing asks for it
while `WRITE_EVENT_ON` is set. -/
theorem client_disciplined_iff (labels : List Label)
    (hadmissible : Machine.AllSteps step Admissible new labels) :
    Machine.Safe step Disciplined new labels ↔ Machine.AllSteps step Calm new labels := by
  apply Machine.safe_iff_allSteps_of_enabled InStep (fun _ h => h.disciplined) (fun _ _ h => h.1) _ _
    labels new new_inStep hadmissible
  · intro client label next h hadmissible hcalm hstep
    exact step_inStep h hadmissible hcalm hstep
  · intro client label next h hcalm hstep hdisciplined
    have hused := hdisciplined.1
    rw [step_misused h hcalm hstep] at hused
    cases hused

theorem client_disciplined_two :
    Machine.Safe step Disciplined new
      [.send [1, 2, 3], .onWrite, .onSend (.accepted 2), .onSend (.accepted 1), .finish, .onWrite,
        .finish, .send [4]] :=
  (client_disciplined_iff _ (by decide +kernel)).mpr (by decide +kernel)

/-- Two calls of `Send` in a row: the second one sets up an event that is pending. -/
theorem client_not_disciplined_of_two_sends :
    Machine.AllSteps step Admissible new [.send [1], .send [2]] ∧
      ∃ client, Machine.run step new [.send [1], .send [2]] = some client ∧ ¬ client.Disciplined :=
  ⟨by decide +kernel, _, rfl, by decide +kernel⟩

end EasyLib.Easytcp.Client
