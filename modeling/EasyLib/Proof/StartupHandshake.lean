import EasyLib.Reactors.Startup

/-!
# The start of the loop threads

What a loop has in `tid_` and `state_` follows from how far its thread has come: the id is stored before the
state is set, and the master does not wait for a thread that has set it. `IsInLoop` compares with a zero that
no thread has for its id until the id is stored, and only the thread itself could be told wrong in that time.
-/

namespace EasyLib.Reactors.Startup

open Machine

variable {threadNum index : ℕ} {tids : Option ℕ → ℕ} {states : ℕ → BitVec 8} {s next : Startup}
  {place : LoopPlace} {master : MasterPlace}

/-- How many threads the master has created. -/
def MasterPlace.begun : MasterPlace → ℕ
  | .starting index => index
  | .locking index | .waiting index => index + 1

def Announced (place : LoopPlace) : Prop := place ∈ [.announced, .looping]

instance : DecidablePred Announced := fun place => inferInstanceAs (Decidable (place ∈ _))

/-- A loop whose thread has come to a place. -/
def loopAt (tids : Option ℕ → ℕ) (states : ℕ → BitVec 8) (index : ℕ) (place : LoopPlace) : StartingLoop where
  place := place
  tid := if place = .absent ∨ place = .created then 0 else tids (some index)
  state := if Announced place then started else states index

structure Inv (threadNum : ℕ) (tids : Option ℕ → ℕ) (states : ℕ → BitVec 8) (s : Startup) : Prop where
  num : s.threadNum = threadNum
  ids : s.tids = tids
  loops : ∀ index, s.loops index = loopAt tids states index (s.loops index).place
  begun : ∀ index, (s.loops index).place ≠ .absent ↔ index < MasterPlace.begun s.master
  begun_le : MasterPlace.begun s.master ≤ threadNum
  returned : ∀ index < s.master.index, states index ≠ started → Announced (s.loops index).place
  waits : ∀ index, s.master = .waiting index → ¬ Announced (s.loops index).place

theorem new_inv : Inv threadNum tids states (new threadNum tids states) where
  num := rfl
  ids := rfl
  loops := fun _ => rfl
  begun := fun index => iff_of_false (not_not.mpr rfl) index.not_lt_zero
  begun_le := Nat.zero_le threadNum
  returned := fun index hlt => absurd hlt index.not_lt_zero
  waits := fun _ hmaster => MasterPlace.noConfusion hmaster

theorem index_le_begun (master : MasterPlace) : master.index ≤ MasterPlace.begun master := by
  cases master with
  | starting index => exact Nat.le_refl index
  | locking index => exact Nat.le_succ index
  | waiting index => exact Nat.le_succ index

theorem le_index_of_lt_begun (hlt : index < MasterPlace.begun master) : index ≤ master.index := by
  cases master with
  | starting current => exact Nat.le_of_lt hlt
  | locking current => exact Nat.le_of_lt_succ hlt
  | waiting current => exact Nat.le_of_lt_succ hlt

theorem Inv.state_eq (h : Inv threadNum tids states s) (index : ℕ) :
    (s.loops index).state =
      if Announced (s.loops index).place then started else states index :=
  congrArg StartingLoop.state (h.loops index)

theorem Inv.announced_of_state (h : Inv threadNum tids states s)
    (hstate : (s.loops index).state = started) (hne : states index ≠ started) :
    Announced (s.loops index).place := by
  by_contra hnot
  rw [h.state_eq, if_neg hnot] at hstate
  exact hne hstate

theorem loops_setLoop_self {loop : StartingLoop} :
    ({ s.setLoop index loop with master } : Startup).loops index = loop :=
  Function.update_self ..

theorem loops_setLoop_of_ne {loop : StartingLoop} {other : ℕ} (hne : other ≠ index) :
    ({ s.setLoop index loop with master } : Startup).loops other = s.loops other :=
  Function.update_of_ne hne ..

/-- The thread of one loop comes further, or is created. -/
theorem Inv.move (h : Inv threadNum tids states s) (hplace : place ≠ .absent)
    (hkeeps : Announced (s.loops index).place → Announced place)
    (hindex : master.index = s.master.index) (hle : MasterPlace.begun master ≤ threadNum)
    (hbegun : ∀ other, other < MasterPlace.begun master ↔
      other = index ∨ other < MasterPlace.begun s.master)
    (hwaits : ∀ other, master = .waiting other →
      s.master = .waiting other ∧ (other = index → ¬ Announced place)) :
    Inv threadNum tids states
      { s.setLoop index (loopAt tids states index place) with master } := by
  refine ⟨h.num, h.ids, fun other => ?_, fun other => ?_, hle, fun other hlt hne => ?_,
    fun other hmaster => ?_⟩
  · by_cases heq : other = index
    · rw [heq, loops_setLoop_self]
      rfl
    · rw [loops_setLoop_of_ne heq]
      exact h.loops other
  · rw [hbegun]
    by_cases heq : other = index
    · rw [heq, loops_setLoop_self]
      exact iff_of_true hplace (.inl rfl)
    · rw [loops_setLoop_of_ne heq, h.begun, or_iff_right heq]
  · by_cases heq : other = index
    · rw [heq] at hlt hne ⊢
      rw [loops_setLoop_self]
      exact hkeeps (h.returned index (hindex ▸ hlt) hne)
    · rw [loops_setLoop_of_ne heq]
      exact h.returned other (hindex ▸ hlt) hne
  · obtain ⟨hbefore, hnot⟩ := hwaits other hmaster
    by_cases heq : other = index
    · rw [heq, loops_setLoop_self]
      exact hnot heq
    · rw [loops_setLoop_of_ne heq]
      exact h.waits other hbefore

theorem Inv.loop_eq (h : Inv threadNum tids states s) (hplace : (s.loops index).place = place) :
    s.loops index = loopAt tids states index place := by
  rw [h.loops index, hplace]

theorem start_inv (h : Inv threadNum tids states s) (hmaster : s.master = .starting index)
    (hlt : index < threadNum) :
    Inv threadNum tids states
      { s.setLoop index { s.loops index with place := .created } with master := .locking index } := by
  have habsent : (s.loops index).place = .absent := by
    by_contra hne
    have hbegun := (h.begun index).mp hne
    rw [hmaster] at hbegun
    exact Nat.lt_irrefl index hbegun
  have hloop : ({ s.loops index with place := .created } : StartingLoop) =
      loopAt tids states index .created := by
    rw [h.loop_eq habsent]
    rfl
  rw [hloop]
  apply h.move
  · exact LoopPlace.noConfusion
  · rw [habsent]
    decide
  · rw [hmaster]
    rfl
  · exact hlt
  · intro other
    rw [hmaster]
    simp only [MasterPlace.begun]
    omega
  · exact fun _ hwaiting => MasterPlace.noConfusion hwaiting

theorem lock_inv (h : Inv threadNum tids states s) (hmaster : s.master = .locking index) :
    Inv threadNum tids states (s.lock index) := by
  have hbegun := h.begun
  have hle := h.begun_le
  have hreturned := h.returned
  rw [hmaster] at hbegun hle hreturned
  by_cases hstate : (s.loops index).state = started
  · have hlock : s.lock index = { s with master := .starting (index + 1) } := by
      rw [lock, if_neg (not_not.mpr hstate)]
    rw [hlock]
    refine ⟨h.num, h.ids, h.loops, hbegun, hle, fun other hlt hne => ?_,
      fun _ hwaiting => MasterPlace.noConfusion hwaiting⟩
    obtain hlt | rfl := Nat.lt_succ_iff_lt_or_eq.mp hlt
    · exact hreturned other hlt hne
    · exact h.announced_of_state hstate hne
  · have hlock : s.lock index = { s with master := .waiting index } := by
      rw [lock, if_pos hstate]
    rw [hlock]
    refine ⟨h.num, h.ids, h.loops, hbegun, hle, hreturned, fun other hwaiting hannounced => hstate ?_⟩
    obtain rfl : index = other := MasterPlace.waiting.inj hwaiting
    rw [h.state_eq]
    exact if_pos hannounced

theorem wakeUp_inv (h : Inv threadNum tids states s) (hmaster : s.master = .waiting index) :
    Inv threadNum tids states { s with master := .locking index } := by
  have hbegun := h.begun
  have hle := h.begun_le
  have hreturned := h.returned
  rw [hmaster] at hbegun hle hreturned
  exact ⟨h.num, h.ids, h.loops, hbegun, hle, hreturned,
    fun _ hwaiting => MasterPlace.noConfusion hwaiting⟩

/-- The thread comes further while the master stays where it is. -/
theorem Inv.proceed {before : LoopPlace} (h : Inv threadNum tids states s)
    (hbefore : (s.loops index).place = before) (hcreated : before ≠ .absent) (hplace : place ≠ .absent)
    (hsame : Announced before ↔ Announced place) :
    Inv threadNum tids states (s.setLoop index (loopAt tids states index place)) := by
  rw [← hbefore] at hcreated hsame
  apply h.move hplace hsame.mp rfl h.begun_le
  · intro other
    refine ⟨.inr, fun hor => ?_⟩
    obtain rfl | hlt := hor
    · exact (h.begun other).mp hcreated
    · exact hlt
  · intro other hwaiting
    refine ⟨hwaiting, fun heq hannounced => ?_⟩
    rw [heq] at hwaiting
    exact h.waits index hwaiting (hsame.mpr hannounced)

theorem index_woken (master : MasterPlace) (index : ℕ) :
    (if master = .waiting index then .locking index else master).index = master.index := by
  split_ifs with hwaiting
  · rw [hwaiting]
    rfl
  · rfl

theorem begun_woken (master : MasterPlace) (index : ℕ) :
    MasterPlace.begun (if master = .waiting index then .locking index else master) =
      MasterPlace.begun master := by
  split_ifs with hwaiting
  · rw [hwaiting]
    rfl
  · rfl

theorem announce_inv (h : Inv threadNum tids states s) (hplace : (s.loops index).place = .named) :
    Inv threadNum tids states (s.announce index) := by
  have hloop : ({ s.loops index with place := .announced, state := started } : StartingLoop) =
      loopAt tids states index .announced := by
    rw [h.loop_eq hplace]
    rfl
  have hbefore : (s.loops index).place ≠ .absent := by
    rw [hplace]
    exact LoopPlace.noConfusion
  have hbegun := (h.begun index).mp hbefore
  rw [announce, hloop]
  apply h.move
  · exact LoopPlace.noConfusion
  · exact fun _ => by decide
  · exact index_woken s.master index
  · rw [begun_woken]
    exact h.begun_le
  · intro other
    rw [begun_woken]
    refine ⟨.inr, fun hor => ?_⟩
    obtain rfl | hlt := hor
    · exact hbegun
    · exact hlt
  · -- A master that still waits does so for another thread.
    intro other hwaiting
    split_ifs at hwaiting with hmaster
    refine ⟨hwaiting, fun heq => ?_⟩
    rw [heq] at hwaiting
    exact absurd hwaiting hmaster

theorem step_inv {label : Label} (h : Inv threadNum tids states s) (hstep : s.step label = some next) :
    Inv threadNum tids states next := by
  cases label with
  | start =>
      simp only [step] at hstep
      split at hstep
      · rename_i index hmaster
        obtain ⟨hlt, hnext⟩ := Option.ite_none_right_eq_some.mp hstep
        rw [← Option.some.inj hnext]
        exact start_inv h hmaster (h.num ▸ hlt)
      · cases hstep
  | lock =>
      simp only [step] at hstep
      split at hstep
      · rename_i index hmaster
        rw [← Option.some.inj hstep]
        exact lock_inv h hmaster
      · cases hstep
  | wakeUp =>
      simp only [step] at hstep
      split at hstep
      · rename_i index hmaster
        rw [← Option.some.inj hstep]
        exact wakeUp_inv h hmaster
      · cases hstep
  | loop index =>
      simp only [step] at hstep
      split at hstep
      · rename_i hplace
        have hloop : ({ s.loops index with place := .named, tid := s.tids (some index) } : StartingLoop) =
            loopAt tids states index .named := by
          rw [h.loop_eq hplace, h.ids]
          rfl
        rw [← Option.some.inj hstep, hloop]
        exact h.proceed hplace (by decide) (by decide) (by decide)
      · rename_i hplace
        rw [← Option.some.inj hstep]
        exact announce_inv h hplace
      · rename_i hplace
        have hloop : ({ s.loops index with place := .looping } : StartingLoop) =
            loopAt tids states index .looping := by
          rw [h.loop_eq hplace]
          rfl
        rw [← Option.some.inj hstep, hloop]
        exact h.proceed hplace (by decide) (by decide) (by decide)
      · cases hstep
      · cases hstep

/-! ### What follows -/

theorem Inv.answers (h : Inv threadNum tids states s) (hpos : ∀ thread, 0 < tids thread)
    (hids : Function.Injective tids) {caller : Option ℕ} (hruns : s.Runs caller) :
    s.isInLoop index caller ↔ caller = some index := by
  have htid : (s.loops index).tid =
      if (s.loops index).place = .absent ∨ (s.loops index).place = .created then 0
      else tids (some index) :=
    congrArg StartingLoop.tid (h.loops index)
  rw [isInLoop, decide_eq_true_iff, htid, h.ids]
  split_ifs with hplace
  · refine iff_of_false (Nat.ne_of_lt (hpos caller)) ?_
    rintro rfl
    obtain hplace | hplace := hplace
    · rw [Runs, hplace] at hruns
      exact absurd hruns.2 (by decide)
    · rw [Runs, hplace] at hruns
      exact absurd hruns.2 (by decide)
  · exact hids.eq_iff.trans eq_comm

theorem Inv.orderly (h : Inv threadNum tids states s) (hpos : ∀ thread, 0 < tids thread)
    (hids : Function.Injective tids) : s.Orderly states where
  answers := fun _ _ _ hruns => h.answers hpos hids hruns
  inTurn := fun index hplace => le_index_of_lt_begun ((h.begun index).mp hplace)
  returned := fun index hlt => (h.begun index).mpr (Nat.lt_of_lt_of_le hlt (index_le_begun s.master))
  announced := h.returned

/-! ### The way to the master's loop -/

/-- How much a thread has to do before it announces itself. -/
def ahead : LoopPlace → ℕ
  | .absent => 3
  | .created => 2
  | .named => 1
  | .announced | .looping => 0

def work (s : Startup) : ℕ :=
  10 * (s.threadNum - s.master.index) +
    match s.master with
    | .starting _ => 9
    | .locking index => 2 * ahead (s.loops index).place + 1
    | .waiting index => 2 * ahead (s.loops index).place

abbrev Closer (threadNum : ℕ) (tids : Option ℕ → ℕ) (states : ℕ → BitVec 8) (s : Startup) : Prop :=
  Leads step Own (fun next => Inv threadNum tids states next ∧ next.work < s.work) s

theorem Inv.closer {label : Label} (h : Inv threadNum tids states s) (hstep : s.step label = some next)
    (hown : label ≠ .wakeUp) (hwork : next.work < s.work) : Closer threadNum tids states s :=
  .head hown hstep (.refl ⟨step_inv h hstep, hwork⟩)

theorem Inv.closer_of_starting (h : Inv threadNum tids states s) (hmaster : s.master = .starting index)
    (hlt : index < threadNum) : Closer threadNum tids states s := by
  have hstep : s.step .start =
      some { s.setLoop index { s.loops index with place := .created } with master := .locking index } := by
    simp only [step, hmaster]
    exact if_pos (h.num ▸ hlt)
  refine h.closer hstep Label.noConfusion ?_
  simp only [work, hmaster, MasterPlace.index, setLoop, Function.update_self, ahead]
  omega

theorem Inv.closer_of_announced (h : Inv threadNum tids states s) (hmaster : s.master = .locking index)
    (hannounced : Announced (s.loops index).place) : Closer threadNum tids states s := by
  have hlt : index < threadNum := by
    have hle := h.begun_le
    rw [hmaster] at hle
    exact hle
  have hstate : (s.loops index).state = started := by
    rw [h.state_eq, if_pos hannounced]
  have hlock : s.lock index = { s with master := .starting (index + 1) } := by
    rw [lock, if_neg (not_not.mpr hstate)]
  have hstep : s.step .lock = some { s with master := .starting (index + 1) } := by
    simp only [step, hmaster, hlock]
  refine h.closer hstep Label.noConfusion ?_
  have hnum := h.num
  simp only [work, hmaster, MasterPlace.index]
  omega

/-- While the master is at a thread that has not announced itself, that thread can go on. -/
theorem Inv.closer_of_not_announced (h : Inv threadNum tids states s)
    (hmaster : s.master = .locking index ∨ s.master = .waiting index)
    (hannounced : ¬ Announced (s.loops index).place) : Closer threadNum tids states s := by
  cases hplace : (s.loops index).place with
  | absent =>
      have hlt : index < MasterPlace.begun s.master := by
        obtain hmaster | hmaster := hmaster
        · rw [hmaster]
          exact Nat.lt_succ_self index
        · rw [hmaster]
          exact Nat.lt_succ_self index
      exact absurd hplace ((h.begun index).mpr hlt)
  | created =>
      have hstep : s.step (.loop index) =
          some (s.setLoop index { s.loops index with place := .named, tid := s.tids (some index) }) := by
        simp only [step, hplace]
      refine h.closer hstep Label.noConfusion ?_
      obtain hmaster | hmaster := hmaster
      · simp only [work, setLoop, hmaster, Function.update_self, hplace, ahead]
        omega
      · simp only [work, setLoop, hmaster, Function.update_self, hplace, ahead]
        omega
  | named =>
      have hstep : s.step (.loop index) = some (s.announce index) := by simp only [step, hplace]
      refine h.closer hstep Label.noConfusion ?_
      obtain hmaster | hmaster := hmaster
      · have hother : MasterPlace.locking index ≠ .waiting index := MasterPlace.noConfusion
        simp only [work, announce, setLoop, hmaster, if_neg hother, Function.update_self, hplace, ahead]
        omega
      · simp only [work, announce, setLoop, hmaster, if_pos, MasterPlace.index, Function.update_self,
          hplace, ahead]
        omega
  | announced => exact absurd (by rw [hplace]; decide) hannounced
  | looping => exact absurd (by rw [hplace]; decide) hannounced

theorem Inv.closer_of_busy (h : Inv threadNum tids states s) (hbusy : s.master ≠ .starting threadNum) :
    Closer threadNum tids states s := by
  cases hmaster : s.master with
  | starting index =>
      apply h.closer_of_starting hmaster
      have hle := h.begun_le
      rw [hmaster] at hle hbusy
      exact Nat.lt_of_le_of_ne hle fun heq => hbusy (heq ▸ rfl)
  | locking index =>
      by_cases hannounced : Announced (s.loops index).place
      · exact h.closer_of_announced hmaster hannounced
      · exact h.closer_of_not_announced (.inl hmaster) hannounced
  | waiting index => exact h.closer_of_not_announced (.inr hmaster) (h.waits index hmaster)

/-- **The start of the loop threads.** Whatever `state_` holds at first, `IsInLoop` never answers wrong, the
threads are started in turn, and the master can always get to its own loop without a wake-up that nobody has
sent. Where `state_` is not `STARTED` by chance, each `Run` returns behind the announcement of its thread. -/
theorem threads_started {labels : List Label} (hpos : ∀ thread, 0 < tids thread)
    (hids : Function.Injective tids) (hrun : run step (new threadNum tids states) labels = some s) :
    s.Orderly states ∧ Leads step Own (fun last => last.master = .starting threadNum) s := by
  have hinv : Inv threadNum tids states s :=
    run_invariant_of_forall (fun _ _ _ => step_inv) new_inv hrun
  refine ⟨hinv.orderly hpos hids, ?_⟩
  have hleads := leads_of_measure (Inv threadNum tids states) work
    (fun _ h hbusy => h.closer_of_busy hbusy) hinv
  exact hleads.imp fun _ hlast => hlast.2

def someTids : Option ℕ → ℕ
  | none => 7
  | some index => index + 8

/-- The master waits for the first of two threads, which has stored its id. -/
theorem threads_started_two :
    ∃ s, run step (new 2 someTids fun _ => 0) [.start, .lock, .loop 0] = some s ∧
      s.master = .waiting 0 ∧ s.Orderly (fun _ => 0) ∧
      Leads step Own (fun last => last.master = .starting 2) s := by
  have hpos : ∀ thread, 0 < someTids thread := by
    intro thread
    cases thread with
    | none => decide
    | some index => exact Nat.succ_pos _
  have hids : Function.Injective someTids := by
    intro thread other heq
    cases thread <;> cases other <;> simp_all [someTids]
  have hrun : run step (new 2 someTids fun _ => 0) [.start, .lock, .loop 0] = some _ := rfl
  exact ⟨_, hrun, rfl, threads_started hpos hids hrun⟩

end EasyLib.Reactors.Startup
