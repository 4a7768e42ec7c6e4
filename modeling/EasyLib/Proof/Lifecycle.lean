import EasyLib.Proof.Handoff
import EasyLib.Reactors.TcpServer

/-!
# The life of a connection

`RemoveTcpConnection` queues the removal on the master with `QueueInActor` alone: there is no eventfd
behind the master and nobody sets its `pending_`. From `pending_` false the master therefore never
leaves the two phases of its loop in which it polls and handles events, the removals stay in its queue,
and a connection that has been closed stays in `conns_` for good.

The other half of the story holds. `ConnectionEstablished` is queued once for each connection and
`HandleClose` ends the interest in reading, so a connection is closed at most once and its callback is
called once, by `HandleClose`.
-/

namespace EasyLib.Reactors.TcpServer

variable {s next : TcpServer} {fd : Int} {events : BitVec 32} {number thread : ℕ} {c : Connection}
  {label : Label}

structure Inv (s : TcpServer) : Prop where
  pending : s.master.pending = false
  phase : s.master.phase = .poll ∨ s.master.phase = .handling
  fresh : ∀ number, s.accepted ≤ number → s.connections number = none
  kept : ∀ number, ∀ c ∈ s.connections number, s.conns c.conn.fd = some number
  waiting : ∀ thread, ∀ number ∈ (s.threads thread).actor.waiting, ∃ c ∈ s.connections number,
    c.thread = thread ∧ c.conn.state ≠ .established ∧ c.closedIn = none
  nodup : ∀ thread, (s.threads thread).actor.waiting.Nodup
  closed : ∀ number, ∀ c ∈ s.connections number, c.conn.state = .established → c.closedIn = none
  once : ∀ number, ∀ c ∈ s.connections number, c.closeCb = c.closedIn.toList.length
  removals : ∀ number, s.master.queue.count number = (s.connections number).elim 0 Connection.closeCb

theorem new_inv (threadNum : ℕ) (pending : ℕ → Bool) : Inv (new threadNum pending) where
  pending := rfl
  phase := Or.inl rfl
  fresh := fun _ _ => rfl
  kept := fun _ _ hc => by cases hc
  waiting := fun _ _ hmem => by cases hmem
  nodup := fun _ => List.nodup_nil
  closed := fun _ _ hc => by cases hc
  once := fun _ _ hc => by cases hc
  removals := fun _ => rfl

theorem Inv.lt_accepted (h : Inv s) (hc : c ∈ s.connections number) : number < s.accepted := by
  by_contra hge
  rw [h.fresh number (not_lt.mp hge)] at hc
  cases hc

/-! ### The loops -/

theorem Inv.setThread (h : Inv s) (value : EventLoopThread ℕ)
    (hvalue : value.actor.waiting.Sublist (s.threads thread).actor.waiting) :
    Inv (s.setThread thread value) := by
  have hsub : ∀ other, ((s.setThread thread value).threads other).actor.waiting.Sublist
      (s.threads other).actor.waiting := by
    intro other
    simp only [TcpServer.setThread]
    by_cases heq : other = thread
    · rw [heq, Function.update_self]
      exact hvalue
    · rw [Function.update_of_ne heq]
  refine ⟨h.pending, h.phase, h.fresh, h.kept, ?_, ?_, h.closed, h.once, h.removals⟩
  · intro other number hmem
    exact h.waiting other number ((hsub other).mem hmem)
  · intro other
    exact (h.nodup other).sublist (hsub other)

theorem Inv.master_advance (h : Inv s) :
    s.master.advance.2 = none ∧ s.master.advance.1.queue = s.master.queue ∧
      s.master.advance.1.pending = false ∧
      (s.master.advance.1.phase = .poll ∨ s.master.advance.1.phase = .handling) := by
  rcases h.phase with hphase | hphase
  · simp [Actor.advance, hphase, h.pending]
  · simp [Actor.advance, hphase, h.pending]

theorem masterAdvance_eq (h : Inv s) : s.masterAdvance = { s with
    master := s.master.advance.1
    iterations := if s.master.advance.1.phase = .poll then s.iterations + 1 else s.iterations } := by
  rw [masterAdvance, h.master_advance.1]

theorem masterAdvance_inv (h : Inv s) : Inv s.masterAdvance := by
  obtain ⟨-, hqueue, hpending, hphase⟩ := h.master_advance
  rw [masterAdvance_eq h]
  exact { h with
    pending := hpending
    phase := hphase
    removals := fun number => (congrArg (List.count number) hqueue).trans (h.removals number) }

/-! ### The connections -/

theorem mem_update {connections : ℕ → Option Connection} {changed d : Connection} {other : ℕ}
    (hd : d ∈ Function.update connections number (some changed) other) :
    (other = number ∧ d = changed) ∨ d ∈ connections other := by
  by_cases heq : other = number
  · rw [heq, Function.update_self] at hd
    exact Or.inl ⟨heq, (Option.some.inj hd).symm⟩
  · rw [Function.update_of_ne heq] at hd
    exact Or.inr hd

/-- A connection takes the place of another one, and its removal is queued as often as it was closed. -/
theorem Inv.setConnection (h : Inv s) (changed : Connection) (times : ℕ)
    (hc : c ∈ s.connections number) (hfd : changed.conn.fd = c.conn.fd)
    (hwaiting : ∀ thread, number ∉ (s.threads thread).actor.waiting)
    (hclosed : changed.conn.state = .established → changed.closedIn = none)
    (honce : changed.closeCb = changed.closedIn.toList.length)
    (htimes : changed.closeCb = c.closeCb + times) :
    Inv { s.setConnection number changed with
      master := { s.master with queue := s.master.queue ++ List.replicate times number } } := by
  refine ⟨h.pending, h.phase, ?_, ?_, ?_, h.nodup, ?_, ?_, ?_⟩
  · intro other hle
    have hne : other ≠ number := (lt_of_lt_of_le (h.lt_accepted hc) hle).ne'
    simp only [TcpServer.setConnection]
    rw [Function.update_of_ne hne]
    exact h.fresh other hle
  · intro other d hd
    rcases mem_update hd with ⟨rfl, rfl⟩ | hold
    · rw [hfd]
      exact h.kept other c hc
    · exact h.kept other d hold
  · intro thread other hmem
    have hne : other ≠ number := by
      rintro rfl
      exact hwaiting thread hmem
    simp only [TcpServer.setConnection]
    rw [Function.update_of_ne hne]
    exact h.waiting thread other hmem
  · intro other d hd
    rcases mem_update hd with ⟨-, rfl⟩ | hold
    · exact hclosed
    · exact h.closed other d hold
  · intro other d hd
    rcases mem_update hd with ⟨-, rfl⟩ | hold
    · exact honce
    · exact h.once other d hold
  · intro other
    have hremovals := h.removals other
    simp only [TcpServer.setConnection, List.count_append]
    by_cases heq : other = number
    · subst heq
      rw [Option.mem_def.mp hc] at hremovals
      rw [Function.update_self, hremovals, List.count_replicate_self]
      exact htimes.symm
    · have hzero : (List.replicate times number).count other = 0 := by
        rw [List.count_eq_zero, List.mem_replicate]
        exact fun hmem => heq hmem.2
      rw [Function.update_of_ne heq, hzero]
      exact hremovals

/-- A functor that is called waits nowhere else: each connection is queued once, on its own thread. -/
theorem Inv.not_waiting {called : ℕ} {rest : List ℕ} (h : Inv s)
    (hthread : (s.threads thread).actor.waiting = called :: rest) {value : EventLoopThread ℕ}
    (hvalue : value.actor.waiting = rest) (other : ℕ) :
    called ∉ ((s.setThread thread value).threads other).actor.waiting := by
  have hnodup := h.nodup thread
  rw [hthread] at hnodup
  simp only [TcpServer.setThread]
  intro hmem
  by_cases heq : other = thread
  · rw [heq, Function.update_self, hvalue] at hmem
    exact (List.nodup_cons.mp hnodup).1 hmem
  · rw [Function.update_of_ne heq] at hmem
    obtain ⟨c, hc, hother, -⟩ := h.waiting other called hmem
    obtain ⟨d, hd, hself, -⟩ := h.waiting thread called (by rw [hthread]; exact List.mem_cons_self)
    obtain rfl : c = d := Option.mem_unique hc hd
    exact heq (hother.symm.trans hself)

theorem threadAdvance_inv (h : Inv s) : Inv (s.threadAdvance thread) := by
  have hadvance := Actor.advance_waiting (s.threads thread).actor
  unfold threadAdvance
  cases hcalled : (s.threads thread).actor.advance.2 with
  | none =>
      rw [hcalled, Option.toList_none, List.nil_append] at hadvance
      apply h.setThread
      rw [← hadvance]
  | some called =>
      rw [hcalled, Option.toList_some, List.singleton_append] at hadvance
      have hthread : Inv (s.setThread thread
          { s.threads thread with actor := (s.threads thread).actor.advance.1 }) := by
        apply h.setThread
        rw [← hadvance]
        exact List.sublist_cons_self called _
      obtain ⟨c, hc, -, -, hopen⟩ := h.waiting thread called (by rw [← hadvance]; exact List.mem_cons_self)
      simp only [connectionEstablished, Option.mem_def.mp hc]
      have hset := hthread.setConnection { c with conn := c.conn.connectionEstablished } 0 hc rfl
        (h.not_waiting hadvance.symm rfl) (fun _ => hopen) (h.once called c hc) rfl
      rw [List.replicate_zero, List.append_nil] at hset
      exact hset

theorem handleClose_inv (h : Inv s) (hc : c ∈ s.connections number) (hmay : s.MayClose c) :
    Inv (s.handleClose number c) := by
  have hopen : c.closedIn = none := h.closed number c hc hmay.1
  have hwaiting : ∀ thread, number ∉ (s.threads thread).actor.waiting := by
    intro thread hmem
    obtain ⟨d, hd, -, hstate, -⟩ := h.waiting thread number hmem
    obtain rfl : d = c := Option.mem_unique hd hc
    exact hstate hmay.1
  have honce := h.once number c hc
  rw [hopen] at honce
  exact h.setConnection { c with
      conn := c.conn.handleClose
      closeCb := c.closeCb + 1
      closedIn := some (s.iterations + 1) } 1 hc rfl hwaiting (fun hstate => by cases hstate)
    (by rw [honce]; rfl) rfl

/-- A new connection leaves the others where they are. -/
theorem Inv.mem_newConnectionEstablished (h : Inv s) (hc : c ∈ s.connections number) :
    c ∈ (s.newConnectionEstablished fd events).connections number := by
  simp only [newConnectionEstablished]
  rw [Function.update_of_ne (h.lt_accepted hc).ne]
  exact hc

theorem waiting_newConnectionEstablished (s : TcpServer) (fd : Int) (events : BitVec 32) (thread : ℕ) :
    ((s.newConnectionEstablished fd events).threads thread).actor.waiting =
      (s.threads thread).actor.waiting ++ if thread = s.nextId then [s.accepted] else [] := by
  simp only [newConnectionEstablished]
  by_cases heq : thread = s.nextId
  · rw [heq, Function.update_self, if_pos rfl, Actor.waiting, Actor.waiting, List.append_assoc]
    rfl
  · rw [Function.update_of_ne heq, if_neg heq, List.append_nil]

theorem newConnectionEstablished_inv (h : Inv s) (hfd : s.conns fd = none) :
    Inv (s.newConnectionEstablished fd events) := by
  have hnew := h.fresh s.accepted le_rfl
  refine ⟨h.pending, h.phase, ?_, ?_, ?_, ?_, ?_, ?_, ?_⟩
  · intro number hle
    simp only [newConnectionEstablished] at hle ⊢
    rw [Function.update_of_ne (by omega)]
    exact h.fresh number (by omega)
  · intro number c hc
    simp only [newConnectionEstablished, Master.newConnectionEstablished]
    rcases mem_update hc with ⟨rfl, rfl⟩ | hc
    · exact Function.update_self ..
    · have hkept := h.kept number c hc
      rw [Function.update_of_ne]
      · exact hkept
      · intro heq
        rw [heq, hfd] at hkept
        cases hkept
  · intro thread number hmem
    rw [waiting_newConnectionEstablished] at hmem
    rcases List.mem_append.mp hmem with hmem | hmem
    · obtain ⟨c, hc, hrest⟩ := h.waiting thread number hmem
      exact ⟨c, h.mem_newConnectionEstablished hc, hrest⟩
    · split_ifs at hmem with heq
      · rw [List.mem_singleton.mp hmem]
        refine ⟨_, Function.update_self .., heq.symm, ?_, rfl⟩
        intro hstate
        cases hstate
      · cases hmem
  · intro thread
    rw [waiting_newConnectionEstablished]
    refine List.nodup_append.mpr ⟨h.nodup thread, by split_ifs <;> simp, ?_⟩
    intro number hmem other hother heq
    obtain ⟨c, hc, -⟩ := h.waiting thread number hmem
    split_ifs at hother
    · rw [heq, List.mem_singleton.mp hother, hnew] at hc
      cases hc
    · cases hother
  · intro number c hc hstate
    rcases mem_update hc with ⟨-, rfl⟩ | hc
    · rfl
    · exact h.closed number c hc hstate
  · intro number c hc
    rcases mem_update hc with ⟨-, rfl⟩ | hc
    · rfl
    · exact h.once number c hc
  · intro number
    have hremovals := h.removals number
    simp only [newConnectionEstablished, Master.newConnectionEstablished]
    by_cases heq : number = s.accepted
    · subst heq
      rw [hnew] at hremovals
      rw [Function.update_self]
      exact hremovals
    · rw [Function.update_of_ne heq]
      exact hremovals

/-! ### Runs -/

theorem step_inv (h : Inv s) (hstep : s.step label = some next) : Inv next := by
  cases label with
  | accept fd events =>
      obtain ⟨⟨-, -, -, hfd⟩, hnext⟩ := Option.ite_none_right_eq_some.mp hstep
      rw [← Option.some.inj hnext]
      exact newConnectionEstablished_inv h hfd
  | notifyEvent =>
      obtain ⟨thread, -, hnext⟩ := Option.map_eq_some_iff.mp hstep
      rw [← hnext]
      have hset := h.setThread (s.threads thread).notifyEvent (List.Sublist.refl _)
      exact { hset with }
  | masterAdvance =>
      obtain ⟨-, hnext⟩ := Option.ite_none_right_eq_some.mp hstep
      rw [← Option.some.inj hnext]
      exact masterAdvance_inv h
  | readNotifyEvents thread =>
      obtain ⟨-, hnext⟩ := Option.ite_none_right_eq_some.mp hstep
      rw [← Option.some.inj hnext]
      apply h.setThread
      unfold EventLoopThread.readNotifyEvents
      split_ifs <;> exact List.Sublist.refl _
  | threadAdvance thread =>
      rw [← Option.some.inj hstep]
      exact threadAdvance_inv h
  | handleClose number =>
      obtain ⟨c, hc, hnext⟩ := Option.bind_eq_some_iff.mp hstep
      obtain ⟨hmay, hnext⟩ := Option.ite_none_right_eq_some.mp hnext
      rw [← Option.some.inj hnext]
      exact handleClose_inv h hc hmay
  | notifyThread thread =>
      rw [← Option.some.inj hstep]
      exact h.setThread (s.threads thread).notifyEvent (List.Sublist.refl _)

/-- In every run a connection that was closed is still in `conns_`, with its callback called once. -/
theorem closed_connection_kept {threadNum : ℕ} {pending : ℕ → Bool} {labels : List Label}
    (hrun : Machine.run step (new threadNum pending) labels = some s) (hc : c ∈ s.connections number)
    (hclosed : c.closedIn.isSome) : s.conns c.conn.fd = some number ∧ c.closeCb = 1 := by
  have hinv : Inv s := Machine.run_invariant_of_forall (fun _ _ _ h hstep => step_inv h hstep)
    (new_inv threadNum pending) hrun
  obtain ⟨closedIn, hclosedIn⟩ := Option.isSome_iff_exists.mp hclosed
  refine ⟨hinv.kept number c hc, ?_⟩
  rw [hinv.once number c hc, hclosedIn]
  rfl

def Current (s : TcpServer) : Prop :=
  ∀ number < s.accepted, ∀ c ∈ s.connections number, ∀ closedIn ∈ c.closedIn, s.iterations ≤ closedIn

theorem Current.setConnection (h : Current s) {changed : Connection}
    (hchanged : ∀ closedIn ∈ changed.closedIn, s.iterations ≤ closedIn) :
    Current (s.setConnection number changed) := by
  intro other hother d hd
  rcases mem_update hd with ⟨-, rfl⟩ | hold
  · exact hchanged
  · exact h other hother d hold

theorem newConnectionEstablished_current (hinv : Inv s) (h : Current s) :
    Current (s.newConnectionEstablished fd events) := by
  intro number _ c hc
  rcases mem_update hc with ⟨-, rfl⟩ | hold
  · intro closedIn hclosedIn
    cases hclosedIn
  · exact h number (hinv.lt_accepted hold) c hold

theorem masterAdvance_current (hinv : Inv s) (h : Current s) (hunfollowed : s.Unfollowed .masterAdvance) :
    Current s.masterAdvance := by
  rw [masterAdvance_eq hinv]
  intro number hnumber c hc closedIn hclosedIn
  dsimp only
  split_ifs with hphase
  · exact hunfollowed hphase number hnumber c hc closedIn hclosedIn
  · exact h number hnumber c hc closedIn hclosedIn

theorem threadAdvance_current (hinv : Inv s) (h : Current s) : Current (s.threadAdvance thread) := by
  unfold threadAdvance
  cases (s.threads thread).actor.advance.2 with
  | none => exact h
  | some called =>
      simp only [connectionEstablished]
      cases hcalled : s.connections called with
      | none => exact h
      | some c =>
          apply Current.setConnection h
          exact h called (hinv.lt_accepted hcalled) c hcalled

theorem handleClose_current (h : Current s) : Current (s.handleClose number c) := by
  apply Current.setConnection h
  intro closedIn hclosedIn
  obtain rfl : s.iterations + 1 = closedIn := Option.some.inj hclosedIn
  exact Nat.le_succ _

theorem step_current (hinv : Inv s) (h : Current s) (hunfollowed : s.Unfollowed label)
    (hstep : s.step label = some next) : Current next := by
  cases label with
  | accept fd events =>
      obtain ⟨-, hnext⟩ := Option.ite_none_right_eq_some.mp hstep
      rw [← Option.some.inj hnext]
      exact newConnectionEstablished_current hinv h
  | notifyEvent =>
      obtain ⟨thread, -, hnext⟩ := Option.map_eq_some_iff.mp hstep
      rw [← hnext]
      exact h
  | masterAdvance =>
      obtain ⟨-, hnext⟩ := Option.ite_none_right_eq_some.mp hstep
      rw [← Option.some.inj hnext]
      exact masterAdvance_current hinv h hunfollowed
  | readNotifyEvents thread =>
      obtain ⟨-, hnext⟩ := Option.ite_none_right_eq_some.mp hstep
      rw [← Option.some.inj hnext]
      exact h
  | threadAdvance thread =>
      rw [← Option.some.inj hstep]
      exact threadAdvance_current hinv h
  | handleClose number =>
      obtain ⟨c, -, hnext⟩ := Option.bind_eq_some_iff.mp hstep
      obtain ⟨-, hnext⟩ := Option.ite_none_right_eq_some.mp hnext
      rw [← Option.some.inj hnext]
      exact handleClose_current h
  | notifyThread thread =>
      rw [← Option.some.inj hstep]
      exact h

theorem Current.released (h : Current s) : s.Released := by
  intro number hnumber c hc closedIn hclosedIn hlt
  have hle := h number hnumber c hc closedIn hclosedIn
  omega

/-- Once the master completes an iteration that began after a connection was closed, that connection is
overdue: it is still in `conns_`. -/
theorem step_overdue (h : Inv s) (hunfollowed : ¬ s.Unfollowed label)
    (hstep : s.step label = some next) : ¬ next.Released := by
  cases label with
  | masterAdvance =>
      obtain ⟨-, hnext⟩ := Option.ite_none_right_eq_some.mp hstep
      simp only [Unfollowed] at hunfollowed
      push Not at hunfollowed
      obtain ⟨hphase, number, hnumber, c, hc, closedIn, hclosedIn, hle⟩ := hunfollowed
      rw [← Option.some.inj hnext, masterAdvance_eq h, if_pos hphase]
      intro hreleased
      have hrelease := hreleased number hnumber c hc closedIn hclosedIn (Nat.lt_succ_of_le hle)
      exact hrelease.1 (h.kept number c hc)
  | _ => exact absurd trivial hunfollowed

/-- The lifecycle is as it should be in every state of a run if and only if the master completes no
iteration that it began after a connection was closed. -/
theorem lifecycle_released_iff (threadNum : ℕ) (pending : ℕ → Bool) (labels : List Label)
    (henabled : Machine.AllSteps step (Machine.Enabled step) (new threadNum pending) labels) :
    Machine.Safe step Released (new threadNum pending) labels ↔
      Machine.AllSteps step Unfollowed (new threadNum pending) labels := by
  have hstart : Inv (new threadNum pending) ∧ Current (new threadNum pending) := by
    refine ⟨new_inv threadNum pending, ?_⟩
    intro number hnumber
    cases hnumber
  apply Machine.safe_iff_allSteps_of_enabled (fun s => Inv s ∧ Current s) (fun _ h => h.2.released)
    (fun _ _ h => h) _ _ labels _ hstart henabled
  · intro s label next h _ hunfollowed hstep
    exact ⟨step_inv h.1 hstep, step_current h.1 h.2 hunfollowed hstep⟩
  · intro s label next h hunfollowed hstep
    exact step_overdue h.1 hunfollowed hstep

theorem lifecycle_released_one :
    Machine.Safe step Released (new 1 fun _ => false)
      [.masterAdvance, .accept 5 0, .notifyEvent, .masterAdvance, .threadAdvance 0, .readNotifyEvents 0,
        .threadAdvance 0, .threadAdvance 0, .threadAdvance 0, .threadAdvance 0, .threadAdvance 0,
        .handleClose 0, .masterAdvance, .masterAdvance] :=
  (lifecycle_released_iff _ _ _ (by decide +kernel)).mpr (by decide +kernel)

/-- A connection is accepted, established and closed, and the master goes through two more iterations:
the connection is still in `conns_`. -/
theorem lifecycle_not_released :
    ∃ s, Machine.run step (new 1 fun _ => false)
        [.masterAdvance, .accept 5 0, .notifyEvent, .masterAdvance, .threadAdvance 0,
          .readNotifyEvents 0, .threadAdvance 0, .threadAdvance 0, .threadAdvance 0, .threadAdvance 0,
          .threadAdvance 0, .handleClose 0, .masterAdvance, .masterAdvance, .masterAdvance,
          .masterAdvance] = some s ∧
      s.conns 5 = some 0 ∧ ¬ s.Released :=
  ⟨_, rfl, rfl, by decide +kernel⟩

end EasyLib.Reactors.TcpServer
