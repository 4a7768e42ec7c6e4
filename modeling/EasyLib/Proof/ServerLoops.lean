import EasyLib.Proof.ServerRefinement

/-!
# The loops of the server

The loop threads of a server share nothing but the descriptors that the kernel hands out. A descriptor that
is in `conns_` is not handed out again, and as the master never runs a removal, none ever leaves
`conns_`: so each loop thread meets only what it could meet alone. The closed callback of a connection is
called once, and leaves one removal in the queue of the master. What is said of the master is what holds in
the runs of `TcpServer`, and the connections are those that it knows.
-/

namespace EasyLib.Reactors

namespace Server

variable {loops : ℕ → IoLoop} {s next : Server} {t : TcpServer} {thread number : ℕ} {loop : IoLoop}
  {label : Label}

/-! ### What follows from the relation -/

theorem Abstracts.kept (h : Abstracts s t) (hinv : TcpServer.Inv t) (hthread : thread < s.threadNum)
    (hnumber : (s.loops thread).Accepted number) :
    s.conns ((s.loops thread).connections number).conn.fd = some (thread, number) := by
  obtain ⟨c, hc, hshows⟩ := h.connections thread hthread number hnumber
  have hkept := hinv.kept _ c hc
  have hfd : c.conn.fd = ((s.loops thread).connections number).conn.fd :=
    congrArg Summary.fd hshows.summary
  have hconns : s.conns ((s.loops thread).connections number).conn.fd =
      (t.conns ((s.loops thread).connections number).conn.fd).map (place s.threadNum) :=
    congrFun (congrArg Master.conns h.master) _
  rw [hconns, ← hfd, hkept, Option.map_some, place_index hthread hnumber.1]

theorem Abstracts.removals (h : Abstracts s t) (hinv : TcpServer.Inv t) (hthread : thread < s.threadNum)
    (hnumber : (s.loops thread).Accepted number) :
    s.master.queue.count (thread, number) = ((s.loops thread).connections number).closings := by
  obtain ⟨c, hc, hshows⟩ := h.connections thread hthread number hnumber
  have hremovals := hinv.removals (index s.threadNum thread number)
  have hqueue : s.master.queue = t.master.queue.map (place s.threadNum) := by
    rw [← List.filterMap_eq_map]
    exact congrArg Actor.queue (congrArg Master.master h.master)
  rw [Option.mem_def.mp hc] at hremovals
  rw [hqueue, ← place_index hthread hnumber.1, List.count_map_of_injective _ _ (place_injective _), hremovals]
  exact congrArg Summary.closings hshows.summary

theorem Abstracts.closings_le_one (h : Abstracts s t) (hinv : TcpServer.Inv t)
    (hthread : thread < s.threadNum) (hnumber : (s.loops thread).Accepted number) :
    ((s.loops thread).connections number).closings ≤ 1 := by
  obtain ⟨c, hc, hshows⟩ := h.connections thread hthread number hnumber
  have hclosings : c.closeCb = ((s.loops thread).connections number).closings :=
    congrArg Summary.closings hshows.summary
  rw [← hclosings, hinv.once _ c hc]
  cases c.closedIn <;> simp

theorem Abstracts.balanced {other : ℕ} (h : Abstracts s t) (hthread : thread < s.threadNum)
    (hother : other < s.threadNum) : (s.loops thread).accepted ≤ (s.loops other).accepted + 1 := by
  obtain ⟨rounds, -, hrounds⟩ := h.turns
  rw [hrounds thread hthread, hrounds other hother]
  split_ifs <;> omega

/-! ### Each loop alone -/

structure Inv (loops : ℕ → IoLoop) (s : Server) : Prop where
  alone : ∀ thread < s.threadNum,
    ∃ labels, Machine.run IoLoop.step (loops thread) labels = some (s.loops thread)
  inv : ∀ thread < s.threadNum, IoLoop.Inv False (s.loops thread)

theorem Inv.setLoop {label : IoLoop.Label} (h : Inv loops s)
    (hstep : (s.loops thread).step label = some loop) : Inv loops (s.setLoop thread loop) := by
  refine ⟨fun other hlt => ?_, fun other hlt => ?_⟩
  · obtain ⟨labels, hlabels⟩ := h.alone other hlt
    simp only [Server.setLoop]
    by_cases heq : other = thread
    · subst heq
      rw [Function.update_self]
      exact ⟨labels ++ [label], Machine.run_concat hlabels hstep⟩
    · rw [Function.update_of_ne heq]
      exact ⟨labels, hlabels⟩
  · simp only [Server.setLoop]
    by_cases heq : other = thread
    · subst heq
      rw [Function.update_self]
      exact IoLoop.step_inv (h.inv other hlt) False.elim hstep
    · rw [Function.update_of_ne heq]
      exact h.inv other hlt

theorem Inv.of_loops (h : Inv loops s) (hthreadNum : next.threadNum = s.threadNum)
    (hloops : next.loops = s.loops) : Inv loops next := by
  constructor
  · rw [hthreadNum, hloops]
    exact h.alone
  · rw [hthreadNum, hloops]
    exact h.inv

/-- The descriptor of a new connection is new to the loop that gets it. -/
theorem Inv.newConnection_step (h : Inv loops s) (habs : Abstracts s t) (hinv : TcpServer.Inv t)
    (hmay : s.MayAccept (nextFd (s.loops s.nextId))) (hunused : s.Unused (nextFd (s.loops s.nextId)))
    (events : BitVec 32) :
    (s.loops s.nextId).step (.accept events) = some ((s.loops s.nextId).newConnection events) := by
  obtain ⟨-, -, hnextId, hnone⟩ := hmay
  refine if_pos fun id hid => ?_
  by_cases hown : id < 2
  · exact hunused s.nextId hnextId id hown
  · intro heq
    have hnumber : (s.loops s.nextId).Accepted id := ⟨not_lt.mp hown, hid⟩
    have hkept := habs.kept hinv hnextId hnumber
    rw [((h.inv s.nextId hnextId).kept id hnumber).fd, heq] at hkept
    exact absurd (hkept.symm.trans hnone) (by simp)

theorem threadNum_foldl (numbers : List ℕ) (m : Master (ℕ × ℕ)) :
    (numbers.foldl (fun m number => m.removeTcpConnection (thread, number)) m).threadNum = m.threadNum := by
  induction numbers generalizing m with
  | nil => rfl
  | cons number numbers ih => exact ih _

theorem step_threadNum (hstep : s.step label = some next) : next.threadNum = s.threadNum := by
  cases label with
  | accept events =>
      obtain ⟨-, hnext⟩ := Option.ite_none_right_eq_some.mp hstep
      rw [← Option.some.inj hnext]
      rfl
  | notifyEvent =>
      obtain ⟨thread, -, hnext⟩ := Option.bind_eq_some_iff.mp hstep
      obtain ⟨loop, -, rfl⟩ := Option.map_eq_some_iff.mp hnext
      rfl
  | masterAdvance =>
      obtain ⟨-, hnext⟩ := Option.ite_none_right_eq_some.mp hstep
      rw [← Option.some.inj hnext, masterAdvance]
      cases s.master.advance.2 <;> rfl
  | loop thread label =>
      obtain ⟨-, hnext⟩ := Option.ite_none_right_eq_some.mp hstep
      obtain ⟨loop, -, rfl⟩ := Option.map_eq_some_iff.mp hnext
      exact threadNum_foldl _ _

theorem step_inv (h : Inv loops s) (habs : Abstracts s t) (hinv : TcpServer.Inv t)
    (hstep : s.step label = some next) : Inv loops next := by
  have hthreadNum := step_threadNum hstep
  cases label with
  | accept events =>
      obtain ⟨⟨hmay, hunused⟩, hnext⟩ := Option.ite_none_right_eq_some.mp hstep
      obtain rfl := Option.some.inj hnext
      exact (h.setLoop (h.newConnection_step habs hinv hmay hunused events)).of_loops hthreadNum rfl
  | notifyEvent =>
      obtain ⟨thread, -, hnext⟩ := Option.bind_eq_some_iff.mp hstep
      obtain ⟨loop, hloop, rfl⟩ := Option.map_eq_some_iff.mp hnext
      exact (h.setLoop hloop).of_loops hthreadNum rfl
  | masterAdvance =>
      obtain ⟨-, hnext⟩ := Option.ite_none_right_eq_some.mp hstep
      obtain rfl := Option.some.inj hnext
      exact h.of_loops hthreadNum rfl
  | loop thread label =>
      obtain ⟨-, hnext⟩ := Option.ite_none_right_eq_some.mp hstep
      obtain ⟨loop, hloop, rfl⟩ := Option.map_eq_some_iff.mp hnext
      exact (h.setLoop hloop).of_loops hthreadNum rfl

/-! ### Runs -/

theorem new_abstracts {threadNum : ℕ}
    (hstart : ∀ thread < threadNum, ∃ fd events tied pending,
      IoLoop.start fd events tied pending = some (loops thread)) :
    Abstracts (new threadNum loops)
      (TcpServer.new threadNum fun thread => (loops thread).thread.actor.pending) := by
  refine ⟨rfl, fun thread hthread => ?_, fun thread hthread number hnumber => ?_, ⟨0, ?_, ?_⟩, nofun⟩
  · obtain ⟨fd, events, tied, pending, hloop⟩ := hstart thread hthread
    have hthread' : (loops thread).thread = .new pending := (IoLoop.start_spec hloop).1
    simp only [TcpServer.new, new, IoLoop.view, hthread']
    rfl
  · obtain ⟨fd, events, tied, pending, hloop⟩ := hstart thread hthread
    exact absurd hnumber (IoLoop.not_accepted_of_start hloop number)
  · exact (Nat.zero_mul _).symm
  · intro thread hthread
    obtain ⟨fd, events, tied, pending, hloop⟩ := hstart thread hthread
    exact (IoLoop.start_spec hloop).2.2.1

theorem new_inv {threadNum : ℕ}
    (hstart : ∀ thread < threadNum, ∃ fd events tied pending,
      IoLoop.start fd events tied pending = some (loops thread)) :
    Inv loops (new threadNum loops) := by
  refine ⟨fun _ _ => ⟨[], rfl⟩, fun thread hthread => ?_⟩
  obtain ⟨fd, events, tied, pending, hloop⟩ := hstart thread hthread
  exact IoLoop.start_inv False.elim hloop

/-- **The server is one of `TcpServer`.** Every run of it is a run there, with the same connections and the
same removals waiting for the master. -/
theorem server_refines {threadNum : ℕ} {labels : List Label}
    (hstart : ∀ thread < threadNum, ∃ fd events tied pending,
      IoLoop.start fd events tied pending = some (loops thread))
    (hrun : Machine.run step (new threadNum loops) labels = some s) :
    ∃ answers t, Machine.run TcpServer.step
        (TcpServer.new threadNum fun thread => (loops thread).thread.actor.pending) answers = some t ∧
      s.threadNum = threadNum ∧ Inv loops s ∧ TcpServer.Inv t ∧ Abstracts s t := by
  refine Machine.run_answered
    (fun s t => s.threadNum = threadNum ∧ Inv loops s ∧ TcpServer.Inv t ∧ Abstracts s t) ?_
    ⟨rfl, new_inv hstart, TcpServer.new_inv _ _, new_abstracts hstart⟩ hrun
  rintro s t label next ⟨hthreadNum, h, hinv, habs⟩ hstep
  obtain ⟨answers, t', hanswers, habs'⟩ := habs.step hinv h.inv hstep
  have hinv' : TcpServer.Inv t' := Machine.run_invariant_of_forall
    (fun _ _ _ h hstep => TcpServer.step_inv h hstep) hinv hanswers
  exact ⟨answers, t', hanswers, (step_threadNum hstep).trans hthreadNum, step_inv h habs hinv hstep, hinv',
    habs'⟩

/-- **The loops of a server do not disturb one another.** In every interleaving of the master, the loop
threads and the threads that use their connections, each loop thread does what it would do alone, no two
connections have one descriptor, and one removal waits for each connection that was closed. -/
theorem server_serves {threadNum : ℕ} {labels : List Label}
    (hstart : ∀ thread < threadNum, ∃ fd events tied pending,
      IoLoop.start fd events tied pending = some (loops thread))
    (hrun : Machine.run step (new threadNum loops) labels = some s) :
    s.threadNum = threadNum ∧ Serving loops s := by
  obtain ⟨-, t, -, hthreadNum, h, hinv, habs⟩ := server_refines hstart hrun
  refine ⟨hthreadNum, h.alone, fun thread hthread other hother => habs.balanced hthread hother, ?_,
    fun thread hthread number hnumber => habs.kept hinv hthread hnumber, ?_⟩
  · intro thread hthread number hnumber other hother number' hnumber' heq
    have hpair := habs.kept hinv hthread hnumber
    rw [heq, habs.kept hinv hother hnumber', Option.some.injEq, Prod.mk.injEq] at hpair
    exact ⟨hpair.1.symm, hpair.2.symm⟩
  · intro thread hthread number hnumber
    rw [habs.removals hinv hthread hnumber]
    split_ifs with hmem
    · exact le_antisymm (habs.closings_le_one hinv hthread hnumber) (List.count_pos_iff.mpr hmem)
    · exact List.count_eq_zero.mpr hmem

/-- The descriptors of two loop threads, which the kernel has handed out in turn. -/
def descriptors (thread id : ℕ) : ℤ := 3 + 2 * id + thread

theorem isSome_start_descriptors :
    ∀ thread < 2, (IoLoop.start (descriptors thread) (fun _ => 0) (fun _ => false) false).isSome := by
  decide

def twoLoops (thread : ℕ) : IoLoop :=
  (IoLoop.start (descriptors (thread % 2)) (fun _ => 0) (fun _ => false) false).get
    (isSome_start_descriptors (thread % 2) (Nat.mod_lt thread Nat.two_pos))

/-- Three connections are accepted, and the peer closes the first one. -/
def threeConnections : List Label :=
  [.masterAdvance, .accept 0, .notifyEvent, .accept 0, .notifyEvent, .loop 0 (.poll (· = 3) .zero),
    .loop 0 (.handleEvent (.error 11) (.accepted 0)), .accept 0, .loop 0 .advance, .loop 0 .advance,
    .loop 0 .advance, .loop 0 .advance, .loop 0 .advance, .loop 0 (.poll (· = 7) .zero), .notifyEvent,
    .loop 0 (.handleEvent (.bytes []) (.accepted 0))]

theorem server_serves_three :
    ∃ s, Machine.run step (new 2 twoLoops) threeConnections = some s ∧
      s.master.queue = [(0, 2)] ∧ (s.loops 0).accepted = 2 ∧ Serving twoLoops s := by
  have hreached : (Machine.run step (new 2 twoLoops) threeConnections).any
      (fun s => s.master.queue = [(0, 2)] ∧ (s.loops 0).accepted = 2) = true := by
    decide +kernel
  obtain ⟨s, hrun, hs⟩ := (Option.any_eq_true _ _).mp hreached
  obtain ⟨hqueue, haccepted⟩ := of_decide_eq_true hs
  refine ⟨s, hrun, hqueue, haccepted, (server_serves (fun thread _ => ?_) hrun).2⟩
  exact ⟨_, _, _, _, (Option.some_get _).symm⟩

end Server

end EasyLib.Reactors
