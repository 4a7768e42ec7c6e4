import EasyLib.Proof.Lifecycle
import EasyLib.Proof.LoopCallbacks
import EasyLib.Reactors.Server

/-!
# The server with and without its loops in full

`TcpServer` keeps of a loop thread only its eventfd and the `ConnectionEstablished` that it is still to run,
and of a connection its state. Every step of `Server` is one of its steps, or none: the requests of other
threads, the poller and the data on the sockets are not seen there. The loop threads are taken in turn, so
the connections in the order in which they are accepted are those of the threads row by row.
-/

namespace EasyLib.Reactors

/-! ### A loop that is seen in part -/

section View

variable {Functor Other : Type*} (f : Functor → Option Other)

def Phase.filterMap : Phase Functor → Phase Other
  | .poll => .poll
  | .handling => .handling
  | .swapping => .swapping
  | .running functors => .running (functors.filterMap f)

theorem Phase.filterMap_eq_handling_iff {phase : Phase Functor} :
    phase.filterMap f = .handling ↔ phase = .handling := by
  cases phase <;> simp [Phase.filterMap]

/-- An actor as it is seen by someone who knows some of the functors only. -/
def Actor.filterMap (actor : Actor Functor) : Actor Other where
  queue := actor.queue.filterMap f
  pending := actor.pending
  phase := actor.phase.filterMap f

def EventLoopThread.filterMap (thread : EventLoopThread Functor) : EventLoopThread Other where
  actor := thread.actor.filterMap f
  notified := thread.notified

variable {f} {actor : Actor Functor} {functor : Functor}

theorem Actor.filterMap_queueInActor {other : Other} (hf : f functor = some other) :
    (actor.queueInActor functor).filterMap f = (actor.filterMap f).queueInActor other := by
  simp [Actor.filterMap, queueInActor, hf]

theorem Actor.filterMap_queueInActor_of_none (hf : f functor = none) :
    (actor.queueInActor functor).filterMap f = actor.filterMap f := by
  simp [Actor.filterMap, queueInActor, hf]

/-- The call of a functor that is not known is not seen. -/
theorem Actor.filterMap_advance_of_none (hcalled : actor.advance.2 = some functor)
    (hf : f functor = none) : actor.advance.1.filterMap f = actor.filterMap f := by
  obtain ⟨queue, pending, phase⟩ := actor
  cases phase with
  | poll | handling | swapping => cases hcalled
  | running functors =>
      cases functors with
      | nil => cases hcalled
      | cons head functors =>
          obtain rfl : head = functor := Option.some.inj hcalled
          simp [Actor.filterMap, advance, Phase.filterMap, hf]

/-- Every other step is seen. -/
theorem Actor.advance_filterMap (hcalled : ∀ functor ∈ actor.advance.2, (f functor).isSome) :
    (actor.filterMap f).advance = (actor.advance.1.filterMap f, actor.advance.2.bind f) := by
  obtain ⟨queue, pending, phase⟩ := actor
  cases phase with
  | poll => rfl
  | handling => cases pending <;> rfl
  | swapping => rfl
  | running functors =>
      cases functors with
      | nil => rfl
      | cons head functors =>
          obtain ⟨other, hother⟩ := Option.isSome_iff_exists.mp (hcalled head rfl)
          simp [Actor.filterMap, advance, Phase.filterMap, hother]

theorem EventLoopThread.filterMap_readNotifyEvents (thread : EventLoopThread Functor) :
    thread.readNotifyEvents.filterMap f = (thread.filterMap f).readNotifyEvents := by
  have hnotified : (thread.filterMap f).notified = thread.notified := rfl
  rw [readNotifyEvents, readNotifyEvents, hnotified]
  split_ifs <;> rfl

end View

/-! ### What the server sees of a loop -/

/-- What the server sees of a connection, with the number of times that it was closed. -/
structure Summary where
  fd : ℤ
  state : ConnectionState
  closings : ℕ

def Connection.summary (c : Connection) : Summary := ⟨c.conn.fd, c.conn.state, c.closeCb⟩

namespace IoConnection

variable {c next : IoConnection} {conn : TcpConnection}

def summary (c : IoConnection) : Summary := ⟨c.conn.fd, c.conn.state, c.closings⟩

theorem Opened.closings_eq (h : c.Opened) : c.closings = 0 := by
  obtain ⟨body, hbody, hcalls, -⟩ := h.calls
  rw [closings, hcalls, List.count_eq_zero]
  simpa using IoLoop.not_mem_body hbody

theorem Closed.closings_eq (h : c.Closed) : c.closings = 1 := by
  obtain ⟨body, chunks, hbody, hcalls, -⟩ := h.calls
  have hzero := List.count_eq_zero.mpr (IoLoop.not_mem_body hbody)
  rw [closings, hcalls]
  simp [hzero]

theorem closings_set {more : List Callback} (h : conn.callbacks = c.conn.callbacks ++ more)
    (hmore : .closed ∉ more) : (c.set conn).closings = c.closings := by
  have hzero : (more.map UserCall.callback).count (.callback .closed) = 0 := by
    rw [List.count_eq_zero]
    simpa using hmore
  rw [closings, calls_set h, List.count_append, hzero]
  rfl

theorem summary_established (c : IoConnection) :
    (c.set c.conn.connectionEstablished).summary = { c.summary with state := .established } := by
  have hcallbacks : c.conn.connectionEstablished.callbacks = c.conn.callbacks ++ [.established] := rfl
  rw [summary, closings_set hcallbacks (by decide)]
  rfl

theorem summary_request {request : Request} (hrequest : c.request request = some next) :
    next.summary = c.summary := by
  obtain ⟨conn, hwrote, rfl⟩ := request_wrote hrequest
  have hclosings : (c.set conn).closings = c.closings := by
    rcases hwrote.callbacks with hsame | hcomplete
    · exact closings_set (hsame.trans (List.append_nil _).symm) (by decide)
    · exact closings_set hcomplete (by decide)
  rw [summary, summary, hclosings, ← hwrote.fd, ← hwrote.state]
  rfl

end IoConnection

namespace IoLoop

variable {s next : IoLoop} {number : ℕ} {label : Label} {index : ℕ → ℕ} {clean : Prop}

def summaries (s : IoLoop) (number : ℕ) : Summary := (s.connections number).summary

/-- The functors of the server among those of a loop, with what it calls the connections. -/
def established (index : ℕ → ℕ) : LoopFunctor → Option ℕ
  | .connectionEstablished number => some (index number)
  | .request _ _ => none

def view (index : ℕ → ℕ) (s : IoLoop) : EventLoopThread ℕ := s.thread.filterMap (established index)

/-- What a step of a loop is for the server. -/
inductive Moves (index : ℕ → ℕ) (s next : IoLoop) : Prop
  | silent (hview : next.view index = s.view index) (hsummaries : next.summaries = s.summaries)
  | notified (hview : next.view index = (s.view index).notifyEvent)
      (hsummaries : next.summaries = s.summaries)
  | read (hphase : (s.view index).actor.phase = .handling)
      (hview : next.view index = (s.view index).readNotifyEvents) (hsummaries : next.summaries = s.summaries)
  | advanced (hcalled : (s.view index).actor.advance.2 = none)
      (hview : next.view index = { s.view index with actor := (s.view index).actor.advance.1 })
      (hsummaries : next.summaries = s.summaries)
  | established (number : ℕ) (haccepted : s.Accepted number)
      (hcalled : (s.view index).actor.advance.2 = some (index number))
      (hview : next.view index = { s.view index with actor := (s.view index).actor.advance.1 })
      (hsummaries : next.summaries = Function.update s.summaries number
        { s.summaries number with state := .established })
  | closed (number : ℕ) (haccepted : s.Accepted number)
      (hphase : (s.view index).actor.phase = .handling)
      (hstate : (s.summaries number).state = .established) (hview : next.view index = s.view index)
      (hsummaries : next.summaries = Function.update s.summaries number
        ⟨(s.summaries number).fd, .closed, (s.summaries number).closings + 1⟩)

/-- What the functions that change one connection leave alone. -/
structure Changed (s : IoLoop) (number : ℕ) (c : IoConnection) (next : IoLoop) : Prop where
  thread : next.thread = s.thread
  accepted : next.accepted = s.accepted
  connections : next.connections = Function.update s.connections number c

theorem store_changed {c : IoConnection} (hstore : s.store number c = some next) :
    s.Changed number c next := by
  unfold store at hstore
  split_ifs at hstore
  · rw [← Option.some.inj hstore]
    exact ⟨rfl, rfl, rfl⟩
  · obtain ⟨poller, -, rfl⟩ := Option.map_eq_some_iff.mp hstore
    exact ⟨rfl, rfl, rfl⟩

theorem Changed.summaries_eq {c : IoConnection} (h : s.Changed number c next) :
    next.summaries = Function.update s.summaries number c.summary := by
  funext other
  rw [summaries, h.connections]
  by_cases heq : other = number
  · rw [heq, Function.update_self, Function.update_self]
  · rw [Function.update_of_ne heq, Function.update_of_ne heq]
    rfl

theorem Changed.summaries_eq_self {c : IoConnection} (h : s.Changed number c next)
    (hc : c.summary = (s.connections number).summary) : next.summaries = s.summaries := by
  rw [h.summaries_eq, hc]
  exact Function.update_eq_self ..

theorem Changed.view_eq {c : IoConnection} (h : s.Changed number c next) :
    next.view index = s.view index := by
  rw [view, h.thread, view]

/-- A request changes nothing that the server sees. -/
theorem request_changed {request : Request} (hcall : s.call (.request number request) = some next) :
    ∃ c, s.Changed number c next ∧ c.summary = (s.connections number).summary := by
  obtain ⟨c, hrequest, hstore⟩ := Option.bind_eq_some_iff.mp hcall
  exact ⟨c, store_changed hstore, IoConnection.summary_request hrequest⟩

theorem established_changed (hcall : s.connectionEstablished number = some next) :
    s.Changed number ((s.connections number).set (s.connections number).conn.connectionEstablished)
      next := by
  obtain ⟨poller, -, rfl⟩ := Option.map_eq_some_iff.mp hcall
  exact ⟨rfl, rfl, rfl⟩

/-- A step of the actor that calls no functor, or one of the server. -/
theorem view_advance (hcalled : ∀ functor ∈ s.thread.actor.advance.2, (established index functor).isSome)
    (hthread : next.thread = { s.thread with actor := s.thread.actor.advance.1 }) :
    next.view index = { s.view index with actor := (s.view index).actor.advance.1 } ∧
      (s.view index).actor.advance.2 = s.thread.actor.advance.2.bind (established index) := by
  have hadvance := Actor.advance_filterMap hcalled
  refine ⟨?_, congrArg Prod.snd hadvance⟩
  rw [view, hthread]
  exact congrArg (EventLoopThread.mk · s.thread.notified) (congrArg Prod.fst hadvance).symm

theorem moves_of_advance (hcalled : s.thread.actor.advance.2 = none)
    (hthread : next.thread = { s.thread with actor := s.thread.actor.advance.1 })
    (hconnections : next.connections = s.connections) : Moves index s next := by
  obtain ⟨hview, hnone⟩ := view_advance (by simp [hcalled]) hthread
  rw [hcalled] at hnone
  refine .advanced hnone hview ?_
  funext number
  rw [summaries, hconnections, summaries]

theorem advance_moves (h : Inv clean s) (hstep : s.step .advance = some next) :
    next.accepted = s.accepted ∧ Moves index s next := by
  obtain ⟨-, hstep⟩ := Option.ite_none_right_eq_some.mp hstep
  have hwaiting := s.thread.actor.advance_waiting
  cases hcalled : s.thread.actor.advance.2 with
  | none =>
      rw [hcalled] at hstep
      rw [← Option.some.inj hstep]
      exact ⟨rfl, moves_of_advance hcalled rfl rfl⟩
  | some functor =>
      rw [hcalled] at hstep hwaiting
      have hqueued := h.queued functor (hwaiting ▸ List.mem_cons_self)
      cases functor with
      | connectionEstablished number =>
          have hchanged := established_changed hstep
          obtain ⟨hview, hsome⟩ := view_advance (by simp [hcalled, established]) hchanged.thread
          refine ⟨hchanged.accepted, .established number hqueued.1 (by rw [hsome, hcalled]; rfl) hview ?_⟩
          rw [hchanged.summaries_eq, IoConnection.summary_established]
          rfl
      | request number request =>
          obtain ⟨c, hchanged, hc⟩ := request_changed hstep
          refine ⟨hchanged.accepted, .silent (hchanged.view_eq.trans ?_) (hchanged.summaries_eq_self hc)⟩
          exact congrArg (EventLoopThread.mk · s.thread.notified)
            (Actor.filterMap_advance_of_none hcalled rfl)

theorem handleEvent_moves {read : Buffer.ReadvResult} {write : WriteResult} (h : Inv clean s)
    (hstep : s.step (.handleEvent read write) = some next) :
    next.accepted = s.accepted ∧ Moves index s next := by
  simp only [step] at hstep
  split at hstep
  case h_1 => cases hstep
  case h_2 id revents active hactive =>
    obtain ⟨hreadable, hstep⟩ := Option.ite_none_right_eq_some.mp hstep
    have hphase : (s.view index).actor.phase = .handling :=
      (Phase.filterMap_eq_handling_iff _).mpr (h.handling (by simp [hactive]))
    unfold handleEvent at hstep
    by_cases hid : id = 0
    · rw [if_pos hid] at hstep
      obtain rfl := Option.some.inj hstep
      split
      · exact ⟨rfl, .read hphase (EventLoopThread.filterMap_readNotifyEvents _) rfl⟩
      · exact ⟨rfl, .silent rfl rfl⟩
    rw [if_neg hid] at hstep
    by_cases htimer : id = 1
    · rw [if_pos htimer] at hstep
      obtain rfl := Option.some.inj hstep
      exact ⟨rfl, .silent rfl rfl⟩
    rw [if_neg htimer] at hstep
    obtain ⟨after, hhandle, hstore⟩ := Option.bind_eq_some_iff.mp hstep
    have hchanged := store_changed hstore
    have hnumber : 2 ≤ id := by omega
    obtain ⟨haccepted, hawaited⟩ := h.awaited (id, revents) (hactive ▸ List.mem_cons_self) hnumber
    have hkept := h.kept id haccepted
    obtain ⟨-, hfd, -, hopened | hclosed⟩ := hawaited.handled hkept.stream hreadable
      (hkept.interest_of_established hawaited.opened.state) hhandle
    · refine ⟨hchanged.accepted, .silent hchanged.view_eq (hchanged.summaries_eq_self ?_)⟩
      rw [IoConnection.summary, IoConnection.summary, hopened.closings_eq, hawaited.opened.closings_eq,
        hopened.state, hawaited.opened.state, hfd]
    · refine ⟨hchanged.accepted, .closed id haccepted hphase hawaited.opened.state hchanged.view_eq ?_⟩
      rw [hchanged.summaries_eq, IoConnection.summary, hclosed.closings_eq, hclosed.state, hfd, summaries,
        IoConnection.summary, hawaited.opened.closings_eq]
      rfl

theorem local_moves (h : Inv clean s) (hlocal : Server.Local label) (hstep : s.step label = some next) :
    next.accepted = s.accepted ∧ Moves index s next := by
  cases label with
  | accept events => exact hlocal.elim
  | queueInLoop number request =>
      obtain ⟨-, hstep⟩ := Option.ite_none_right_eq_some.mp hstep
      rw [← Option.some.inj hstep]
      exact ⟨rfl, .silent (congrArg (EventLoopThread.mk · s.thread.notified)
        (Actor.filterMap_queueInActor_of_none rfl)) rfl⟩
  | notifyEvent =>
      rw [← Option.some.inj hstep]
      exact ⟨rfl, .notified rfl rfl⟩
  | poll readable writable =>
      obtain ⟨hphase, hstep⟩ := Option.ite_none_right_eq_some.mp hstep
      obtain ⟨active, -, rfl⟩ := Option.map_eq_some_iff.mp hstep
      have hcalled : s.thread.actor.advance.2 = none := by simp [Actor.advance, hphase]
      exact ⟨rfl, moves_of_advance hcalled rfl rfl⟩
  | handleEvent read write => exact handleEvent_moves h hstep
  | advance => exact advance_moves h hstep
  | callInLoop number request =>
      obtain ⟨-, hcall⟩ := Option.ite_none_right_eq_some.mp hstep
      obtain ⟨c, hchanged, hc⟩ := request_changed hcall
      exact ⟨hchanged.accepted, .silent hchanged.view_eq (hchanged.summaries_eq_self hc)⟩
  | retrieve number len =>
      obtain ⟨-, hstep⟩ := Option.ite_none_right_eq_some.mp hstep
      rw [← Option.some.inj hstep]
      have hchanged : s.Changed number ((s.connections number).retrieve len) { s with
          connections := Function.update s.connections number ((s.connections number).retrieve len) } :=
        ⟨rfl, rfl, rfl⟩
      exact ⟨rfl, .silent rfl (hchanged.summaries_eq_self rfl)⟩

end IoLoop

/-! ### The names of the connections -/

namespace Master

variable {Name Other : Type*} (g : Name → Other) {m : Master Name}

def map (m : Master Name) : Master Other where
  master := m.master.filterMap fun name => some (g name)
  threadNum := m.threadNum
  nextId := m.nextId
  conns := fun fd => (m.conns fd).map g
  notifying := m.notifying

theorem mayAccept_map_iff {fd : ℤ} : (m.map g).MayAccept fd ↔ m.MayAccept fd := by
  simp only [MayAccept, map, Actor.filterMap, Phase.filterMap_eq_handling_iff, Option.map_eq_none_iff]

theorem map_newConnectionEstablished (m : Master Name) (fd : ℤ) (name : Name) :
    (m.newConnectionEstablished fd name).map g = (m.map g).newConnectionEstablished fd (g name) := by
  have hconns : (fun other => (Function.update m.conns fd (some name) other).map g) =
      Function.update (fun other => (m.conns other).map g) fd (some (g name)) := by
    funext other
    by_cases heq : other = fd
    · rw [heq, Function.update_self, Function.update_self, Option.map_some]
    · rw [Function.update_of_ne heq, Function.update_of_ne heq]
  simp only [map, newConnectionEstablished, hconns]
  rfl

theorem map_removeTcpConnection (m : Master Name) (name : Name) :
    (m.removeTcpConnection name).map g = (m.map g).removeTcpConnection (g name) := by
  have hmaster : (m.master.queueInActor name).filterMap (fun name => some (g name)) =
      (m.master.filterMap fun name => some (g name)).queueInActor (g name) :=
    Actor.filterMap_queueInActor rfl
  simp only [map, removeTcpConnection, hmaster]

end Master

namespace Server

variable {s next : Server} {t : TcpServer} {thread number threadNum : ℕ} {last : IoLoop} {label : Label}

/-- The thread of a connection and its number there, from its number in the order of acceptance. -/
def place (threadNum number : ℕ) : ℕ × ℕ := (number % threadNum, number / threadNum + 2)

def index (threadNum thread number : ℕ) : ℕ := (number - 2) * threadNum + thread

theorem place_index (hthread : thread < threadNum) (hnumber : 2 ≤ number) :
    place threadNum (index threadNum thread number) = (thread, number) := by
  have hpos : 0 < threadNum := Nat.zero_lt_of_lt hthread
  rw [place, index, Nat.mul_comm, Nat.mul_add_mod, Nat.mod_eq_of_lt hthread, Nat.mul_add_div hpos,
    Nat.div_eq_of_lt hthread, Nat.add_zero, Nat.sub_add_cancel hnumber]

theorem place_injective (threadNum : ℕ) : Function.Injective (place threadNum) := by
  intro number other heq
  obtain ⟨hmod, hdiv⟩ := Prod.mk.inj heq
  rw [← Nat.div_add_mod number threadNum, hmod, Nat.add_right_cancel hdiv, Nat.div_add_mod]

theorem index_inj {other number' : ℕ} (hthread : thread < threadNum) (hother : other < threadNum)
    (hnumber : 2 ≤ number) (hnumber' : 2 ≤ number')
    (heq : index threadNum thread number = index threadNum other number') :
    thread = other ∧ number = number' := by
  have hplace := congrArg (place threadNum) heq
  rw [place_index hthread hnumber, place_index hother hnumber'] at hplace
  exact Prod.mk.inj hplace

/-! ### The relation -/

/-- What the smaller model has of a connection. -/
structure Shows (thread : ℕ) (summary : Summary) (c : Connection) : Prop where
  thread : c.thread = thread
  summary : c.summary = summary
  reading : c.conn.state = .established → c.conn.channel.isReading = true

structure Abstracts (s : Server) (t : TcpServer) : Prop where
  master : s.toMaster = t.toMaster.map (place s.threadNum)
  threads : ∀ thread < s.threadNum, t.threads thread = (s.loops thread).view (index s.threadNum thread)
  connections : ∀ thread < s.threadNum, ∀ number, (s.loops thread).Accepted number →
    ∃ c ∈ t.connections (index s.threadNum thread number), Shows thread ((s.loops thread).summaries number) c
  turns : ∃ rounds, t.accepted = rounds * s.threadNum + s.nextId ∧ ∀ thread < s.threadNum,
    (s.loops thread).accepted = rounds + if thread < s.nextId then 1 else 0
  notifying : ∀ thread ∈ s.notifying, thread < s.threadNum

/-- A loop takes a step, and one of its connections may have changed with it. -/
theorem Abstracts.setLoop {connections : ℕ → Option Connection} (h : Abstracts s t)
    (hthread : thread < s.threadNum) (haccepted : last.accepted = (s.loops thread).accepted)
    (hown : ∀ number, (s.loops thread).Accepted number →
      ∃ c ∈ connections (index s.threadNum thread number), Shows thread (last.summaries number) c)
    (hother : ∀ other < s.threadNum, other ≠ thread → ∀ number, 2 ≤ number →
      connections (index s.threadNum other number) = t.connections (index s.threadNum other number)) :
    Abstracts (s.setLoop thread last)
      { t.setThread thread (last.view (index s.threadNum thread)) with connections } := by
  refine ⟨h.master, fun other hlt => ?_, fun other hlt number hnumber => ?_, ?_, h.notifying⟩
  · simp only [Server.setLoop, TcpServer.setThread]
    by_cases heq : other = thread
    · rw [heq, Function.update_self, Function.update_self]
    · rw [Function.update_of_ne heq, Function.update_of_ne heq]
      exact h.threads other hlt
  · simp only [Server.setLoop] at hnumber ⊢
    by_cases heq : other = thread
    · subst heq
      rw [Function.update_self] at hnumber ⊢
      rw [IoLoop.Accepted, IoLoop.nextNumber, haccepted] at hnumber
      exact hown number hnumber
    · rw [Function.update_of_ne heq] at hnumber ⊢
      rw [hother other hlt heq number hnumber.1]
      exact h.connections other hlt number hnumber
  · obtain ⟨rounds, htotal, hrounds⟩ := h.turns
    refine ⟨rounds, htotal, fun other hlt => ?_⟩
    simp only [Server.setLoop]
    by_cases heq : other = thread
    · rw [heq, Function.update_self, haccepted]
      exact hrounds thread hthread
    · rw [Function.update_of_ne heq]
      exact hrounds other hlt

theorem Abstracts.setLoop_same (h : Abstracts s t) (hthread : thread < s.threadNum)
    (haccepted : last.accepted = (s.loops thread).accepted)
    (hsummaries : last.summaries = (s.loops thread).summaries) :
    Abstracts (s.setLoop thread last) (t.setThread thread (last.view (index s.threadNum thread))) := by
  refine h.setLoop hthread haccepted (fun number hnumber => ?_) fun _ _ _ _ _ => rfl
  rw [hsummaries]
  exact h.connections thread hthread number hnumber

theorem Abstracts.setLoop_changed {c : Connection} (h : Abstracts s t) (hthread : thread < s.threadNum)
    (haccepted : last.accepted = (s.loops thread).accepted) (hnumber : (s.loops thread).Accepted number)
    (hsummaries : last.summaries = Function.update (s.loops thread).summaries number c.summary)
    (hc : Shows thread c.summary c) :
    Abstracts (s.setLoop thread last)
      ((t.setThread thread (last.view (index s.threadNum thread))).setConnection
        (index s.threadNum thread number) c) := by
  refine h.setLoop hthread haccepted (fun number' hnumber' => ?_) fun other hlt hne number' hnumber' => ?_
  · rw [hsummaries]
    by_cases heq : number' = number
    · rw [heq]
      refine ⟨c, Function.update_self .., ?_⟩
      rw [Function.update_self]
      exact hc
    · rw [Function.update_of_ne heq, TcpServer.setThread, Function.update_of_ne]
      · exact h.connections thread hthread number' hnumber'
      · exact fun hindex => heq (index_inj hthread hthread hnumber'.1 hnumber.1 hindex).2
  · refine Function.update_of_ne (fun hindex => ?_) ..
    exact hne (index_inj hlt hthread hnumber' hnumber.1 hindex).1

/-! ### The steps of a loop -/

theorem closed_eq_nil {loop : IoLoop}
    (h : ∀ number, (last.summaries number).closings = (loop.summaries number).closings) :
    closed loop last = [] := by
  rw [closed, List.flatMap_eq_nil_iff]
  intro index _
  exact (List.replicate_eq_nil_iff _).mpr (Nat.sub_eq_zero_of_le (Nat.le_of_eq (h (index + 2))))

theorem flatMap_range_eq {α : Type*} {f : ℕ → List α} {count : ℕ} (hnumber : number < count)
    (hf : ∀ other, other ≠ number → f other = []) : (List.range count).flatMap f = f number := by
  induction count with
  | zero => cases hnumber
  | succ count ih =>
      rw [List.range_succ, List.flatMap_append, List.flatMap_singleton]
      rcases Nat.lt_succ_iff_lt_or_eq.mp hnumber with hlt | rfl
      · rw [ih hlt, hf count hlt.ne', List.append_nil]
      · have hnil : (List.range number).flatMap f = [] :=
          List.flatMap_eq_nil_iff.mpr fun other hother => hf other (List.mem_range.mp hother).ne
        rw [hnil, List.nil_append]

theorem closed_eq_singleton {loop : IoLoop} {summary : Summary} (hnumber : loop.Accepted number)
    (hsummaries : last.summaries = Function.update loop.summaries number summary)
    (hclosings : summary.closings = (loop.summaries number).closings + 1) :
    closed loop last = [number] := by
  obtain ⟨index, rfl⟩ := Nat.exists_eq_add_of_le' hnumber.1
  have hindex : index < loop.accepted := Nat.lt_of_add_lt_add_right hnumber.2
  have hlast (other : ℕ) : (last.connections other).closings =
      (Function.update loop.summaries (index + 2) summary other).closings :=
    congrArg Summary.closings (congrFun hsummaries other)
  rw [closed, flatMap_range_eq hindex]
  · rw [hlast, Function.update_self, hclosings]
    exact congrArg (List.replicate · (index + 2)) (Nat.add_sub_cancel_left _ 1)
  · intro other hne
    rw [hlast, Function.update_of_ne (fun heq => hne (Nat.add_right_cancel heq))]
    exact congrArg (List.replicate · (other + 2)) (Nat.sub_self _)

/-- A step that changes no connection leaves no removal, so that only the thread has to be followed. -/
theorem Abstracts.loop_same (h : Abstracts s t) (hthread : thread < s.threadNum)
    (haccepted : last.accepted = (s.loops thread).accepted)
    (hsummaries : last.summaries = (s.loops thread).summaries) :
    Abstracts { s.setLoop thread last with
        toMaster := (closed (s.loops thread) last).foldl
          (fun m number => m.removeTcpConnection (thread, number)) s.toMaster }
      (t.setThread thread (last.view (index s.threadNum thread))) := by
  rw [closed_eq_nil fun number => congrArg Summary.closings (congrFun hsummaries number)]
  exact h.setLoop_same hthread haccepted hsummaries

theorem Abstracts.loop (h : Abstracts s t) (hthread : thread < s.threadNum)
    (haccepted : last.accepted = (s.loops thread).accepted)
    (hmoves : IoLoop.Moves (index s.threadNum thread) (s.loops thread) last) :
    ∃ answers t', Machine.run TcpServer.step t answers = some t' ∧
      Abstracts { s.setLoop thread last with
        toMaster := (closed (s.loops thread) last).foldl
          (fun m number => m.removeTcpConnection (thread, number)) s.toMaster } t' := by
  have hview := h.threads thread hthread
  cases hmoves with
  | silent hlast hsummaries =>
      refine ⟨[], _, ?_, h.loop_same hthread haccepted hsummaries⟩
      rw [hlast, ← hview, TcpServer.setThread, Function.update_eq_self]
      rfl
  | notified hlast hsummaries =>
      refine ⟨[.notifyThread thread], _, ?_, h.loop_same hthread haccepted hsummaries⟩
      rw [hlast, ← hview]
      rfl
  | read hphase hlast hsummaries =>
      refine ⟨[.readNotifyEvents thread], _, ?_, h.loop_same hthread haccepted hsummaries⟩
      rw [hlast, ← hview, Machine.run_cons, TcpServer.step, if_pos (hview ▸ hphase)]
      rfl
  | advanced hcalled hlast hsummaries =>
      refine ⟨[.threadAdvance thread], _, ?_, h.loop_same hthread haccepted hsummaries⟩
      rw [Machine.run_cons, TcpServer.step, TcpServer.threadAdvance, hview, hcalled, hlast]
      rfl
  | established number hnumber hcalled hlast hsummaries =>
      obtain ⟨c, hc, hshows⟩ := h.connections thread hthread number hnumber
      refine ⟨[.threadAdvance thread], t.threadAdvance thread, rfl, ?_⟩
      have hclosed : closed (s.loops thread) last = [] := by
        refine closed_eq_nil fun other => ?_
        rw [hsummaries]
        by_cases heq : other = number
        · rw [heq, Function.update_self]
        · rw [Function.update_of_ne heq]
      have hchanged : last.summaries = Function.update (s.loops thread).summaries number
          (Connection.summary { c with conn := c.conn.connectionEstablished }) := by
        rw [hsummaries, ← hshows.summary]
        rfl
      have hset := h.setLoop_changed hthread haccepted hnumber hchanged
        ⟨hshows.thread, rfl, fun _ => Channel.isReading_enableReading _⟩
      rw [hclosed, TcpServer.threadAdvance, hview, hcalled, ← hlast]
      simp only [TcpServer.connectionEstablished, Option.mem_def.mp hc]
      exact hset
  | closed number hnumber hphase hstate hlast hsummaries =>
      obtain ⟨c, hc, hshows⟩ := h.connections thread hthread number hnumber
      have hestablished : c.conn.state = .established :=
        (congrArg Summary.state hshows.summary).trans hstate
      have hmay : t.MayClose c := by
        refine ⟨hestablished, hshows.reading hestablished, ?_⟩
        rw [hshows.thread, hview]
        exact hphase
      refine ⟨[.handleClose (index s.threadNum thread number)],
        t.handleClose (index s.threadNum thread number) c, ?_, ?_⟩
      · rw [Machine.run_cons, TcpServer.step, Option.mem_def.mp hc, Option.bind_some, if_pos hmay]
        rfl
      have hchanged : last.summaries = Function.update (s.loops thread).summaries number
          (Connection.summary { c with
            conn := c.conn.handleClose, closeCb := c.closeCb + 1, closedIn := some (t.iterations + 1) }) := by
        rw [hsummaries, ← hshows.summary]
        rfl
      have hset := h.setLoop_changed hthread haccepted hnumber hchanged
        ⟨hshows.thread, rfl, fun hstate => by cases hstate⟩
      rw [hlast, ← hview, TcpServer.setThread, Function.update_eq_self] at hset
      rw [closed_eq_singleton hnumber hsummaries rfl]
      refine { hset with master := ?_ }
      have hmaster := Master.map_removeTcpConnection (place s.threadNum) t.toMaster
        (index s.threadNum thread number)
      rw [place_index hthread hnumber.1, ← h.master] at hmaster
      exact hmaster.symm

/-! ### The steps of the master -/

/-- The next thread in turn takes a connection. -/
theorem turns_next {accepted : ℕ → ℕ} {rounds nextId total : ℕ} (hnextId : nextId < threadNum)
    (htotal : total = rounds * threadNum + nextId)
    (h : ∀ thread < threadNum, accepted thread = rounds + if thread < nextId then 1 else 0) :
    ∃ rounds, total + 1 = rounds * threadNum + (if nextId = threadNum - 1 then 0 else nextId + 1) ∧
      ∀ thread < threadNum, Function.update accepted nextId (accepted nextId + 1) thread =
        rounds + if thread < (if nextId = threadNum - 1 then 0 else nextId + 1) then 1 else 0 := by
  have hself := h nextId hnextId
  rw [if_neg (lt_irrefl nextId)] at hself
  by_cases hlast : nextId = threadNum - 1
  · refine ⟨rounds + 1, ?_, fun thread hthread => ?_⟩
    · rw [if_pos hlast, htotal, Nat.succ_mul]
      omega
    rw [if_pos hlast, if_neg (Nat.not_lt_zero thread)]
    by_cases heq : thread = nextId
    · rw [heq, Function.update_self, hself]
    · rw [Function.update_of_ne heq, h thread hthread, if_pos (by omega)]
  · refine ⟨rounds, by rw [if_neg hlast, htotal, Nat.add_assoc], fun thread hthread => ?_⟩
    rw [if_neg hlast]
    by_cases heq : thread = nextId
    · rw [heq, Function.update_self, hself, if_pos (Nat.lt_succ_self nextId)]
    · have hiff : thread < nextId + 1 ↔ thread < nextId := by omega
      rw [Function.update_of_ne heq, h thread hthread]
      simp only [hiff]

/-- A connection of the server with the new one is that or one from before. -/
theorem cases_newConnectionEstablished {events : BitVec 32}
    (hnumber : ((s.newConnectionEstablished events).loops thread).Accepted number) :
    thread = s.nextId ∧ number = (s.loops s.nextId).nextNumber ∨
      (s.loops thread).Accepted number ∧
        ((s.newConnectionEstablished events).loops thread).summaries number =
          (s.loops thread).summaries number := by
  simp only [newConnectionEstablished, Server.setLoop] at hnumber ⊢
  by_cases heq : thread = s.nextId
  · subst heq
    rw [Function.update_self] at hnumber ⊢
    refine (IoLoop.accepted_newConnection_iff.mp hnumber).imp (fun hnew => ⟨rfl, hnew⟩) fun hold => ⟨hold, ?_⟩
    exact congrArg IoConnection.summary (Function.update_of_ne hold.ne_nextNumber ..)
  · rw [Function.update_of_ne heq] at hnumber ⊢
    exact .inr ⟨hnumber, rfl⟩

theorem accepted_newConnectionEstablished (s : Server) (events : BitVec 32) (thread : ℕ) :
    ((s.newConnectionEstablished events).loops thread).accepted =
      Function.update (fun thread => (s.loops thread).accepted) s.nextId
        ((s.loops s.nextId).accepted + 1) thread := by
  simp only [newConnectionEstablished, Server.setLoop]
  by_cases heq : thread = s.nextId
  · rw [heq, Function.update_self, Function.update_self]
    rfl
  · rw [Function.update_of_ne heq, Function.update_of_ne heq]

theorem summaries_newConnection (loop : IoLoop) (events : BitVec 32) :
    (loop.newConnection events).summaries loop.nextNumber = ⟨nextFd loop, .closed, 0⟩ := by
  have hnew : (loop.newConnection events).connections loop.nextNumber =
      .new (loop.poller.fd loop.nextNumber) events := Function.update_self ..
  rw [IoLoop.summaries, hnew]
  rfl

theorem Abstracts.nextId_eq (h : Abstracts s t) : t.nextId = s.nextId :=
  (congrArg Master.nextId h.master).symm

/-- The connection that is accepted next is the next one of the thread in turn. -/
theorem Abstracts.index_eq (h : Abstracts s t) (hnextId : s.nextId < s.threadNum) :
    index s.threadNum s.nextId (s.loops s.nextId).nextNumber = t.accepted := by
  obtain ⟨rounds, htotal, hrounds⟩ := h.turns
  have hself := hrounds s.nextId hnextId
  rw [if_neg (lt_irrefl _), Nat.add_zero] at hself
  rw [index, IoLoop.nextNumber, hself, Nat.add_sub_cancel, htotal]

theorem Abstracts.mayAccept_iff {fd : ℤ} (h : Abstracts s t) : s.MayAccept fd ↔ t.MayAccept fd := by
  rw [h.master, Master.mayAccept_map_iff]

theorem Abstracts.accept {events : BitVec 32} (hinv : TcpServer.Inv t) (h : Abstracts s t)
    (hmay : s.MayAccept (nextFd (s.loops s.nextId))) :
    Abstracts (s.newConnectionEstablished events)
      (t.newConnectionEstablished (nextFd (s.loops s.nextId)) events) := by
  obtain ⟨-, -, hnextId, -⟩ := hmay
  have hindex := h.index_eq hnextId
  have hthreadNum : (s.newConnectionEstablished events).threadNum = s.threadNum := rfl
  refine ⟨?_, fun thread hthread => ?_, fun thread hthread number hnumber => ?_, ?_, ?_⟩
  · have hplace : place s.threadNum t.accepted = (s.nextId, (s.loops s.nextId).nextNumber) := by
      rw [← hindex]
      exact place_index hnextId (Nat.le_add_left 2 _)
    have hmaster := Master.map_newConnectionEstablished (place s.threadNum) t.toMaster
      (nextFd (s.loops s.nextId)) t.accepted
    rw [← h.master, hplace] at hmaster
    exact hmaster.symm
  · have hview := h.threads thread hthread
    have hfunctor : IoLoop.established (index s.threadNum s.nextId)
        (.connectionEstablished (s.loops s.nextId).nextNumber) = some t.accepted := congrArg some hindex
    simp only [newConnectionEstablished, TcpServer.newConnectionEstablished, Server.setLoop]
    rw [h.nextId_eq]
    by_cases heq : thread = s.nextId
    · subst heq
      rw [Function.update_self, Function.update_self, hview]
      exact congrArg (EventLoopThread.mk · _) (Actor.filterMap_queueInActor hfunctor).symm
    · rw [Function.update_of_ne heq, Function.update_of_ne heq]
      exact hview
  · rcases cases_newConnectionEstablished hnumber with ⟨rfl, rfl⟩ | ⟨hold, hsame⟩
    · rw [hthreadNum, hindex]
      refine ⟨_, Function.update_self .., h.nextId_eq, ?_, fun hstate => by cases hstate⟩
      simp only [newConnectionEstablished, Server.setLoop]
      rw [Function.update_self, summaries_newConnection]
      rfl
    · obtain ⟨c, hc, hshows⟩ := h.connections thread hthread number hold
      rw [hsame]
      exact ⟨c, hinv.mem_newConnectionEstablished hc, hshows⟩
  · obtain ⟨rounds, htotal, hrounds⟩ := h.turns
    obtain ⟨rounds', htotal', hrounds'⟩ := turns_next hnextId htotal hrounds
    refine ⟨rounds', htotal', fun thread hthread => ?_⟩
    exact (accepted_newConnectionEstablished s events thread).trans (hrounds' thread hthread)
  · intro thread hthread
    rw [← Option.some.inj hthread]
    exact hnextId

theorem Abstracts.masterAdvance (hinv : TcpServer.Inv t) (h : Abstracts s t) :
    Abstracts s.masterAdvance t.masterAdvance := by
  have hadvance : s.master.advance =
      (t.master.advance.1.filterMap fun number => some (place s.threadNum number),
        t.master.advance.2.bind fun number => some (place s.threadNum number)) := by
    have hmaster : s.master = t.master.filterMap fun number => some (place s.threadNum number) :=
      congrArg Master.master h.master
    rw [hmaster]
    exact Actor.advance_filterMap fun _ _ => Option.isSome_some
  rw [hinv.master_advance.1, Option.bind_none] at hadvance
  rw [Server.masterAdvance, TcpServer.masterAdvance_eq hinv, hadvance]
  exact { h with
    master := congrArg (fun m : Master (ℕ × ℕ) => { m with
      master := t.master.advance.1.filterMap fun number => some (place s.threadNum number) }) h.master }

/-- Every step of the server is one of `TcpServer`, or none. -/
theorem Abstracts.step (hinv : TcpServer.Inv t) (h : Abstracts s t)
    (hloops : ∀ thread < s.threadNum, IoLoop.Inv False (s.loops thread))
    (hstep : s.step label = some next) :
    ∃ answers t', Machine.run TcpServer.step t answers = some t' ∧ Abstracts next t' := by
  cases label with
  | accept events =>
      obtain ⟨⟨hmay, -⟩, hnext⟩ := Option.ite_none_right_eq_some.mp hstep
      rw [← Option.some.inj hnext]
      refine ⟨[.accept (nextFd (s.loops s.nextId)) events],
        t.newConnectionEstablished (nextFd (s.loops s.nextId)) events, ?_, h.accept hinv hmay⟩
      rw [Machine.run_cons, TcpServer.step, if_pos (h.mayAccept_iff.mp hmay)]
      rfl
  | notifyEvent =>
      obtain ⟨thread, hnotifying, hnext⟩ := Option.bind_eq_some_iff.mp hstep
      obtain ⟨loop, hloop, rfl⟩ := Option.map_eq_some_iff.mp hnext
      obtain rfl := Option.some.inj hloop
      have hnotifying' : t.notifying = some thread :=
        (congrArg Master.notifying h.master).symm.trans hnotifying
      have hset : Abstracts (s.setLoop thread
          { s.loops thread with thread := (s.loops thread).thread.notifyEvent }) _ :=
        h.setLoop_same (h.notifying thread hnotifying) rfl rfl
      refine ⟨[.notifyEvent],
        { t.setThread thread (t.threads thread).notifyEvent with notifying := none }, ?_, ?_⟩
      · rw [Machine.run_cons, TcpServer.step, hnotifying']
        rfl
      · rw [h.threads thread (h.notifying thread hnotifying)]
        exact { hset with
          master := congrArg (fun m : Master (ℕ × ℕ) => { m with notifying := none }) h.master
          notifying := nofun }
  | masterAdvance =>
      obtain ⟨hnotifying, hnext⟩ := Option.ite_none_right_eq_some.mp hstep
      rw [← Option.some.inj hnext]
      refine ⟨[.masterAdvance], t.masterAdvance, ?_, h.masterAdvance hinv⟩
      have hnotifying' : t.notifying = none := (congrArg Master.notifying h.master).symm.trans hnotifying
      rw [Machine.run_cons, TcpServer.step, if_pos hnotifying']
      rfl
  | loop thread label =>
      obtain ⟨⟨hthread, hlocal⟩, hnext⟩ := Option.ite_none_right_eq_some.mp hstep
      obtain ⟨loop, hloop, rfl⟩ := Option.map_eq_some_iff.mp hnext
      obtain ⟨haccepted, hmoves⟩ := IoLoop.local_moves (hloops thread hthread) hlocal hloop
      exact h.loop hthread haccepted hmoves

end Server

end EasyLib.Reactors
