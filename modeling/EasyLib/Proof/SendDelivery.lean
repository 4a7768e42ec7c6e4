import EasyLib.Proof.LoopCallbacks
import EasyLib.Proof.Stream

/-!
# From `Send` to the socket

What other threads hand to `Send` waits in the queue of the loop thread, then in the buffer of the
connection, and is taken by the kernel in the end. `ConnectionEstablished` is in front of everything
that is queued for its connection, so that no `SendInLoop` from the queue comes too early; and as long
as the connection is open none comes too late. The three places together hold all that was sent, in order.
-/

namespace EasyLib.Reactors

open TcpConnection

namespace IoLoop

variable {s next : IoLoop} {number : ℕ} {account : List Byte} {label : Label}

/-! ### What is asked of the sends -/

def bytesFor (number : ℕ) : LoopFunctor → List Byte
  | .request other (.sendInLoop data _) => if other = number then data else []
  | .request _ .shutdownInLoop | .connectionEstablished _ => []

/-- What is in the queue for a connection. -/
def waitingFor (number : ℕ) (s : IoLoop) : List Byte :=
  s.thread.actor.waiting.flatMap (bytesFor number)

/-- What a step hands to `Send` of a connection, on another thread or in the loop. -/
def sentBy (number : ℕ) : Label → List Byte
  | .queueInLoop other (.sendInLoop data _) | .callInLoop other (.sendInLoop data _) =>
      if other = number then data else []
  | .queueInLoop _ .shutdownInLoop | .callInLoop _ .shutdownInLoop | .accept _ | .notifyEvent | .poll _ _
  | .handleEvent _ _ | .advance | .retrieve _ _ => []

/-- The call loses and repeats nothing, if the connection is established. -/
def Preserves (conn : TcpConnection) (call : Call) : Prop :=
  conn.state = .established → (Stream.mk conn []).Admissible call ∧ (Stream.mk conn []).Lossless call

instance (conn : TcpConnection) (call : Call) : Decidable (Preserves conn call) :=
  inferInstanceAs (Decidable (_ → _ ∧ _))

def RunsReliably (number : ℕ) (conn : TcpConnection) : Option LoopFunctor → Prop
  | some (.request other (.sendInLoop data result)) =>
      other = number → Preserves conn (.sendInLoop data result)
  | some (.request _ .shutdownInLoop) | some (.connectionEstablished _) | none => True

def HandlesReliably (number : ℕ) (conn : TcpConnection) (write : WriteResult) :
    List (ℕ × BitVec 32) → Prop
  | (id, _) :: _ => id = number → Preserves conn (.handleWrite write)
  | [] => True

/-- The connection is not shut down, its calls of `write(2)` lose nothing, and a callback sends only while
the connection is established and nothing waits in the queue: before that its bytes are dropped, and with
something in the queue they get ahead of it. -/
def Reliable (number : ℕ) (s : IoLoop) : Label → Prop
  | .queueInLoop other request => other = number → request ≠ .shutdownInLoop
  | .callInLoop other (.sendInLoop data result) => other = number →
      (s.connections number).conn.state = .established ∧ waitingFor number s = [] ∧
        Preserves (s.connections number).conn (.sendInLoop data result)
  | .callInLoop other .shutdownInLoop => other ≠ number
  | .advance => RunsReliably number (s.connections number).conn s.thread.actor.advance.2
  | .handleEvent _ write => HandlesReliably number (s.connections number).conn write s.active
  | .accept _ | .notifyEvent | .poll _ _ | .retrieve _ _ => True

instance (number : ℕ) (conn : TcpConnection) : DecidablePred (RunsReliably number conn)
  | some (.request _ (.sendInLoop _ _)) => inferInstanceAs (Decidable (_ → _))
  | some (.request _ .shutdownInLoop) | some (.connectionEstablished _) | none => isTrue trivial

instance (number : ℕ) (conn : TcpConnection) (write : WriteResult) :
    DecidablePred (HandlesReliably number conn write)
  | _ :: _ => inferInstanceAs (Decidable (_ → _))
  | [] => isTrue trivial

instance (number : ℕ) (s : IoLoop) : DecidablePred (Reliable number s)
  | .queueInLoop _ _ => inferInstanceAs (Decidable (_ → _))
  | .callInLoop _ (.sendInLoop _ _) => inferInstanceAs (Decidable (_ → _ ∧ _ ∧ _))
  | .callInLoop _ .shutdownInLoop => inferInstanceAs (Decidable (_ ≠ _))
  | .advance => inferInstanceAs (Decidable (RunsReliably ..))
  | .handleEvent _ _ => inferInstanceAs (Decidable (HandlesReliably ..))
  | .accept _ | .notifyEvent | .poll _ _ | .retrieve _ _ => isTrue trivial

/-! ### The invariant -/

/-- `ConnectionEstablished` is waiting, and nothing for its connection is in front of it. -/
def Ahead (number : ℕ) (waiting : List LoopFunctor) : Prop :=
  ∃ before after, waiting = before ++ .connectionEstablished number :: after ∧
    ∀ request, .request number request ∉ before

structure Sends (number : ℕ) (accepted : Prop) (c : IoConnection) (waiting : List LoopFunctor)
    (account : List Byte) : Prop where
  unaccepted : ¬ accepted → account = []
  notShut : ∀ request, .request number request ∈ waiting → request ≠ .shutdownInLoop
  fresh : accepted → c.Fresh → (∃ fd events, c.conn = .new fd events) ∧ Ahead number waiting ∧
    waiting.flatMap (bytesFor number) = account
  opened : accepted → c.Opened →
    ∃ sent, (Stream.mk c.conn sent).Inv ∧ sent ++ waiting.flatMap (bytesFor number) = account

variable {accepted : Prop} {c c' : IoConnection} {waiting : List LoopFunctor}
  {functor : LoopFunctor}

theorem Preserves.step {call : Call} {sent : List Byte} (h : Preserves c.conn call)
    (hinv : (Stream.mk c.conn sent).Inv) :
    ∃ conn sent', (Stream.mk c.conn sent).step call = some ⟨conn, sent'⟩ ∧
      (Stream.mk conn sent').Inv := by
  obtain ⟨hadmissible, hlossless⟩ := h hinv.established
  have hadmissible : (Stream.mk c.conn sent).Admissible call := hadmissible
  have hlossless : (Stream.mk c.conn sent).Lossless call := by
    cases call with
    | sendInLoop data result => cases result <;> exact hlossless
    | handleWrite result => cases result <;> exact hlossless
  obtain ⟨⟨conn, sent'⟩, hstep, hnext⟩ := Stream.step_of_lossless _ call hinv hadmissible hlossless
  exact ⟨conn, sent', hstep, hnext⟩

theorem not_fresh_of_opened (h : c.Opened) : ¬ c.Fresh := by
  intro hfresh
  exact absurd (hfresh.state.symm.trans h.state) (by decide)

theorem not_fresh_of_closed (h : c.Closed) : ¬ c.Fresh := by
  intro hfresh
  obtain ⟨body, chunks, -, hcalls, -⟩ := h.calls
  exact absurd (hfresh.calls.symm.trans hcalls) (by simp)

theorem not_opened_of_closed (h : c.Closed) : ¬ c.Opened := by
  intro hopened
  exact absurd (h.state.symm.trans hopened.state) (by decide)

/-- A connection that is closed for good has no account to keep. -/
theorem Sends.of_closed (h : Sends number accepted c waiting account) (hclosed : c'.Closed)
    (haccepted : accepted) {rest : List LoopFunctor} (hrest : rest.Sublist waiting)
    (account' : List Byte) : Sends number accepted c' rest account' where
  unaccepted := fun hnot => absurd haccepted hnot
  notShut := fun request hmem => h.notShut request (hrest.mem hmem)
  fresh := fun _ hfresh => absurd hfresh (not_fresh_of_closed hclosed)
  opened := fun _ hopened => absurd hopened (not_opened_of_closed hclosed)

theorem Sends.of_conn (h : Sends number accepted c waiting account)
    (hfresh : c'.Fresh → c.Fresh) (hopened : c'.Opened → c.Opened) (hconn : c'.conn = c.conn) :
    Sends number accepted c' waiting account where
  unaccepted := h.unaccepted
  notShut := h.notShut
  fresh := fun haccepted hnew => hconn ▸ h.fresh haccepted (hfresh hnew)
  opened := fun haccepted hnew => hconn ▸ h.opened haccepted (hopened hnew)

theorem Ahead.concat (h : Ahead number waiting) (functor : LoopFunctor) :
    Ahead number (waiting ++ [functor]) := by
  obtain ⟨before, after, rfl, hbefore⟩ := h
  exact ⟨before, after ++ [functor], by simp, hbefore⟩

theorem Sends.push (h : Sends number accepted c waiting account)
    (hshut : functor ≠ .request number .shutdownInLoop)
    (haccepted : ¬ accepted → bytesFor number functor = []) :
    Sends number accepted c (waiting ++ [functor]) (account ++ bytesFor number functor) := by
  have hbytes : (waiting ++ [functor]).flatMap (bytesFor number) =
      waiting.flatMap (bytesFor number) ++ bytesFor number functor := by simp
  refine ⟨fun hnot => ?_, fun request hmem => ?_, fun haccepted hfresh => ?_,
    fun haccepted hopened => ?_⟩
  · rw [h.unaccepted hnot, haccepted hnot]
    rfl
  · obtain hmem | hmem := List.mem_append.mp hmem
    · exact h.notShut request hmem
    · rintro rfl
      exact hshut (List.mem_singleton.mp hmem).symm
  · obtain ⟨hnew, hahead, haccount⟩ := h.fresh haccepted hfresh
    exact ⟨hnew, hahead.concat functor, by rw [hbytes, haccount]⟩
  · obtain ⟨sent, hinv, haccount⟩ := h.opened haccepted hopened
    exact ⟨sent, hinv, by rw [hbytes, ← List.append_assoc, haccount]⟩

/-- A functor for another connection leaves the queue. -/
theorem Sends.pop (h : Sends number accepted c (functor :: waiting) account)
    (hestablished : functor ≠ .connectionEstablished number)
    (hrequest : ∀ request, functor ≠ .request number request) :
    Sends number accepted c waiting account := by
  have hbytes : bytesFor number functor = [] := by
    cases functor with
    | connectionEstablished other => rfl
    | request other request =>
        cases request with
        | sendInLoop data result =>
            refine if_neg fun heq => ?_
            exact hrequest (.sendInLoop data result) (by rw [heq])
        | shutdownInLoop => rfl
  have hflat : (functor :: waiting).flatMap (bytesFor number) = waiting.flatMap (bytesFor number) := by
    rw [List.flatMap_cons, hbytes, List.nil_append]
  refine ⟨h.unaccepted, fun request hmem => h.notShut request (List.mem_cons_of_mem _ hmem),
    fun haccepted hfresh => ?_, fun haccepted hopened => hflat ▸ h.opened haccepted hopened⟩
  obtain ⟨hnew, ⟨before, after, hwaiting, hbefore⟩, haccount⟩ := h.fresh haccepted hfresh
  refine ⟨hnew, ?_, hflat ▸ haccount⟩
  cases before with
  | nil => exact absurd (List.cons.inj hwaiting).1 hestablished
  | cons first before =>
      refine ⟨before, after, (List.cons.inj hwaiting).2, fun request hmem => ?_⟩
      exact hbefore request (List.mem_cons_of_mem _ hmem)

/-- `ConnectionEstablished` is run. -/
theorem Sends.establish
    (h : Sends number accepted c (.connectionEstablished number :: waiting) account)
    (haccepted : accepted) (hfresh : c.Fresh) :
    Sends number accepted (c.set c.conn.connectionEstablished) waiting account := by
  obtain ⟨⟨fd, events, hnew⟩, -, haccount⟩ := h.fresh haccepted hfresh
  refine ⟨h.unaccepted, fun request hmem => h.notShut request (List.mem_cons_of_mem _ hmem),
    fun _ hfresh' => absurd hfresh' (not_fresh_of_opened hfresh.established), fun _ _ => ?_⟩
  refine ⟨[], ?_, haccount⟩
  have hstart := Stream.start_inv fd events
  rw [Stream.start, ← hnew] at hstart
  exact hstart

/-- A `SendInLoop` that loses nothing adds its bytes to what was sent. -/
theorem sent_inv {data sent : List Byte} {result : WriteResult} (hopened : c.Opened)
    (hinv : (Stream.mk c.conn sent).Inv) (hpreserves : Preserves c.conn (.sendInLoop data result))
    (hrequest : c.request (.sendInLoop data result) = some c') :
    ∃ conn, (Stream.mk conn (sent ++ data)).Inv ∧ (c.set conn).Opened ∧ c' = c.set conn := by
  obtain ⟨conn, sent', hstep, hnext⟩ := hpreserves.step hinv
  obtain ⟨conn', hsend, rfl⟩ := Option.map_eq_some_iff.mp hrequest
  have hstep' : (Stream.mk c.conn sent).step (.sendInLoop data result) = some ⟨conn', sent ++ data⟩ := by
    rw [Stream.step, hsend]
    rfl
  rw [hstep', Option.some.injEq, Stream.mk.injEq] at hstep
  obtain ⟨rfl, rfl⟩ := hstep
  exact ⟨conn', hnext, hopened.set_wrote (sendInLoop_wrote hsend), rfl⟩

/-- A `SendInLoop` from the queue is run. It does not come before `ConnectionEstablished`. -/
theorem Sends.run_send {data : List Byte} {result : WriteResult}
    (h : Sends number accepted c (.request number (.sendInLoop data result) :: waiting) account)
    (haccepted : accepted) (hstage : c.Fresh ∨ c.Opened ∨ c.Closed)
    (hpreserves : Preserves c.conn (.sendInLoop data result))
    (hrequest : c.request (.sendInLoop data result) = some c') :
    Sends number accepted c' waiting account := by
  rcases hstage with hfresh | hopened | hclosed
  · obtain ⟨-, ⟨before, after, hwaiting, hbefore⟩, -⟩ := h.fresh haccepted hfresh
    cases before with
    | nil => cases (List.cons.inj hwaiting).1
    | cons first before =>
        exact absurd ((List.cons.inj hwaiting).1 ▸ List.mem_cons_self) (hbefore (.sendInLoop data result))
  · obtain ⟨sent, hinv, haccount⟩ := h.opened haccepted hopened
    obtain ⟨conn, hinv', hopened', rfl⟩ := sent_inv hopened hinv hpreserves hrequest
    refine ⟨h.unaccepted, fun request hmem => h.notShut request (List.mem_cons_of_mem _ hmem),
      fun _ hfresh => absurd hfresh (not_fresh_of_opened hopened'), fun _ _ => ?_⟩
    refine ⟨sent ++ data, hinv', ?_⟩
    rw [← haccount, List.flatMap_cons, bytesFor, if_pos rfl, List.append_assoc]
  · obtain ⟨writeable, rfl⟩ := IoConnection.request_of_not_established
      (fun hstate => absurd (hclosed.state.symm.trans hstate) (by decide)) hrequest
    have hclosed' : IoConnection.Closed { c with conn := { c.conn with writeable } } :=
      ⟨hclosed.state, hclosed.events, hclosed.calls⟩
    exact h.of_closed hclosed' haccepted (List.sublist_cons_self ..) account

/-- A callback sends, with nothing waiting. -/
theorem Sends.call_send {data : List Byte} {result : WriteResult}
    (h : Sends number accepted c waiting account) (haccepted : accepted) (hopened : c.Opened)
    (hwaiting : waiting.flatMap (bytesFor number) = [])
    (hpreserves : Preserves c.conn (.sendInLoop data result))
    (hrequest : c.request (.sendInLoop data result) = some c') :
    Sends number accepted c' waiting (account ++ data) := by
  obtain ⟨sent, hinv, haccount⟩ := h.opened haccepted hopened
  obtain ⟨conn, hinv', hopened', rfl⟩ := sent_inv hopened hinv hpreserves hrequest
  refine ⟨fun hnot => absurd haccepted hnot, h.notShut,
    fun _ hfresh => absurd hfresh (not_fresh_of_opened hopened'), fun _ _ => ?_⟩
  refine ⟨sent ++ data, hinv', ?_⟩
  rw [← haccount, hwaiting, List.append_nil, List.append_nil]

/-- The event of the connection is handled. -/
theorem Sends.handled {revents : BitVec 32} {tied : Bool} {read : Buffer.ReadvResult}
    {write : WriteResult} (h : Sends number accepted c waiting account) (haccepted : accepted)
    (hawaited : Awaited c revents) (hstream : c.Stream) (hreadable : c.Readable read)
    (hpreserves : Preserves c.conn (.handleWrite write))
    (hhandle : (Channel.handleEvent tied revents).foldlM (IoConnection.handle read write) c =
      some c') : Sends number accepted c' waiting account := by
  have hopened := hawaited.opened
  cases tied with
  | true =>
      obtain rfl : c = c' := Option.some.inj hhandle
      exact h
  | false =>
      obtain ⟨-, rfl | ⟨rfl, -⟩⟩ := hawaited
      · rw [handleEvent_read] at hhandle
        have hread : c.handleRead read = some c' := by
          simpa [IoConnection.handle] using hhandle
        obtain ⟨-, ⟨hopened', hconn⟩ | ⟨hclosed, -⟩⟩ := hopened.handleRead hstream hreadable hread
        · exact h.of_conn (fun hfresh => absurd hfresh (not_fresh_of_opened hopened'))
            (fun _ => hopened) hconn
        · exact h.of_closed hclosed haccepted (List.Sublist.refl _) account
      · rw [handleEvent_write] at hhandle
        have hwrite : (c.conn.handleWrite write).map c.set = some c' := by
          simpa [IoConnection.handle] using hhandle
        obtain ⟨conn, hconn, rfl⟩ := Option.map_eq_some_iff.mp hwrite
        have hopened' := hopened.set_wrote (handleWrite_wrote hconn)
        obtain ⟨sent, hinv, haccount⟩ := h.opened haccepted hopened
        obtain ⟨conn', sent', hstep, hnext⟩ := hpreserves.step hinv
        have hstep' : (Stream.mk c.conn sent).step (.handleWrite write) = some ⟨conn, sent⟩ := by
          rw [Stream.step, hconn]
          rfl
        rw [hstep', Option.some.injEq, Stream.mk.injEq] at hstep
        obtain ⟨rfl, rfl⟩ := hstep
        exact ⟨h.unaccepted, h.notShut, fun _ hfresh => absurd hfresh (not_fresh_of_opened hopened'),
          fun _ _ => ⟨sent, hnext, haccount⟩⟩

/-! ### The steps -/

theorem store_frame (hstore : s.store number c = some next) :
    next.thread = s.thread ∧ next.accepted = s.accepted ∧
      next.connections = Function.update s.connections number c := by
  unfold store at hstore
  split_ifs at hstore
  · rw [← Option.some.inj hstore]
    exact ⟨rfl, rfl, rfl⟩
  · obtain ⟨poller, -, rfl⟩ := Option.map_eq_some_iff.mp hstore
    exact ⟨rfl, rfl, rfl⟩

/-- The invariant of a connection with its account. -/
structure Delivering (number : ℕ) (s : IoLoop) (account : List Byte) : Prop where
  inv : Inv False s
  sends : Sends number (s.Accepted number) (s.connections number) s.thread.actor.waiting account

theorem Delivering.stage (h : Delivering number s account) (haccepted : s.Accepted number) :
    (s.connections number).Fresh ∨ (s.connections number).Opened ∨ (s.connections number).Closed := by
  rcases (h.inv.kept number haccepted).stage with ⟨hfresh, -⟩ | ⟨hstage, -⟩
  · exact .inl hfresh
  · exact .inr hstage

/-- What a step does to the connection and to the queue. -/
theorem sends_of_store {id : ℕ} (hstore : s.store id c = some next)
    (hsends : Sends number (s.Accepted number)
      (Function.update s.connections id c number) s.thread.actor.waiting account) :
    Sends number (next.Accepted number) (next.connections number) next.thread.actor.waiting account := by
  obtain ⟨hthread, haccepted, hconnections⟩ := store_frame hstore
  rw [Accepted, nextNumber, haccepted, hconnections, hthread]
  exact hsends

theorem callInLoop_sends {other : ℕ} {request : Request} (h : Delivering number s account)
    (hreliable : Reliable number s (.callInLoop other request))
    (hstep : s.step (.callInLoop other request) = some next) :
    Sends number (next.Accepted number) (next.connections number) next.thread.actor.waiting
      (account ++ sentBy number (.callInLoop other request)) := by
  obtain ⟨⟨haccepted, -⟩, hcall⟩ := Option.ite_none_right_eq_some.mp hstep
  obtain ⟨c, hrequest, hstore⟩ := Option.bind_eq_some_iff.mp hcall
  apply sends_of_store hstore
  by_cases heq : other = number
  · subst heq
    cases request with
    | shutdownInLoop => exact absurd rfl hreliable
    | sendInLoop data result =>
        obtain ⟨hstate, hwaiting, hpreserves⟩ := hreliable rfl
        have hopened := ((h.inv.kept other haccepted).registered hstate).1
        rw [Function.update_self, sentBy, if_pos rfl]
        exact h.sends.call_send haccepted hopened hwaiting hpreserves hrequest
  · have hnone : sentBy number (.callInLoop other request) = [] := by
      cases request with
      | sendInLoop data result => exact if_neg heq
      | shutdownInLoop => rfl
    rw [Function.update_of_ne (Ne.symm heq), hnone, List.append_nil]
    exact h.sends

theorem handleEvent_sends {read : Buffer.ReadvResult} {write : WriteResult}
    (h : Delivering number s account) (hreliable : Reliable number s (.handleEvent read write))
    (hstep : s.step (.handleEvent read write) = some next) :
    Sends number (next.Accepted number) (next.connections number) next.thread.actor.waiting account := by
  simp only [step] at hstep
  split at hstep
  case h_1 => cases hstep
  case h_2 id revents active hactive =>
    obtain ⟨hreadable, hstep⟩ := Option.ite_none_right_eq_some.mp hstep
    unfold handleEvent at hstep
    by_cases hid : id = 0
    · rw [if_pos hid] at hstep
      obtain rfl := Option.some.inj hstep
      split
      · have hwaiting := waiting_readNotifyEvents s.thread
        dsimp only
        rw [hwaiting]
        exact h.sends
      · exact h.sends
    rw [if_neg hid] at hstep
    by_cases htimer : id = 1
    · rw [if_pos htimer] at hstep
      obtain rfl := Option.some.inj hstep
      exact h.sends
    · rw [if_neg htimer] at hstep
      obtain ⟨after, hhandle, hstore⟩ := Option.bind_eq_some_iff.mp hstep
      have hnumber : 2 ≤ id := by omega
      obtain ⟨haccepted, hawaited⟩ := h.inv.awaited (id, revents) (hactive ▸ List.mem_cons_self) hnumber
      apply sends_of_store hstore
      by_cases heq : id = number
      · subst heq
        rw [Function.update_self]
        rw [Reliable, hactive] at hreliable
        exact h.sends.handled haccepted hawaited (h.inv.kept id haccepted).stream hreadable
          (hreliable rfl) hhandle
      · rw [Function.update_of_ne (Ne.symm heq)]
        exact h.sends

theorem advance_sends (h : Delivering number s account) (hreliable : Reliable number s .advance)
    (hstep : s.step .advance = some next) :
    Sends number (next.Accepted number) (next.connections number) next.thread.actor.waiting account := by
  obtain ⟨-, hstep⟩ := Option.ite_none_right_eq_some.mp hstep
  have hwaiting := s.thread.actor.advance_waiting
  have hsends := h.sends
  cases hcalled : s.thread.actor.advance.2 with
  | none =>
      rw [hcalled] at hstep hwaiting
      have hwaiting : s.thread.actor.advance.1.waiting = s.thread.actor.waiting := hwaiting
      rw [← Option.some.inj hstep]
      dsimp only
      rw [hwaiting]
      exact h.sends
  | some functor =>
      rw [hcalled] at hstep hwaiting
      have hwaiting : functor :: s.thread.actor.advance.1.waiting = s.thread.actor.waiting := hwaiting
      rw [← hwaiting] at hsends
      have hqueued := h.inv.queued functor (hwaiting ▸ List.mem_cons_self)
      cases functor with
      | connectionEstablished other =>
          obtain ⟨poller, -, rfl⟩ := Option.map_eq_some_iff.mp hstep
          dsimp only
          by_cases heq : other = number
          · subst heq
            have hfresh : (s.connections other).Fresh := by
              rcases (h.inv.kept other hqueued.1).stage with ⟨hfresh, -⟩ | ⟨-, hlast, -⟩
              · exact hfresh
              · exact absurd hlast hqueued.2
            rw [Function.update_self]
            exact hsends.establish hqueued.1 hfresh
          · rw [Function.update_of_ne (Ne.symm heq)]
            exact hsends.pop (by simpa using heq) (by simp)
      | request other request =>
          obtain ⟨c, hrequest, hstore⟩ := Option.bind_eq_some_iff.mp hstep
          apply sends_of_store hstore
          by_cases heq : other = number
          · subst heq
            cases request with
            | shutdownInLoop =>
                exact absurd rfl (hsends.notShut .shutdownInLoop List.mem_cons_self)
            | sendInLoop data result =>
                rw [Reliable, hcalled] at hreliable
                dsimp only
                rw [Function.update_self]
                exact hsends.run_send hqueued.1 (h.stage hqueued.1) (hreliable rfl) hrequest
          · dsimp only
            rw [Function.update_of_ne (Ne.symm heq)]
            exact hsends.pop (by simp) (by simp [heq])

theorem accept_sends {events : BitVec 32} (h : Delivering number s account)
    (hstep : s.step (.accept events) = some next) :
    Sends number (next.Accepted number) (next.connections number) next.thread.actor.waiting account := by
  obtain ⟨-, hstep⟩ := Option.ite_none_right_eq_some.mp hstep
  obtain rfl := Option.some.inj hstep
  rw [accepted_newConnection_iff]
  simp only [newConnection, queueInActor, waiting_queueInActor]
  by_cases heq : number = s.nextNumber
  · have hnot : ¬ s.Accepted number := fun haccepted => haccepted.ne_nextNumber heq
    have hrequest : ∀ request, .request number request ∉ s.thread.actor.waiting := by
      intro request hmem
      exact hnot (h.inv.queued _ hmem).1
    have hbytes : s.thread.actor.waiting.flatMap (bytesFor number) = [] := by
      rw [List.flatMap_eq_nil_iff]
      rintro (other | ⟨other, _ | _⟩) hmem
      · rfl
      · refine if_neg fun hother => hrequest _ (hother ▸ hmem)
      · rfl
    have haccount := h.sends.unaccepted hnot
    subst heq
    rw [Function.update_self]
    refine ⟨fun hnot => absurd (.inl rfl) hnot, fun request hmem => ?_, fun _ _ => ?_,
      fun _ hopened => absurd (IoConnection.new_fresh _ _) (not_fresh_of_opened hopened)⟩
    · obtain hmem | hmem := List.mem_append.mp hmem
      · exact h.sends.notShut request hmem
      · cases List.mem_singleton.mp hmem
    · refine ⟨⟨_, _, rfl⟩, ⟨_, [], rfl, hrequest⟩, ?_⟩
      rw [List.flatMap_append, hbytes, haccount]
      rfl
  · rw [Function.update_of_ne heq, or_iff_right heq]
    have hshut : LoopFunctor.connectionEstablished s.nextNumber ≠ .request number .shutdownInLoop := by
      simp
    have hpush := h.sends.push hshut fun _ => rfl
    rwa [bytesFor, List.append_nil] at hpush

theorem step_delivering (h : Delivering number s account) (hreliable : Reliable number s label)
    (hstep : s.step label = some next) : Delivering number next (account ++ sentBy number label) := by
  refine ⟨step_inv h.inv False.elim hstep, ?_⟩
  cases label with
  | accept events =>
      rw [sentBy, List.append_nil]
      exact accept_sends h hstep
  | queueInLoop other request =>
      obtain ⟨⟨haccepted, -⟩, hstep⟩ := Option.ite_none_right_eq_some.mp hstep
      obtain rfl := Option.some.inj hstep
      have hentry : sentBy number (.queueInLoop other request) = bytesFor number (.request other request) := by
        cases request <;> rfl
      rw [hentry]
      simp only [queueInActor, waiting_queueInActor]
      refine h.sends.push ?_ fun hnot => ?_
      · simp only [ne_eq, LoopFunctor.request.injEq, not_and]
        exact hreliable
      · have hne : other ≠ number := fun heq => hnot (heq ▸ haccepted)
        cases request with
        | sendInLoop data result => exact if_neg hne
        | shutdownInLoop => rfl
  | notifyEvent =>
      rw [← Option.some.inj hstep, sentBy, List.append_nil]
      exact h.sends
  | poll readable writable =>
      obtain ⟨hphase, hstep⟩ := Option.ite_none_right_eq_some.mp hstep
      obtain ⟨active, -, rfl⟩ := Option.map_eq_some_iff.mp hstep
      have hwaiting : s.thread.actor.advance.1.waiting = s.thread.actor.waiting := by
        simp [Actor.waiting, Actor.advance, Actor.unstarted, hphase]
      rw [sentBy, List.append_nil]
      dsimp only
      rw [hwaiting]
      exact h.sends
  | handleEvent read write =>
      rw [sentBy, List.append_nil]
      exact handleEvent_sends h hreliable hstep
  | advance =>
      rw [sentBy, List.append_nil]
      exact advance_sends h hreliable hstep
  | callInLoop other request => exact callInLoop_sends h hreliable hstep
  | retrieve other len =>
      obtain ⟨-, hstep⟩ := Option.ite_none_right_eq_some.mp hstep
      obtain rfl := Option.some.inj hstep
      rw [sentBy, List.append_nil]
      dsimp only
      by_cases heq : number = other
      · subst heq
        rw [Function.update_self]
        exact h.sends.of_conn (fun hfresh => ⟨hfresh.state, hfresh.calls, hfresh.reads⟩)
          (fun hopened => ⟨hopened.state, hopened.reading, hopened.calls, hopened.nonempty⟩) rfl
      · rw [Function.update_of_ne heq]
        exact h.sends

end IoLoop

end EasyLib.Reactors
