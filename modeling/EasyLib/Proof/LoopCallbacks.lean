import EasyLib.Proof.ConnectionStages
import EasyLib.Proof.Handoff
import EasyLib.Proof.ReadyEvents

/-!
# What the user of a connection sees

The stages of the connections are tied to the tables of the poller: a fresh connection is not registered,
an open one is registered for reading, a closed one for nothing. A `ConnectionEstablished` is queued once,
so it meets a fresh connection. An event is handled before the next `Poll`, and each active channel
once; so a channel that is handled belongs to a connection that is open, and nothing is called behind the
callbacks of `HandleClose`.
-/

namespace EasyLib.Reactors

namespace SelectPoller

variable {p next : SelectPoller} {id count : ℕ} {channel : Channel}

theorem updateChannel_frame (hupdate : p.updateChannel id channel = some next) :
    next.fd = p.fd ∧ next.objects = Function.update p.objects id channel ∧
      next.last = Function.update p.last id (some .update) ∧
      next.index = if p.index id < 0 then Function.update p.index id 1 else p.index := by
  unfold updateChannel at hupdate
  split at hupdate
  · rename_i hindex
    obtain ⟨readfds, -, hwrite⟩ := Option.bind_eq_some_iff.mp hupdate
    obtain ⟨writefds, -, rfl⟩ := Option.map_eq_some_iff.mp hwrite
    exact ⟨rfl, rfl, rfl, (if_pos hindex).symm⟩
  · rename_i hindex
    obtain ⟨readfds, -, hwrite⟩ := Option.bind_eq_some_iff.mp hupdate
    obtain ⟨writefds, -, rfl⟩ := Option.map_eq_some_iff.mp hwrite
    exact ⟨rfl, rfl, rfl, (if_neg hindex).symm⟩

theorem fits_of_updateChannel (hreading : channel.isReading = true)
    (hupdate : p.updateChannel id channel = some next) : FdSet.Fits (p.fd id) := by
  by_contra hfits
  simp only [updateChannel, add, modify, hreading, if_true, write_of_not_fits hfits,
    Option.bind_none, ite_self] at hupdate
  cases hupdate

/-- An update that says what the poller knows changes nothing. -/
theorem updateChannel_objects (h : Inv p) (hlast : p.last id = some .update)
    (hindex : ¬ p.index id < 0) : p.updateChannel id (p.objects id) = some p := by
  have hid := h.updated id hlast
  have hfits := h.fits _ ((h.keys _).mpr (Option.isSome_of_eq_some hid))
  rw [updateChannel, if_neg hindex, modify_eq hfits, registered, assign, ← bit_eq h.reads hid,
    ← bit_eq h.writes hid, ← hid, ← hlast]
  simp only [Function.update_eq_self]

/-- The tables of a poller that knows some of the first `count` channels. -/
structure Tables (p : SelectPoller) (count : ℕ) : Prop where
  inv : Inv p
  index : ∀ id, p.index id < 0 ↔ p.last id ≠ some .update
  distinct : ∀ id < count, ∀ other < count, p.fd id = p.fd other → id = other
  bound : ∀ id, p.last id = some .update → id < count

theorem tables_new {fd : ℕ → ℤ} (hne : fd 0 ≠ fd 1) : (new fd).Tables 2 where
  inv := inv_new fd
  index := fun id => by simp [new]
  distinct := fun id hid other hother heq => by
    have heq : fd id = fd other := heq
    obtain rfl | rfl : id = 0 ∨ id = 1 := by omega
    · obtain rfl | rfl : other = 0 ∨ other = 1 := by omega
      · rfl
      · exact absurd heq hne
    · obtain rfl | rfl : other = 0 ∨ other = 1 := by omega
      · exact absurd heq.symm hne
      · rfl
  bound := nofun

theorem Tables.fits (h : p.Tables count) (hlast : p.last id = some .update) :
    FdSet.Fits (p.fd id) := by
  have hid := h.inv.updated id hlast
  exact h.inv.fits _ ((h.inv.keys _).mpr (Option.isSome_of_eq_some hid))

theorem Tables.matched (h : p.Tables count) (hid : id < count) (hfits : FdSet.Fits (p.fd id)) :
    p.Matched (.updateChannel id channel) := by
  refine ⟨hfits, fun hindex hmem => ?_, fun hindex => ?_⟩
  · obtain ⟨other, hother⟩ := Option.isSome_iff_exists.mp ((h.inv.keys _).mp hmem)
    obtain ⟨hfd, hlast⟩ := h.inv.owner _ _ hother
    obtain rfl : other = id := h.distinct other (h.bound other hlast) id hid hfd
    exact (h.index other).mp hindex hlast
  · have hlast : p.last id = some .update := by
      by_contra hlast
      exact hindex ((h.index id).mpr hlast)
    exact h.inv.updated id hlast

theorem Tables.updateChannel (h : p.Tables count) (hid : id < count)
    (hfits : FdSet.Fits (p.fd id)) (hupdate : p.updateChannel id channel = some next) :
    next.Tables count := by
  have hmatched : p.Matched (.updateChannel id channel) := h.matched hid hfits
  obtain ⟨next', hnext', hinv⟩ := updateChannel_inv h.inv hmatched
  obtain rfl : next' = next := Option.some.inj (hnext'.symm.trans hupdate)
  obtain ⟨hfd, hobjects, hlast, hindex⟩ := updateChannel_frame hupdate
  refine ⟨hinv, fun other => ?_, ?_, fun other hother => ?_⟩
  · rw [hindex, hlast]
    by_cases heq : other = id
    · subst heq
      rw [Function.update_self]
      split_ifs with hneg
      · simp
      · simp [hneg]
    · rw [Function.update_of_ne heq, ← h.index other]
      split_ifs
      · rw [Function.update_of_ne heq]
      · rfl
  · rw [hfd]
    exact h.distinct
  · by_cases heq : other = id
    · exact heq ▸ hid
    · rw [hlast, Function.update_of_ne heq] at hother
      exact h.bound other hother

theorem Tables.succ (h : p.Tables count) (hfree : ∀ id < count, p.fd id ≠ p.fd count) :
    p.Tables (count + 1) := by
  refine ⟨h.inv, h.index, fun id hid other hother heq => ?_, ?_⟩
  · rcases Nat.lt_succ_iff_lt_or_eq.mp hid with hid | rfl <;>
      rcases Nat.lt_succ_iff_lt_or_eq.mp hother with hother | rfl
    · exact h.distinct id hid other hother heq
    · exact absurd heq (hfree id hid)
    · exact absurd heq.symm (hfree other hother)
    · rfl
  · intro id hlast
    exact (h.bound id hlast).trans (Nat.lt_succ_self _)

/-- `Poll` reports channels that are registered, each once and for one event that it is interested in. -/
theorem poll_spec (h : Inv p) {readable writable : FdSet} {active : List (ℕ × BitVec 32)}
    (hpoll : p.poll readable writable = some active) :
    (active.map Prod.fst).Nodup ∧ ∀ entry ∈ active, p.last entry.1 = some .update ∧
      (entry.2 = kReadEvent ∧ (p.objects entry.1).isReading = true ∨
        entry.2 = kWriteEvent ∧ (p.objects entry.1).isWriting = true) := by
  refine ⟨?_, ?_⟩
  · obtain ⟨active', hactive', hnodup⟩ := h.bookkept.reportsOnce readable writable
    obtain rfl : active' = active := Option.some.inj (hactive'.symm.trans hpoll)
    exact hnodup
  obtain ⟨readset, hreadset, hreads⟩ := h.watched h.reads
  obtain ⟨writeset, hwriteset, hwrites⟩ := h.watched h.writes
  rw [poll, hreadset, Option.bind_some, hwriteset, Option.bind_some,
    fillActiveChannels_eq_filterMap h.listed.registered] at hpoll
  rw [← Option.some.inj hpoll]
  intro entry hentry
  obtain ⟨fd, hfd, hmap⟩ := List.mem_filterMap.mp hentry
  obtain ⟨id, hid, rfl⟩ := Option.map_eq_some_iff.mp hmap
  refine ⟨(h.owner fd id hid).2, ?_⟩
  have hready := (List.mem_filter.mp hfd).2
  cases hwrite : writeset fd && writable fd with
  | true =>
      refine .inr ⟨by simp only [reventsAfter, if_true], ?_⟩
      have hwanted := bit_eq hwrites hid
      rw [← hwanted]
      exact (Bool.and_eq_true_iff.mp hwrite).1
  | false =>
      rw [hwrite, Bool.or_false] at hready
      refine .inl ⟨by simp [reventsAfter, hready], ?_⟩
      have hwanted := bit_eq hreads hid
      rw [← hwanted]
      exact (Bool.and_eq_true_iff.mp hready).1

end SelectPoller

namespace IoLoop

variable {s next : IoLoop} {number : ℕ} {c : IoConnection} {clean : Prop}

/-! ### The invariant

The parameter `clean` says whether all channels began without an interest in writing. -/

structure Kept (clean : Prop) (p : SelectPoller) (number : ℕ) (c : IoConnection) : Prop where
  stream : c.Stream
  fd : c.conn.fd = p.fd number
  interest : (clean → c.conn.Interest) ∨ c.Closed
  stage : c.Fresh ∧ p.last number ≠ some .update ∨
    (c.Opened ∨ c.Closed) ∧ p.last number = some .update ∧ p.objects number = c.conn.channel

/-- An event that is still to be handled. -/
structure Awaited (c : IoConnection) (revents : BitVec 32) : Prop where
  opened : c.Opened
  wanted : revents = kReadEvent ∨ revents = kWriteEvent ∧ c.conn.channel.isWriting = true

/-- A functor that is still to be run. -/
def Queued (s : IoLoop) : LoopFunctor → Prop
  | .connectionEstablished number => s.Accepted number ∧ s.poller.last number ≠ some .update
  | .request number request => s.Accepted number ∧ IoConnection.Short request

/-- The channel of the eventfd or of the timerfd. -/
structure Own (clean : Prop) (p : SelectPoller) (id : ℕ) : Prop where
  last : p.last id = some .update
  reading : (p.objects id).isReading = true
  writing : clean → (p.objects id).isWriting = false

structure Inv (clean : Prop) (s : IoLoop) : Prop where
  tables : s.poller.Tables s.nextNumber
  own : ∀ id < 2, Own clean s.poller id
  kept : ∀ number, s.Accepted number → Kept clean s.poller number (s.connections number)
  queued : ∀ functor ∈ s.thread.actor.waiting, s.Queued functor
  once : ∀ number, s.thread.actor.waiting.count (.connectionEstablished number) ≤ 1
  awaited : ∀ entry ∈ s.active, 2 ≤ entry.1 →
    s.Accepted entry.1 ∧ Awaited (s.connections entry.1) entry.2
  nodup : (s.active.map Prod.fst).Nodup
  handling : s.active ≠ [] → s.thread.actor.phase = .handling

theorem Kept.registered (h : Kept clean s.poller number c) (hstate : c.conn.state = .established) :
    c.Opened ∧ s.poller.last number = some .update ∧ s.poller.objects number = c.conn.channel := by
  rcases h.stage with ⟨hfresh, -⟩ | ⟨hopened | hclosed, hregistered⟩
  · exact absurd (hfresh.state.symm.trans hstate) (by decide)
  · exact ⟨hopened, hregistered⟩
  · exact absurd (hclosed.state.symm.trans hstate) (by decide)

theorem Kept.interest_of_established (h : Kept clean s.poller number c)
    (hstate : c.conn.state = .established) (hclean : clean) : c.conn.Interest := by
  rcases h.interest with hinterest | hclosed
  · exact hinterest hclean
  · exact absurd (hclosed.state.symm.trans hstate) (by decide)

theorem Inv.of_thread {thread : EventLoopThread LoopFunctor} (h : Inv clean s)
    (hthread : thread.actor.waiting.Sublist s.thread.actor.waiting)
    (hhandling : s.active ≠ [] → thread.actor.phase = .handling) : Inv clean { s with thread } where
  tables := h.tables
  own := h.own
  kept := h.kept
  queued := fun functor hfunctor => h.queued functor (hthread.mem hfunctor)
  once := fun number => (hthread.count_le _).trans (h.once number)
  awaited := h.awaited
  nodup := h.nodup
  handling := hhandling

theorem Inv.of_active {active : List (ℕ × BitVec 32)} (h : Inv clean s) (hactive : active.Sublist s.active) :
    Inv clean { s with active } where
  tables := h.tables
  own := h.own
  kept := h.kept
  queued := h.queued
  once := h.once
  awaited := fun entry hentry => h.awaited entry (hactive.mem hentry)
  nodup := h.nodup.sublist (hactive.map Prod.fst)
  handling := fun hne => h.handling fun hnil => hne (List.sublist_nil.mp (hnil ▸ hactive))

/-- A connection takes the place of another one, with a poller that knows the same of all others. -/
theorem Inv.replace {poller : SelectPoller} (h : Inv clean s) (haccepted : s.Accepted number)
    (htables : poller.Tables s.nextNumber) (hfd : poller.fd = s.poller.fd)
    (hother : ∀ other, other ≠ number → poller.last other = s.poller.last other ∧
      poller.objects other = s.poller.objects other)
    (hkept : Kept clean poller number c)
    (hqueued : .connectionEstablished number ∈ s.thread.actor.waiting →
      poller.last number ≠ some .update)
    (hawaited : ∀ entry ∈ s.active, entry.1 = number → Awaited c entry.2) :
    Inv clean { s with poller, connections := Function.update s.connections number c } := by
  refine ⟨htables, fun id hid => ?_, fun other hother' => ?_, fun functor hfunctor => ?_, h.once, ?_,
    h.nodup, h.handling⟩
  · obtain ⟨hlast, hobjects⟩ := hother id (Nat.ne_of_lt (lt_of_lt_of_le hid haccepted.1))
    obtain ⟨hlast', hreading, hwriting⟩ := h.own id hid
    exact ⟨hlast.trans hlast', hobjects ▸ hreading, hobjects ▸ hwriting⟩
  · dsimp only
    by_cases heq : other = number
    · subst heq
      rw [Function.update_self]
      exact hkept
    · rw [Function.update_of_ne heq]
      obtain ⟨hstream, hconn, hinterest, hstage⟩ := h.kept other hother'
      rw [← (hother other heq).1, ← (hother other heq).2] at hstage
      exact ⟨hstream, hconn.trans (congrFun hfd other).symm, hinterest, hstage⟩
  · have hold := h.queued functor hfunctor
    cases functor with
    | connectionEstablished other =>
        refine ⟨hold.1, ?_⟩
        by_cases heq : other = number
        · exact heq ▸ hqueued (heq ▸ hfunctor)
        · rw [(hother other heq).1]
          exact hold.2
    | request other request => exact hold
  · intro entry hentry hne
    obtain ⟨hentry', hold⟩ := h.awaited entry hentry hne
    refine ⟨hentry', ?_⟩
    dsimp only
    by_cases heq : entry.1 = number
    · rw [heq, Function.update_self]
      exact hawaited entry hentry heq
    · rw [Function.update_of_ne heq]
      exact hold

/-- For a channel that is registered, `store` updates the poller whatever its events are. -/
theorem Inv.store_eq (h : Inv clean s) (hlast : s.poller.last number = some .update)
    (hobjects : s.poller.objects number = (s.connections number).conn.channel) :
    s.store number c = (s.poller.updateChannel number c.conn.channel).map fun poller =>
      { s with poller, connections := Function.update s.connections number c } := by
  have hindex : ¬ s.poller.index number < 0 := fun hindex => (h.tables.index number).mp hindex hlast
  unfold store
  split_ifs with hsame
  · rw [hsame, ← hobjects, SelectPoller.updateChannel_objects h.tables.inv hlast hindex]
    rfl
  · rfl

theorem Inv.store (h : Inv clean s) (haccepted : s.Accepted number)
    (hlast : s.poller.last number = some .update)
    (hobjects : s.poller.objects number = (s.connections number).conn.channel)
    (hstream : c.Stream) (hfd : c.conn.fd = s.poller.fd number)
    (hinterest : (clean → c.conn.Interest) ∨ c.Closed) (hstage : c.Opened ∨ c.Closed)
    (hawaited : ∀ entry ∈ s.active, entry.1 = number → Awaited c entry.2)
    (hstore : s.store number c = some next) : Inv clean next := by
  rw [h.store_eq hlast hobjects] at hstore
  obtain ⟨poller, hupdate, rfl⟩ := Option.map_eq_some_iff.mp hstore
  have htables := h.tables.updateChannel haccepted.2 (h.tables.fits hlast) hupdate
  obtain ⟨hfd', hobjects', hlast', -⟩ := SelectPoller.updateChannel_frame hupdate
  apply h.replace haccepted htables hfd' _ _ _ hawaited
  · intro other hne
    rw [hlast', hobjects', Function.update_of_ne hne, Function.update_of_ne hne]
    exact ⟨rfl, rfl⟩
  · refine ⟨hstream, hfd.trans (congrFun hfd' number).symm, hinterest, .inr ⟨hstage, ?_, ?_⟩⟩
    · rw [hlast', Function.update_self]
    · rw [hobjects', Function.update_self]
  · intro hmem
    exact absurd hlast (h.queued _ hmem).2

/-! ### The steps -/

theorem request_inv {request : Request} (h : Inv clean s) (haccepted : s.Accepted number)
    (hshort : IoConnection.Short request) (hcall : s.call (.request number request) = some next) :
    Inv clean next := by
  obtain ⟨c, hrequest, hstore⟩ := Option.bind_eq_some_iff.mp hcall
  have hkept := h.kept number haccepted
  by_cases hstate : (s.connections number).conn.state = .established
  · obtain ⟨hopened, hlast, hobjects⟩ := hkept.registered hstate
    have hinterest (hclean : clean) : c.conn.Interest :=
      IoConnection.request_interest (hkept.interest_of_established hstate hclean) hshort hrequest
    obtain ⟨conn, hwrote, rfl⟩ := IoConnection.request_wrote hrequest
    apply h.store haccepted hlast hobjects (hkept.stream.set conn) (hwrote.fd.trans hkept.fd)
      (.inl hinterest) (.inl (hopened.set_wrote hwrote)) _ hstore
    rintro entry hentry rfl
    obtain ⟨-, hold⟩ := h.awaited entry hentry haccepted.1
    refine ⟨hopened.set_wrote hwrote, hold.wanted.imp_right fun hwrite => ⟨hwrite.1, ?_⟩⟩
    exact IoConnection.isWriting_of_request hrequest hwrite.2
  · obtain ⟨writeable, rfl⟩ := IoConnection.request_of_not_established hstate hrequest
    rw [IoLoop.store, if_pos rfl] at hstore
    obtain rfl := Option.some.inj hstore
    apply h.replace haccepted h.tables rfl (fun _ _ => ⟨rfl, rfl⟩)
    · have hclosed (hold : (s.connections number).Closed) :
          IoConnection.Closed { s.connections number with
            conn := { (s.connections number).conn with writeable } } :=
        ⟨hold.state, hold.events, hold.calls⟩
      refine ⟨⟨hkept.stream.wf, hkept.stream.stream⟩, hkept.fd, ?_, ?_⟩
      · refine hkept.interest.imp (fun hinterest hclean => ?_) hclosed
        exact (hinterest hclean).of_eq rfl rfl
      · rcases hkept.stage with ⟨hfresh, hlast⟩ | ⟨hopened | hold, hregistered⟩
        · exact .inl ⟨⟨hfresh.state, hfresh.calls, hfresh.reads⟩, hlast⟩
        · exact absurd hopened.state hstate
        · exact .inr ⟨.inr (hclosed hold), hregistered⟩
    · intro hmem
      exact (h.queued _ hmem).2
    · rintro entry hentry rfl
      have hold := (h.awaited entry hentry haccepted.1).2
      exact absurd hold.opened.state hstate

theorem connectionEstablished_inv (h : Inv clean s) (haccepted : s.Accepted number)
    (hlast : s.poller.last number ≠ some .update)
    (hnot : .connectionEstablished number ∉ s.thread.actor.waiting)
    (hcall : s.connectionEstablished number = some next) : Inv clean next := by
  obtain ⟨poller, hupdate, rfl⟩ := Option.map_eq_some_iff.mp hcall
  have hkept := h.kept number haccepted
  have hfresh : (s.connections number).Fresh := by
    rcases hkept.stage with ⟨hfresh, -⟩ | ⟨-, hregistered, -⟩
    · exact hfresh
    · exact absurd hregistered hlast
  have hinterest (hclean : clean) : (s.connections number).conn.connectionEstablished.Interest := by
    rcases hkept.interest with hinterest | hclosed
    · exact TcpConnection.connectionEstablished_interest (hinterest hclean)
    · obtain ⟨body, chunks, -, hcalls, -⟩ := hclosed.calls
      exact absurd (hfresh.calls.symm.trans hcalls) (by simp)
  have hfits := SelectPoller.fits_of_updateChannel hfresh.established.reading hupdate
  have htables := h.tables.updateChannel haccepted.2 hfits hupdate
  obtain ⟨hfd', hobjects', hlast', -⟩ := SelectPoller.updateChannel_frame hupdate
  apply h.replace haccepted htables hfd'
  · intro other hne
    rw [hlast', hobjects', Function.update_of_ne hne, Function.update_of_ne hne]
    exact ⟨rfl, rfl⟩
  · refine ⟨hkept.stream.set _, hkept.fd.trans (congrFun hfd' number).symm, .inl hinterest,
      .inr ⟨.inl hfresh.established, ?_, ?_⟩⟩
    · rw [hlast', Function.update_self]
    · rw [hobjects', Function.update_self]
  · exact fun hmem => absurd hmem hnot
  · rintro entry hentry rfl
    have hold := (h.awaited entry hentry haccepted.1).2
    exact absurd (hfresh.state.symm.trans hold.opened.state) (by decide)

theorem advance_inv (h : Inv clean s) (hstep : s.step .advance = some next) : Inv clean next := by
  obtain ⟨⟨-, hactive⟩, hstep⟩ := Option.ite_none_right_eq_some.mp hstep
  have hwaiting := s.thread.actor.advance_waiting
  cases hcalled : s.thread.actor.advance.2 with
  | none =>
      rw [hcalled] at hstep hwaiting
      have hwaiting : s.thread.actor.advance.1.waiting = s.thread.actor.waiting := hwaiting
      rw [← Option.some.inj hstep]
      exact h.of_thread (hwaiting ▸ List.Sublist.refl _) (absurd hactive)
  | some functor =>
      rw [hcalled] at hstep hwaiting
      have hwaiting : functor :: s.thread.actor.advance.1.waiting = s.thread.actor.waiting := hwaiting
      have hqueued := h.queued functor (hwaiting ▸ List.mem_cons_self)
      have hrest : Inv clean { s with thread := { s.thread with actor := s.thread.actor.advance.1 } } :=
        h.of_thread (hwaiting ▸ List.sublist_cons_self ..) (absurd hactive)
      cases functor with
      | connectionEstablished number =>
          refine connectionEstablished_inv hrest hqueued.1 hqueued.2 (fun hmem => ?_) hstep
          have hcount := h.once number
          rw [← hwaiting, List.count_cons_self] at hcount
          exact List.count_eq_zero.mp (Nat.le_zero.mp (Nat.le_of_succ_le_succ hcount)) hmem
      | request number request => exact request_inv hrest hqueued.1 hqueued.2 hstep

theorem poll_inv {readable writable : FdSet} (h : Inv clean s)
    (hstep : s.step (.poll readable writable) = some next) : Inv clean next := by
  obtain ⟨hphase, hstep⟩ := Option.ite_none_right_eq_some.mp hstep
  obtain ⟨active, hpoll, rfl⟩ := Option.map_eq_some_iff.mp hstep
  obtain ⟨hnodup, hactive⟩ := SelectPoller.poll_spec h.tables.inv hpoll
  have hsublist : s.thread.actor.advance.1.waiting.Sublist s.thread.actor.waiting := by
    rw [← s.thread.actor.advance_waiting]
    exact List.sublist_append_right _ _
  refine ⟨h.tables, h.own, h.kept, fun functor hfunctor => h.queued functor (hsublist.mem hfunctor),
    fun number => (hsublist.count_le _).trans (h.once number), fun entry hentry hnumber => ?_, hnodup,
    fun _ => by simp [Actor.advance, hphase]⟩
  obtain ⟨hlast, hwants⟩ := hactive entry hentry
  have haccepted : s.Accepted entry.1 := ⟨hnumber, h.tables.bound _ hlast⟩
  refine ⟨haccepted, ?_⟩
  rcases (h.kept _ haccepted).stage with ⟨-, hnot⟩ | ⟨hopened | hclosed, -, hobjects⟩
  · exact absurd hlast hnot
  · rw [hobjects] at hwants
    exact ⟨hopened, hwants.imp And.left id⟩
  · -- a closed connection is registered for no event
    rw [hobjects] at hwants
    simp [Channel.isReading, Channel.isWriting, hclosed.events] at hwants

theorem handleEvent_read (tied : Bool) :
    Channel.handleEvent tied kReadEvent = if tied then [] else [.read] := by
  cases tied <;> decide

theorem handleEvent_write (tied : Bool) :
    Channel.handleEvent tied kWriteEvent = if tied then [] else [.write] := by
  cases tied <;> decide

/-- What the handling of an awaited event makes of its connection. -/
theorem Awaited.handled {revents : BitVec 32} {tied : Bool} {read : Buffer.ReadvResult}
    {write : WriteResult} {after : IoConnection} (h : Awaited c revents) (hstream : c.Stream)
    (hreadable : c.Readable read) (hinterest : clean → c.conn.Interest)
    (hhandle : (Channel.handleEvent tied revents).foldlM (IoConnection.handle read write) c =
      some after) :
    after.Stream ∧ after.conn.fd = c.conn.fd ∧ ((clean → after.conn.Interest) ∨ after.Closed) ∧
      (after.Opened ∨ after.Closed) := by
  obtain ⟨hopened, rfl | ⟨rfl, hwriting⟩⟩ := h
  · rw [handleEvent_read] at hhandle
    cases tied with
    | true =>
        obtain rfl : c = after := Option.some.inj hhandle
        exact ⟨hstream, rfl, .inl hinterest, .inl hopened⟩
    | false =>
        have hread : c.handleRead read = some after := by
          simpa [IoConnection.handle] using hhandle
        obtain ⟨hstream', ⟨hopened', hconn⟩ | ⟨hclosed, hconn⟩⟩ :=
          hopened.handleRead hstream hreadable hread
        · exact ⟨hstream', by rw [hconn], .inl (hconn ▸ hinterest), .inl hopened'⟩
        · exact ⟨hstream', by rw [hconn, TcpConnection.handleClose], .inr hclosed, .inr hclosed⟩
  · rw [handleEvent_write] at hhandle
    cases tied with
    | true =>
        obtain rfl : c = after := Option.some.inj hhandle
        exact ⟨hstream, rfl, .inl hinterest, .inl hopened⟩
    | false =>
        have hwrite : (c.conn.handleWrite write).map c.set = some after := by
          simpa [IoConnection.handle] using hhandle
        obtain ⟨conn, hconn, rfl⟩ := Option.map_eq_some_iff.mp hwrite
        have hwrote := TcpConnection.handleWrite_wrote hconn
        refine ⟨hstream.set conn, hwrote.fd, .inl fun hclean => ?_, .inl (hopened.set_wrote hwrote)⟩
        exact TcpConnection.handleWrite_interest (hinterest hclean) hwriting hconn

theorem waiting_readNotifyEvents (thread : EventLoopThread LoopFunctor) :
    thread.readNotifyEvents.actor.waiting = thread.actor.waiting := by
  unfold EventLoopThread.readNotifyEvents
  split <;> rfl

theorem phase_readNotifyEvents (thread : EventLoopThread LoopFunctor) :
    thread.readNotifyEvents.actor.phase = thread.actor.phase := by
  unfold EventLoopThread.readNotifyEvents
  split <;> rfl

theorem handleEvent_inv {read : Buffer.ReadvResult} {write : WriteResult} (h : Inv clean s)
    (hstep : s.step (.handleEvent read write) = some next) : Inv clean next := by
  simp only [step] at hstep
  split at hstep
  case h_1 => cases hstep
  case h_2 id revents active hactive =>
    obtain ⟨hreadable, hstep⟩ := Option.ite_none_right_eq_some.mp hstep
    have hrest : Inv clean { s with active } := h.of_active (hactive ▸ List.sublist_cons_self ..)
    unfold handleEvent at hstep
    by_cases hid : id = 0
    · rw [if_pos hid] at hstep
      obtain rfl := Option.some.inj hstep
      split
      · apply hrest.of_thread (waiting_readNotifyEvents s.thread ▸ List.Sublist.refl _)
        rw [phase_readNotifyEvents]
        exact hrest.handling
      · exact hrest
    rw [if_neg hid] at hstep
    by_cases htimer : id = 1
    · rw [if_pos htimer] at hstep
      obtain rfl := Option.some.inj hstep
      exact hrest
    · rw [if_neg htimer] at hstep
      obtain ⟨after, hhandle, hstore⟩ := Option.bind_eq_some_iff.mp hstep
      have hnumber : 2 ≤ id := by omega
      obtain ⟨haccepted, hawaited⟩ := h.awaited (id, revents) (hactive ▸ List.mem_cons_self) hnumber
      have hkept := h.kept id haccepted
      obtain ⟨-, hlast, hobjects⟩ := hkept.registered hawaited.opened.state
      obtain ⟨hstream, hfd, hinterest, hstage⟩ := hawaited.handled hkept.stream hreadable
        (hkept.interest_of_established hawaited.opened.state) hhandle
      refine hrest.store haccepted hlast hobjects hstream (hfd.trans hkept.fd) hinterest hstage ?_ hstore
      -- its channel is not active a second time
      intro entry hentry heq
      have hnodup := h.nodup
      rw [hactive, List.map_cons, List.nodup_cons] at hnodup
      exact absurd (heq ▸ List.mem_map_of_mem hentry) hnodup.1

theorem waiting_queueInActor (actor : Actor LoopFunctor) (functor : LoopFunctor) :
    (actor.queueInActor functor).waiting = actor.waiting ++ [functor] := by
  simp only [Actor.waiting, Actor.queueInActor, List.append_assoc]
  rfl

theorem Accepted.ne_nextNumber (h : s.Accepted number) : number ≠ s.nextNumber := h.2.ne

theorem accepted_newConnection_iff {events : BitVec 32} :
    (s.newConnection events).Accepted number ↔ number = s.nextNumber ∨ s.Accepted number := by
  simp only [Accepted, newConnection, queueInActor, nextNumber]
  omega

theorem accept_inv {events : BitVec 32} (h : Inv clean s)
    (hclean : clean → events &&& kWriteEvent = 0) (hstep : s.step (.accept events) = some next) :
    Inv clean next := by
  obtain ⟨hfree, hstep⟩ := Option.ite_none_right_eq_some.mp hstep
  obtain rfl := Option.some.inj hstep
  have hnone : s.poller.last s.nextNumber ≠ some .update := by
    intro hlast
    exact absurd (h.tables.bound _ hlast) (lt_irrefl _)
  refine ⟨h.tables.succ hfree, h.own, fun number hnumber => ?_, fun functor hfunctor => ?_,
    fun number => ?_, fun entry hentry hnumber => ?_, h.nodup, h.handling⟩
  · simp only [newConnection, queueInActor]
    rcases accepted_newConnection_iff.mp hnumber with rfl | hold
    · rw [Function.update_self]
      refine ⟨IoConnection.new_stream _ _, rfl, .inl fun hclean' => ?_,
        .inl ⟨IoConnection.new_fresh _ _, hnone⟩⟩
      exact TcpConnection.new_interest_of _ (hclean hclean')
    · rw [Function.update_of_ne hold.ne_nextNumber]
      exact h.kept number hold
  · simp only [newConnection, queueInActor, waiting_queueInActor] at hfunctor
    obtain hfunctor | hfunctor := List.mem_append.mp hfunctor
    · have hold := h.queued functor hfunctor
      cases functor with
      | connectionEstablished number => exact ⟨accepted_newConnection_iff.mpr (.inr hold.1), hold.2⟩
      | request number request => exact ⟨accepted_newConnection_iff.mpr (.inr hold.1), hold.2⟩
    · rw [List.mem_singleton.mp hfunctor]
      exact ⟨accepted_newConnection_iff.mpr (.inl rfl), hnone⟩
  · simp only [newConnection, queueInActor, waiting_queueInActor, List.count_append, List.count_singleton]
    split_ifs with heq
    · have hzero : s.thread.actor.waiting.count (.connectionEstablished number) = 0 := by
        rw [List.count_eq_zero]
        intro hmem
        have hnumber : s.nextNumber = number := by simpa using heq
        exact (h.queued _ hmem).1.ne_nextNumber hnumber.symm
      rw [hzero]
    · exact h.once number
  · obtain ⟨haccepted, hawaited⟩ := h.awaited entry hentry hnumber
    refine ⟨accepted_newConnection_iff.mpr (.inr haccepted), ?_⟩
    simp only [newConnection, queueInActor]
    rw [Function.update_of_ne haccepted.ne_nextNumber]
    exact hawaited

theorem queueInLoop_inv {request : Request} (h : Inv clean s)
    (hstep : s.step (.queueInLoop number request) = some next) : Inv clean next := by
  obtain ⟨⟨haccepted, hmay⟩, hstep⟩ := Option.ite_none_right_eq_some.mp hstep
  obtain rfl := Option.some.inj hstep
  refine ⟨h.tables, h.own, h.kept, fun functor hfunctor => ?_, fun other => ?_, h.awaited, h.nodup,
    h.handling⟩
  · simp only [queueInActor, waiting_queueInActor] at hfunctor
    obtain hfunctor | hfunctor := List.mem_append.mp hfunctor
    · exact h.queued functor hfunctor
    · rw [List.mem_singleton.mp hfunctor]
      exact ⟨haccepted, hmay.short⟩
  · simp only [queueInActor, waiting_queueInActor, List.count_append]
    simpa using h.once other

theorem retrieve_inv {len : ℕ} (h : Inv clean s) (hstep : s.step (.retrieve number len) = some next) :
    Inv clean next := by
  obtain ⟨haccepted, hstep⟩ := Option.ite_none_right_eq_some.mp hstep
  obtain rfl := Option.some.inj hstep
  have hkept := h.kept number haccepted
  have hopened (hold : (s.connections number).Opened) : ((s.connections number).retrieve len).Opened :=
    ⟨hold.state, hold.reading, hold.calls, hold.nonempty⟩
  have hclosed (hold : (s.connections number).Closed) : ((s.connections number).retrieve len).Closed :=
    ⟨hold.state, hold.events, hold.calls⟩
  apply h.replace haccepted h.tables rfl (fun _ _ => ⟨rfl, rfl⟩)
  · refine ⟨hkept.stream.retrieve len, hkept.fd, hkept.interest.imp_right hclosed, ?_⟩
    rcases hkept.stage with ⟨hfresh, hlast⟩ | ⟨hold | hold, hregistered⟩
    · exact .inl ⟨⟨hfresh.state, hfresh.calls, hfresh.reads⟩, hlast⟩
    · exact .inr ⟨.inl (hopened hold), hregistered⟩
    · exact .inr ⟨.inr (hclosed hold), hregistered⟩
  · intro hmem
    exact (h.queued _ hmem).2
  · rintro entry hentry rfl
    have hold := (h.awaited entry hentry haccepted.1).2
    exact ⟨hopened hold.opened, hold.wanted⟩

theorem step_inv {label : Label} (h : Inv clean s) (hclean : clean → s.Clean label)
    (hstep : s.step label = some next) : Inv clean next := by
  cases label with
  | accept events => exact accept_inv h hclean hstep
  | queueInLoop number request => exact queueInLoop_inv h hstep
  | notifyEvent =>
      rw [← Option.some.inj hstep]
      exact h.of_thread (List.Sublist.refl _) h.handling
  | poll readable writable => exact poll_inv h hstep
  | handleEvent read write => exact handleEvent_inv h hstep
  | advance => exact advance_inv h hstep
  | callInLoop number request =>
      obtain ⟨⟨haccepted, hmay⟩, hstep⟩ := Option.ite_none_right_eq_some.mp hstep
      exact request_inv h haccepted hmay.short hstep
  | retrieve number len => exact retrieve_inv h hstep

variable {fd : ℕ → ℤ} {events : ℕ → BitVec 32} {tied : ℕ → Bool} {pending : Bool}

/-- The two channels of its own are registered, and the loop has no connection. -/
theorem start_spec (hstart : start fd events tied pending = some s) :
    s.thread = .new pending ∧ s.active = [] ∧ s.accepted = 0 ∧ s.poller.Tables 2 ∧
      ∀ id < 2, s.poller.last id = some .update ∧
        s.poller.objects id = (Channel.mk (events id)).enableReading := by
  obtain ⟨hne, hstart⟩ := Option.ite_none_right_eq_some.mp hstart
  obtain ⟨timer, htimer, hstart⟩ := Option.bind_eq_some_iff.mp hstart
  obtain ⟨poller, hpoller, rfl⟩ := Option.map_eq_some_iff.mp hstart
  have htables := (SelectPoller.tables_new hne).updateChannel Nat.one_lt_two
    (SelectPoller.fits_of_updateChannel (Channel.isReading_enableReading _) htimer) htimer
  obtain ⟨-, hobjects, hlast, -⟩ := SelectPoller.updateChannel_frame htimer
  obtain ⟨-, hobjects', hlast', -⟩ := SelectPoller.updateChannel_frame hpoller
  have hfits := SelectPoller.fits_of_updateChannel (Channel.isReading_enableReading _) hpoller
  refine ⟨rfl, rfl, rfl, htables.updateChannel Nat.two_pos hfits hpoller, fun id hid => ?_⟩
  dsimp only
  rw [hlast', hobjects', hlast, hobjects]
  obtain rfl | rfl : id = 0 ∨ id = 1 := by omega
  · simp
  · simp

theorem not_accepted_of_start (hstart : start fd events tied pending = some s) (number : ℕ) :
    ¬ s.Accepted number := by
  rintro ⟨hnumber, hlt⟩
  rw [nextNumber, (start_spec hstart).2.2.1] at hlt
  exact absurd hnumber (not_le_of_gt hlt)

theorem start_inv (hclean : clean → ∀ id < 2, events id &&& kWriteEvent = 0)
    (hstart : start fd events tied pending = some s) : Inv clean s := by
  obtain ⟨hthread, hactive, haccepted, htables, hown⟩ := start_spec hstart
  have hnext : s.nextNumber = 2 := by rw [nextNumber, haccepted]
  have hwaiting : s.thread.actor.waiting = [] := by
    rw [hthread]
    rfl
  refine ⟨hnext ▸ htables, fun id hid => ?_, fun number hnumber => ?_, ?_, ?_, ?_, ?_, absurd hactive⟩
  · obtain ⟨hlast, hobjects⟩ := hown id hid
    refine ⟨hlast, hobjects ▸ Channel.isReading_enableReading _, fun hclean' => ?_⟩
    rw [hobjects, Channel.isWriting_enableReading]
    simp [Channel.isWriting, hclean hclean' id hid]
  · exact absurd hnumber (not_accepted_of_start hstart number)
  · rw [hwaiting]
    intro functor hfunctor
    cases hfunctor
  · rw [hwaiting]
    exact fun _ => Nat.zero_le _
  · rw [hactive]
    intro entry hentry
    cases hentry
  · rw [hactive]
    exact List.nodup_nil

/-! ### What follows -/

theorem Kept.orderly {p : SelectPoller} (h : Kept clean p number c) : Orderly c.calls := by
  rcases h.stage with ⟨hfresh, -⟩ | ⟨hopened | hclosed, -⟩
  · exact .inl hfresh.calls
  · obtain ⟨body, hbody, hcalls, -⟩ := hopened.calls
    exact .inr ⟨body, hbody, .inl hcalls⟩
  · obtain ⟨body, -, hbody, hcalls, -⟩ := hclosed.calls
    exact .inr ⟨body, hbody, .inr hcalls⟩

theorem filter_ne_nil {chunks : List (List Byte)} (h : [] ∉ chunks) :
    chunks.filter (· ≠ []) = chunks := by
  rw [List.filter_eq_self]
  intro chunk hchunk
  simpa using fun hnil : chunk = [] => h (hnil ▸ hchunk)

theorem not_mem_body {body : List UserCall} (h : IoConnection.Body body) :
    UserCall.callback .closed ∉ body := by
  intro hmem
  rcases h _ hmem with heq | heq <;> cases heq

theorem Kept.received {p : SelectPoller} (h : Kept clean p number c) : Received c := by
  rcases h.stage with ⟨hfresh, -⟩ | ⟨hopened | hclosed, -⟩
  · refine ⟨h.stream.stream, ?_, ?_, ?_⟩ <;> simp [hfresh.calls, hfresh.reads]
  · obtain ⟨body, hbody, hcalls, hcount⟩ := hopened.calls
    refine ⟨h.stream.stream, ?_, ?_, fun hmem => hopened.nonempty (List.mem_of_mem_dropLast hmem)⟩
    · rw [filter_ne_nil hopened.nonempty, hcalls, ← hcount]
      simp
    · simp [hcalls, not_mem_body hbody, hopened.nonempty]
  · obtain ⟨body, chunks, hbody, hcalls, hreads, hnonempty, hcount⟩ := hclosed.calls
    refine ⟨h.stream.stream, ?_, ?_, ?_⟩
    · rw [hcalls, hreads, List.filter_append, filter_ne_nil hnonempty]
      simp [hcount]
    · simp [hcalls, hreads]
    · rw [hreads, List.dropLast_concat]
      exact hnonempty

/-- The descriptors in whose channels there is an interest. -/
theorem Inv.interested_iff (h : Inv clean s) {wants : Channel → Bool} (hnone : wants ⟨0⟩ = false)
    (fd : ℤ) : s.poller.Interested wants fd ↔
      (∃ id < 2, fd = s.poller.fd id ∧ wants (s.poller.objects id) = true) ∨
        ∃ number, s.Open number ∧ (s.connections number).conn.fd = fd ∧
          wants (s.connections number).conn.channel = true := by
  constructor
  · rintro ⟨id, hid, hwants⟩
    obtain ⟨hfd, hlast⟩ := h.tables.inv.owner fd id hid
    by_cases hown : id < 2
    · exact .inl ⟨id, hown, hfd.symm, hwants⟩
    · have haccepted : s.Accepted id := ⟨not_lt.mp hown, h.tables.bound id hlast⟩
      have hkept := h.kept id haccepted
      rcases hkept.stage with ⟨-, hnot⟩ | ⟨hopened | hclosed, -, hobjects⟩
      · exact absurd hlast hnot
      · exact .inr ⟨id, ⟨haccepted, hopened.state⟩, hkept.fd.trans hfd, hobjects ▸ hwants⟩
      · have hchannel : (s.connections id).conn.channel = ⟨0⟩ := by
          rw [← hclosed.events]
        rw [hobjects, hchannel, hnone] at hwants
        cases hwants
  · rintro (⟨id, hown, rfl, hwants⟩ | ⟨number, ⟨haccepted, hstate⟩, rfl, hwants⟩)
    · exact ⟨id, h.tables.inv.updated id (h.own id hown).last, hwants⟩
    · have hkept := h.kept number haccepted
      obtain ⟨-, hlast, hobjects⟩ := hkept.registered hstate
      refine ⟨number, ?_, hobjects ▸ hwants⟩
      rw [hkept.fd]
      exact h.tables.inv.updated number hlast

theorem Inv.watching (h : Inv clean s) (hclean : clean) : s.Watching := by
  constructor
  · obtain ⟨set, hset, hwatched⟩ := h.tables.inv.watched h.tables.inv.reads
    refine ⟨set, hset, fun fd => ?_⟩
    rw [hwatched, h.interested_iff (by decide), ← or_assoc]
    refine or_congr ?_ (exists_congr fun number => and_congr_right ?_)
    · have hzero := (h.own 0 Nat.two_pos).reading
      have hone := (h.own 1 Nat.one_lt_two).reading
      constructor
      · rintro ⟨id, hid, hfd, -⟩
        obtain rfl | rfl : id = 0 ∨ id = 1 := by omega
        · exact .inl hfd
        · exact .inr hfd
      · rintro (hfd | hfd)
        · exact ⟨0, Nat.two_pos, hfd, hzero⟩
        · exact ⟨1, Nat.one_lt_two, hfd, hone⟩
    intro hopen
    have hkept := h.kept number hopen.1
    exact and_iff_left (hkept.registered hopen.2).1.reading
  · obtain ⟨set, hset, hwatched⟩ := h.tables.inv.watched h.tables.inv.writes
    refine ⟨set, hset, fun fd => ?_⟩
    have hown : ¬ ∃ id < 2, fd = s.poller.fd id ∧ (s.poller.objects id).isWriting = true := by
      rintro ⟨id, hid, -, hwriting⟩
      exact absurd (hwriting.symm.trans ((h.own id hid).writing hclean)) (by decide)
    rw [hwatched, h.interested_iff (by decide), or_iff_right hown]
    refine exists_congr fun number => and_congr_right fun hopen => and_congr_right fun _ => ?_
    exact ((h.kept number hopen.1).interest_of_established hopen.2 hclean).writing

/-! ### Runs -/

theorem throughout_of_start {holds : IoLoop → Prop} (hstart : start fd events tied pending = some s)
    (hholds : ∀ s, Inv False s → holds s) (labels : List Label) :
    Machine.Throughout step holds s labels := by
  apply Machine.throughout_of_forall (Inv False) hholds _ labels (start_inv False.elim hstart)
  intro s label next h hstep
  exact step_inv h False.elim hstep

/-- **The callbacks of a connection come in order**, whatever the interleaving of the loop with other
threads and whatever the callbacks themselves do. -/
theorem callbacks_orderly (hstart : start fd events tied pending = some s) (labels : List Label) :
    Machine.Throughout step
      (fun s => ∀ number, s.Accepted number → Orderly (s.connections number).calls) s labels := by
  apply throughout_of_start hstart
  intro s h number haccepted
  exact (h.kept number haccepted).orderly

/-- A connection from its establishment to the end of its stream. -/
def session : List Label :=
  [.accept 0, .notifyEvent, .poll (· = 3) .zero, .handleEvent (.error 11) (.accepted 0),
    .advance, .advance, .advance, .advance,
    .poll (· = 5) .zero, .handleEvent (.bytes [1, 2]) (.accepted 0),
    .callInLoop 2 (.sendInLoop [3, 4] (.accepted 1)), .retrieve 2 1, .advance,
    .poll .zero (· = 5), .handleEvent (.error 11) (.accepted 1), .advance,
    .poll (· = 5) .zero, .handleEvent (.bytes []) (.accepted 0)]

example : ((start (fun id => id + 3) (fun _ => 0) (fun _ => false) false).bind fun s =>
    (Machine.run step s session).map fun s => (s.connections 2).calls) =
      some [.callback .established, .message, .callback .writeComplete, .callback .disconnected,
        .callback .closed] := by
  decide +kernel

theorem start_isSome : (start (fun id => id + 3) (fun _ => 0) (fun _ => false) false).isSome := by decide

theorem callbacks_orderly_session :
    ∃ s, start (fun id => id + 3) (fun _ => 0) (fun _ => false) false = some s ∧
    Machine.Throughout step
      (fun s => ∀ number, s.Accepted number → Orderly (s.connections number).calls) s session := by
  obtain ⟨s, hstart⟩ := Option.isSome_iff_exists.mp start_isSome
  exact ⟨s, hstart, callbacks_orderly hstart session⟩

/-- **No byte that was read is lost, repeated or moved**, and a connection is closed exactly when its
stream has ended. -/
theorem reads_received (hstart : start fd events tied pending = some s) (labels : List Label) :
    Machine.Throughout step
      (fun s => ∀ number, s.Accepted number → Received (s.connections number)) s labels := by
  apply throughout_of_start hstart
  intro s h number haccepted
  exact (h.kept number haccepted).received

theorem reads_received_session : ∃ s, start (fun id => id + 3) (fun _ => 0) (fun _ => false) false = some s ∧
    Machine.Throughout step
      (fun s => ∀ number, s.Accepted number → Received (s.connections number)) s session := by
  obtain ⟨s, hstart⟩ := Option.isSome_iff_exists.mp start_isSome
  exact ⟨s, hstart, reads_received hstart session⟩

/-- **`select` always looks at what it should**: at the eventfd, the timerfd and the connections that are
open, and for writing at those connections that have something to write. -/
theorem watching_of_clean (hevents : ∀ id < 2, events id &&& kWriteEvent = 0)
    (hstart : start fd events tied pending = some s) (labels : List Label)
    (hclean : Machine.AllSteps step Clean s labels) :
    Machine.Throughout step Watching s labels := by
  apply Machine.throughout_of_allSteps (Inv True) (fun _ h => h.watching trivial) _ labels _
    (start_inv (fun _ => hevents) hstart) hclean
  intro s label next h hok hstep
  exact step_inv h (fun _ => hok) hstep

theorem watching_session : ∃ s, start (fun id => id + 3) (fun _ => 0) (fun _ => false) false = some s ∧
    Machine.AllSteps step Clean s session ∧ Machine.Throughout step Watching s session := by
  obtain ⟨s, hstart⟩ := Option.isSome_iff_exists.mp start_isSome
  have hclean : Machine.AllSteps step Clean s session := by
    have hlabels : ∀ label ∈ session, Clean s label := by simp [session, Clean]
    exact Machine.allSteps_of_forall_mem hlabels s
  exact ⟨s, hstart, hclean, watching_of_clean (by decide) hstart session hclean⟩

end IoLoop

end EasyLib.Reactors
