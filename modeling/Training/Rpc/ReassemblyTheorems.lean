/-
Training.Rpc.ReassemblyTheorems — whole requests out of a stream.

* `Reassembles` — every payload of a stream of frames is handed over
  once, in order, however the stream is cut, if `epoll_recv` is called
  again and again.
* `Timely` — no complete request is left unread when `epoll_recv` is
  called once for each arrival, as under EPOLLET.

Both rest on one condition on the payloads, `Receivable`; `Timely` needs
more, because a call hands over one request and an interrupted call is
not made up for.
-/
import Training.Lib.Machine
import Training.Rpc.ServerTheorems

namespace Training.Rpc

open Training.Lib

variable {mem : Nat → Bool} {ps : List (List UInt8)} {c c' : Conn} {s : List UInt8}

/-! ## Calls without an end -/

/-- The connection after `k` calls, the reads of call `i` with the
outcomes `sched i`. -/
def serve (mem : Nat → Bool) (sched : Nat → List Outcome) (c : Conn) : Nat → Conn
  | 0 => c
  | k + 1 => epollRecv mem (sched k) (serve mem sched c k)

/-- No read fails, and there is always a later call whose first read
returns what it finds. -/
structure Fair (sched : Nat → List Outcome) : Prop where
  noError : ∀ k, .error ∉ sched k
  delivers : ∀ k, ∃ j, k ≤ j ∧ ((sched j).headD .whole).delivers = true

/-- The connection after the stream `s` has arrived and been read in part. -/
structure Conn.Reads (mem : Nat → Bool) (s : List UInt8) (ends : Bool) (c : Conn) : Prop where
  inv : c.Inv mem
  split : c.received ++ c.source.unread = s
  closed : c.source.closed = ends
  /-- why the connection is closed, if it is -/
  dropped : c.connected = false →
    (c.receiver mem).phase = .refused ∨
      c.source.unread = [] ∧ ends = true ∧ ¬ (c.receiver mem).Absorbed

theorem reads_init (s : List UInt8) (ends : Bool) :
    (Conn.init { unread := s, closed := ends }).Reads mem s ends where
  inv := inv_init _
  split := rfl
  closed := rfl
  dropped h := by cases h

theorem reads_epollRecv {os : List Outcome} {ends : Bool} (hos : .error ∉ os)
    (h : c.Reads mem s ends) : (epollRecv mem os c).Reads mem s ends := by
  obtain ⟨⟨bs, hrecv, hunread⟩, hclosed⟩ := epollRecv_split os h.inv
  refine ⟨inv_epollRecv os h.inv, ?_, hclosed.trans h.closed, ?_⟩
  · rw [hrecv, List.append_assoc, ← hunread, h.split]
  · by_cases hopen : c.overflow = true ∨ c.connected = false
    · rw [epollRecv_closed hopen]
      exact h.dropped
    · have hopen : c.connected = true ∧ c.overflow = false := by simpa [and_comm] using hopen
      obtain ⟨-, -, -, hend⟩ := epollRecv_spec os h.inv hopen.1 hopen.2
      intro hdis
      cases hend with
      | stopped hstop =>
        rcases hstop.dropped hdis with herr | href | ⟨hnil, hc, habs⟩
        · exact absurd herr hos
        · exact Or.inl href
        · exact Or.inr ⟨hnil, h.closed.symm.trans (hclosed.symm.trans hc), habs⟩
      | stuck hconn _ => exact absurd (hconn.symm.trans hdis) (by simp)
      | handedOver _ hconn _ _ _ => exact absurd (hconn.symm.trans hdis) (by simp)

theorem reads_serve {sched : Nat → List Outcome} {ends : Bool} (hfair : Fair sched) (k : Nat) :
    (serve mem sched (Conn.init { unread := s, closed := ends }) k).Reads mem s ends := by
  induction k with
  | zero => exact reads_init s ends
  | succ k ih => exact reads_epollRecv (hfair.noError k) ih

/-- What the receiver makes of the rest of the stream. -/
theorem Conn.Reads.receiver_rest {ends : Bool} (h : c.Reads mem s ends) :
    (c.receiver mem).feedAll mem c.source.unread = Receiver.init.feedAll mem s := by
  rw [Conn.receiver, ← feedAll_append, h.split]

/-- A receiver that no byte changes has seen the end of the stream. -/
theorem Conn.Reads.receiver_absorbed {ends : Bool} (h : c.Reads mem s ends)
    (habs : (c.receiver mem).Absorbed) : c.receiver mem = Receiver.init.feedAll mem s := by
  rw [← h.receiver_rest, feedAll_absorbed habs]

theorem Conn.Reads.receiver_drained {ends : Bool} (h : c.Reads mem s ends)
    (hnil : c.source.unread = []) : c.receiver mem = Receiver.init.feedAll mem s := by
  rw [← h.receiver_rest, hnil, feedAll_nil]

/-- The number of bytes left never grows. -/
theorem length_unread_epollRecv (os : List Outcome) (h : c.Inv mem) :
    (epollRecv mem os c).source.unread.length ≤ c.source.unread.length := by
  obtain ⟨⟨bs, -, hunread⟩, -⟩ := epollRecv_split os h
  rw [hunread, List.length_append]
  exact Nat.le_add_left _ _

/-- A server that is not done gets on. -/
theorem moves_epollRecv (os : List Outcome) (h : c.Inv mem) (hconn : c.connected = true)
    (habs : ¬ (c.receiver mem).Absorbed) : (c.event os).Moves (epollRecv mem os c) := by
  have hover : c.overflow = false := by
    rw [← Bool.not_eq_true, h.overflow]
    intro hphase
    exact habs (by simp [Receiver.Absorbed, hphase])
  obtain ⟨-, -, hmoves, -⟩ := epollRecv_spec os h hconn hover
  refine hmoves ?_
  intro got hphase
  exact habs (by simp [Receiver.Absorbed, hphase])

/-- A call whose first read delivers takes something, if there is
something and the server is not done. -/
theorem length_unread_lt {os : List Outcome} (h : c.Inv mem) (hconn : c.connected = true)
    (habs : ¬ (c.receiver mem).Absorbed) (hos : (os.headD .whole).delivers = true)
    (hne : c.source.unread ≠ []) :
    (epollRecv mem os c).source.unread.length < c.source.unread.length := by
  have hmore := (moves_epollRecv os h hconn habs hos).1 hne
  obtain ⟨⟨bs, hrecv, hunread⟩, -⟩ := epollRecv_split os h
  have hbs : bs ≠ [] := by
    rintro rfl
    rw [List.append_nil] at hrecv
    exact hmore hrecv
  rw [hunread, List.length_append]
  exact Nat.lt_add_of_pos_left (List.length_pos_iff.mpr hbs)

/-! ## Reassembly -/

/-- The server has handed over `ps`, has nothing to read, and waits for a
header as a new connection does. -/
structure Conn.Served (ps : List (List UInt8)) (c : Conn) : Prop where
  dispatched : c.dispatched = ps
  connected : c.connected = true
  overflow : c.overflow = false
  unread : c.source.unread = []
  waiting : initClient c.client = c.client

/-- `ps` sent on one connection are handed over whatever the reads do,
short of failing or being interrupted. -/
def Reassembles (mem : Nat → Bool) (ps : List (List UInt8)) : Prop :=
  ∀ sched, Fair sched → (∀ k, .intr ∉ sched k) → ∃ K, ∀ k, K ≤ k →
    (serve mem sched (Conn.init { unread := ps.flatMap streamCallPack, closed := false }) k).Served ps

theorem Client.AtHead.waiting {client : Client} (h : client.AtHead []) :
    initClient client = client := by
  obtain ⟨hready, hsize, -, hbody, htotal, hrecv⟩ := h
  cases client
  simp_all [initClient]

section Receivable

variable (hlen : ∀ p ∈ ps, p.length < int32Size) (hps : Receivable mem ps)

include hlen hps

/-- On a stream of frames that can be received the server never stops. -/
theorem not_absorbed_of_receivable (h : c.Reads mem s false)
    (hs : s <+: ps.flatMap streamCallPack) : ¬ (c.receiver mem).Absorbed := by
  intro habs
  obtain ⟨rest, hrest⟩ := hs
  have hphase := (feedAll_receivable hlen hps).1
  rw [← hrest, feedAll_append, ← h.receiver_absorbed habs, feedAll_absorbed habs] at hphase
  simp [Receiver.Absorbed, hphase] at habs

theorem connected_of_receivable (h : c.Reads mem s false)
    (hs : s <+: ps.flatMap streamCallPack) : c.connected = true ∧ c.overflow = false := by
  have habs := not_absorbed_of_receivable hlen hps h hs
  constructor
  · by_contra hdis
    rcases h.dropped (by simpa using hdis) with href | ⟨-, hends, -⟩
    · exact habs (by simp [Receiver.Absorbed, href])
    · cases hends
  · rw [← Bool.not_eq_true, h.inv.overflow]
    intro hphase
    exact habs (by simp [Receiver.Absorbed, hphase])

theorem served_of_drained (h : c.Reads mem (ps.flatMap streamCallPack) false)
    (hnil : c.source.unread = []) : c.Served ps := by
  obtain ⟨hphase, hacc, -⟩ := feedAll_receivable hlen hps
  obtain ⟨hconn, hover⟩ := connected_of_receivable hlen hps h (List.prefix_refl _)
  rw [← h.receiver_drained hnil] at hphase hacc
  have hat := h.inv.client hconn hover
  rw [hphase] at hat
  exact ⟨h.inv.dispatched.trans hacc, hconn, hover, hnil, hat.waiting⟩

theorem reassembles_of_receivable : Reassembles mem ps := by
  intro sched hfair _
  obtain ⟨run, hrun⟩ : ∃ run, run = serve mem sched
    (Conn.init { unread := ps.flatMap streamCallPack, closed := false }) := ⟨_, rfl⟩
  have hstep : ∀ k, run (k + 1) = epollRecv mem (sched k) (run k) := fun k => by rw [hrun, serve]
  have hreads : ∀ k, (run k).Reads mem (ps.flatMap streamCallPack) false := fun k => by
    rw [hrun]
    exact reads_serve hfair k
  have hrank : ∀ k, (run (k + 1)).source.unread.length ≤ (run k).source.unread.length := fun k => by
    rw [hstep]
    exact length_unread_epollRecv _ (hreads k).inv
  have hkeep : ∀ k, (run k).source.unread = [] → (run (k + 1)).source.unread = [] := by
    intro k hnil
    have := hrank k
    rw [hnil] at this
    exact List.length_eq_zero_iff.mp (Nat.le_zero.mp this)
  obtain ⟨K, hK⟩ := settles_of_rank run (fun c => c.source.unread = [])
    (fun c => c.source.unread.length) hkeep hrank fun k => by
      obtain ⟨j, hkj, hdel⟩ := hfair.delivers k
      refine ⟨j, hkj, ?_⟩
      by_cases hnil : (run j).source.unread = []
      · exact Or.inl (hkeep j hnil)
      · rw [hstep]
        exact Or.inr (length_unread_lt (hreads j).inv
          (connected_of_receivable hlen hps (hreads j) (List.prefix_refl _)).1
          (not_absorbed_of_receivable hlen hps (hreads j) (List.prefix_refl _)) hdel hnil)
  exact ⟨K, fun k hk => hrun ▸ served_of_drained hlen hps (hreads k) (hK k hk)⟩

end Receivable

/-- Reads that return the whole of what is there. -/
theorem fair_whole : Fair fun _ => [] where
  noError _ := by simp
  delivers k := ⟨k, Nat.le_refl k, rfl⟩

theorem receivable_of_reassembles (hlen : ∀ p ∈ ps, p.length < int32Size)
    (h : Reassembles mem ps) : Receivable mem ps := by
  obtain ⟨K, hK⟩ := h _ fair_whole (by simp)
  have hserved := hK K (Nat.le_refl K)
  have hreads : (serve mem (fun _ => []) (Conn.init
      { unread := ps.flatMap streamCallPack, closed := false }) K).Reads mem _ false :=
    reads_serve fair_whole K
  have hacc := hserved.dispatched
  rw [hreads.inv.dispatched, hreads.receiver_drained hserved.unread] at hacc
  refine receivable_of_accepted [] hlen ⟨[], ?_⟩
  rw [List.append_nil, List.append_nil, hacc]

/-- The server reassembles a list of payloads exactly when none is empty,
none is longer than the first, and there is memory for the first. -/
theorem reassembles_iff (hlen : ∀ p ∈ ps, p.length < int32Size) :
    Reassembles mem ps ↔ Receivable mem ps :=
  ⟨receivable_of_reassembles hlen, reassembles_of_receivable hlen⟩

theorem reassembles_three :
    (∀ p ∈ [[1, 2, 3], [4], [5, 6]], p.length < int32Size) ∧
      Reassembles (fun _ => true) [[1, 2, 3], [4], [5, 6]] :=
  ⟨by decide, (reassembles_iff (by decide)).mpr (by decide)⟩

/-- An empty request, and one longer than the first. -/
theorem lost_requests :
    ¬ Reassembles (fun _ => true) [[1], [], [2]] ∧
      ¬ Reassembles (fun _ => true) [[1], [2, 3]] :=
  ⟨fun h => absurd (receivable_of_reassembles (by decide) h) (by decide),
    fun h => absurd (receivable_of_reassembles (by decide) h) (by decide)⟩

/-! ## One call for each arrival -/

/-- Bytes that arrive together, and the outcomes of the reads of the call
that follows. -/
structure Arrival where
  bytes : List UInt8
  outcomes : List Outcome

def receive (mem : Nat → Bool) (c : Conn) (a : Arrival) : Conn :=
  epollRecv mem a.outcomes (c.arrive a.bytes)

def Conn.arrived (c : Conn) : Nat := c.received.length + c.source.unread.length

/-- Every frame whose last byte has arrived has been handed over. -/
def Timely (ps : List (List UInt8)) (c : Conn) : Prop := c.dispatched = completed ps c.arrived

/-- The arrival ends one frame at most, and no read of the call for the
end of a frame is interrupted. -/
def OneByOne (ps : List (List UInt8)) (c : Conn) (a : Arrival) : Prop :=
  (completed ps (c.arrived + a.bytes.length)).length ≤ (completed ps c.arrived).length + 1 ∧
    (completed ps (c.arrived + a.bytes.length) ≠ completed ps c.arrived → .intr ∉ a.outcomes)

instance (ps : List (List UInt8)) (c : Conn) (a : Arrival) : Decidable (OneByOne ps c a) :=
  inferInstanceAs (Decidable (_ ∧ _))

theorem reads_arrive (bytes : List UInt8) (h : c.Reads mem s false) :
    (c.arrive bytes).Reads mem (s ++ bytes) false where
  inv := ⟨h.inv.dispatched, h.inv.overflow, h.inv.refused, h.inv.held, h.inv.client,
    fun hfit => ⟨(h.inv.sound hfit).requests, (h.inv.sound hfit).records⟩⟩
  split := by rw [← h.split, List.append_assoc]; rfl
  closed := h.closed
  dropped hdis := by
    rcases h.dropped hdis with href | ⟨-, hends, -⟩
    · exact Or.inl href
    · cases hends

theorem Conn.Reads.arrived_eq {ends : Bool} (h : c.Reads mem s ends) : c.arrived = s.length := by
  rw [← h.split, List.length_append]
  rfl

/-- What has been handed over is there of what has arrived. -/
theorem Conn.Reads.dispatched_prefix {ends : Bool} (h : c.Reads mem s ends) :
    c.dispatched <+: (Receiver.init.feedAll mem s).accepted := by
  rw [h.inv.dispatched, ← h.receiver_rest]
  exact accepted_feedAll_prefix _

theorem dispatched_epollRecv_grows (os : List Outcome) (h : c.Inv mem) :
    c.dispatched <+: (epollRecv mem os c).dispatched := by
  obtain ⟨⟨bs, hrecv, -⟩, -⟩ := epollRecv_split os h
  rw [h.dispatched, (inv_epollRecv os h).dispatched, Conn.receiver, Conn.receiver, hrecv,
    feedAll_append]
  exact accepted_feedAll_prefix bs

theorem timely_receive {a : Arrival} (hlen : ∀ p ∈ ps, p.length < int32Size)
    (hps : Receivable mem ps) (h : c.Reads mem s false)
    (hs : s ++ a.bytes <+: ps.flatMap streamCallPack)
    (hos : ∀ o ∈ a.outcomes, o ≠ .again ∧ o ≠ .error) (hone : OneByOne ps c a)
    (htimely : Timely ps c) :
    (receive mem c a).Reads mem (s ++ a.bytes) false ∧ Timely ps (receive mem c a) := by
  have harrive := reads_arrive a.bytes h
  have hreads : (receive mem c a).Reads mem (s ++ a.bytes) false :=
    reads_epollRecv (fun herr => (hos _ herr).2 rfl) harrive
  refine ⟨hreads, ?_⟩
  have hcompleted : (Receiver.init.feedAll mem (s ++ a.bytes)).accepted =
      completed ps (s ++ a.bytes).length := by
    rw [← accepted_take hlen hps, ← List.prefix_iff_eq_take.mp hs]
  have hprefix := hreads.dispatched_prefix
  rw [hcompleted] at hprefix
  have habs := not_absorbed_of_receivable hlen hps hreads hs
  obtain ⟨hconn, hover⟩ := connected_of_receivable hlen hps harrive hs
  obtain ⟨hconn', hover'⟩ := connected_of_receivable hlen hps hreads hs
  obtain ⟨hmost, hintr⟩ := hone
  have hbefore : c.dispatched = completed ps s.length := by
    rw [← h.arrived_eq]
    exact htimely
  have hnow : c.arrived + a.bytes.length = (s ++ a.bytes).length := by
    rw [h.arrived_eq, List.length_append]
  rw [hnow, h.arrived_eq] at hmost hintr
  unfold Timely
  rw [hreads.arrived_eq]
  obtain ⟨-, -, -, hend⟩ := epollRecv_spec a.outcomes harrive.inv hconn hover
  cases hend with
  | stopped hstop =>
    rcases hstop.resting hconn' hover' with hag | hin | ⟨hnil, -⟩
    · exact absurd rfl (hos _ hag).1
    · have hnone : completed ps (s ++ a.bytes).length = completed ps s.length := by
        by_contra hne
        exact hintr hne hin
      rw [hnone] at hprefix ⊢
      rw [← hbefore] at hprefix ⊢
      exact hprefix.eq_of_length_le
        (dispatched_epollRecv_grows a.outcomes harrive.inv).length_le
    · rw [hreads.inv.dispatched, hreads.receiver_drained hnil, hcompleted]
  | stuck _ hphase => exact absurd (by simp [Receiver.Absorbed, receive, hphase]) habs
  | handedOver p _ _ _ hdis =>
    refine hprefix.eq_of_length_le ?_
    have hdis : (receive mem c a).dispatched = c.dispatched ++ [p] := hdis
    rw [hdis, hbefore]
    simpa using hmost

/-- In a run with one frame at a time every request is handed over by the
call for its last byte. -/
theorem timely_of_oneByOne {arrivals : List Arrival} (hlen : ∀ p ∈ ps, p.length < int32Size)
    (hps : Receivable mem ps) (harrivals : arrivals.flatMap Arrival.bytes <+: ps.flatMap streamCallPack)
    (hos : ∀ a ∈ arrivals, ∀ o ∈ a.outcomes, o ≠ .again ∧ o ≠ .error)
    (hone : Along (receive mem) (OneByOne ps) (Conn.init { unread := [], closed := false }) arrivals) :
    Throughout (receive mem) (Timely ps) (Conn.init { unread := [], closed := false }) arrivals := by
  have hrun : ∀ (arrivals : List Arrival) (c : Conn) (s : List UInt8), c.Reads mem s false →
      Timely ps c → s ++ arrivals.flatMap Arrival.bytes <+: ps.flatMap streamCallPack →
      (∀ a ∈ arrivals, ∀ o ∈ a.outcomes, o ≠ .again ∧ o ≠ .error) →
      Along (receive mem) (OneByOne ps) c arrivals →
      Throughout (receive mem) (Timely ps) c arrivals := by
    intro arrivals
    induction arrivals with
    | nil => exact fun c s _ htimely _ _ _ => htimely
    | cons a as ih =>
      intro c s hreads htimely hs hos hone
      rw [List.flatMap_cons, ← List.append_assoc] at hs
      obtain ⟨ha, has⟩ := List.forall_mem_cons.mp hos
      obtain ⟨hreads', htimely'⟩ := timely_receive hlen hps hreads
        ((List.prefix_append _ _).trans hs) ha hone.1 htimely
      exact ⟨htimely, ih _ _ hreads' htimely' hs has hone.2⟩
  refine hrun arrivals _ [] (reads_init [] false) ?_ harrivals hos hone
  cases ps with
  | nil => rfl
  | cons p ps => simp [Timely, Conn.init, Conn.arrived, completed, packageHeadLen]

/-- Two frames in three arrivals, the first of them cut in its header. -/
theorem timely_threeArrivals :
    Throughout (receive fun _ => true) (Timely [[1, 2], [3]])
      (Conn.init { unread := [], closed := false })
      [⟨(streamCallPack [1, 2]).take 5, []⟩,
        ⟨(streamCallPack [1, 2]).drop 5 ++ (streamCallPack [3]).take 8, [.short 0]⟩,
        ⟨[3], []⟩] :=
  timely_of_oneByOne (by decide) (by decide) (by decide) (by decide) (by decide)

/-- Two frames in one arrival, and an interrupted read at the end of a
frame. -/
theorem late_requests :
    ¬ Throughout (receive fun _ => true) (Timely [[1], [2]])
        (Conn.init { unread := [], closed := false })
        [⟨streamCallPack [1] ++ streamCallPack [2], []⟩] ∧
      ¬ Throughout (receive fun _ => true) (Timely [[1]])
        (Conn.init { unread := [], closed := false }) [⟨streamCallPack [1], [.intr]⟩] := by
  simp only [Throughout, Timely]
  decide

end Training.Rpc
