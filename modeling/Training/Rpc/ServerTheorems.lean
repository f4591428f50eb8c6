/-
Training.Rpc.ServerTheorems — the server is where the receiver is.

`Conn.Inv` says so for a state between calls of `epoll_recv`: the
payloads handed over are the ones the receiver has accepted of the bytes
received, and the record holds the unfinished header or payload. It says
too that reads and record were within bounds as long as the lengths
announced fit.

Each function of the receive path has one lemma (`recvHeadLoop_spec`,
`recvDataLoop_spec`, `recvData_spec`, `epollRecv_spec`), which adds why it
stopped where it did, and that it got on if its first read delivered.
-/
import Training.Rpc.Server
import Training.Rpc.Receiver
import Training.Udp.RingBufferTheorems

namespace Training.Rpc

open Training.Lib
open Training.Udp (memcpy bytesAt length_bytesAt getElem_bytesAt memcpy_of_lt memcpy_of_mem)

variable {mem : Nat → Bool} {c c' c'' : Conn}

/-! ## Bounds -/

def Request.Sound (q : Request) : Prop := 0 ≤ q.count ∧ q.count ≤ q.room

instance (q : Request) : Decidable q.Sound := inferInstanceAs (Decidable (_ ∧ _))

/-- A record whose header is complete. -/
def Client.Sound (client : Client) : Prop :=
  client.headReady = true →
    (client.bodyRecvSize : Int) ≤ client.bodyTotalSize ∧
      client.bodyTotalSize = client.announced

structure Conn.Sound (c : Conn) : Prop where
  requests : ∀ q ∈ c.requests, q.Sound
  records : ∀ client ∈ c.records, client.Sound

/-! ## The invariant -/

def Conn.receiver (mem : Nat → Bool) (c : Conn) : Receiver :=
  Receiver.init.feedAll mem c.received

structure Client.AtHead (client : Client) (got : List UInt8) : Prop where
  headReady : client.headReady = false
  headRecvSize : client.headRecvSize = got.length
  head : bytesAt client.head 0 got.length = got
  bodyReady : client.bodyReady = false
  bodyTotalSize : client.bodyTotalSize = -1
  bodyRecvSize : client.bodyRecvSize = 0

structure Client.AtBody (client : Client) (total : Nat) (got : List UInt8) : Prop where
  headReady : client.headReady = true
  announced : client.announced = total
  bodyReady : client.bodyReady = false
  bodyTotalSize : client.bodyTotalSize = total
  bodyRecvSize : client.bodyRecvSize = got.length
  data : ∀ a ∈ client.data, bytesAt a.bytes 0 got.length = got

def Client.At (client : Client) : Phase → Prop
  | .head got => client.AtHead got
  | .body total got => client.AtBody total got
  | .refused => False
  | .overrun => False

structure Conn.Inv (mem : Nat → Bool) (c : Conn) : Prop where
  dispatched : c.dispatched = (c.receiver mem).accepted
  overflow : c.overflow = true ↔ (c.receiver mem).phase = .overrun
  refused : (c.receiver mem).phase = .refused → c.connected = false
  held : c.connected = true → c.client.data.map Alloc.size = (c.receiver mem).held
  client : c.connected = true → c.overflow = false → c.client.At (c.receiver mem).phase
  sound : HeadersFit mem (c.receiver mem).announced → c.Sound

theorem receiver_valid (mem : Nat → Bool) (c : Conn) : (c.receiver mem).Valid mem :=
  valid_feedAll valid_init _

theorem inv_init (source : Source UInt8) : (Conn.init source).Inv mem where
  dispatched := rfl
  overflow := by simp [Conn.init, Conn.receiver, Receiver.init]
  refused := by simp [Conn.init, Conn.receiver, Receiver.init]
  held _ := rfl
  client _ _ :=
    { headReady := rfl
      headRecvSize := rfl
      head := rfl
      bodyReady := rfl
      bodyTotalSize := rfl
      bodyRecvSize := rfl }
  sound _ := { requests := by simp [Conn.init], records := by simp [Conn.init] }

/-! ## From one state to a later one -/

/-- `c'` has read on from `c`. -/
structure Conn.Onward (c c' : Conn) : Prop where
  split : ∃ bs, c'.received = c.received ++ bs ∧ c.source.unread = bs ++ c'.source.unread
  closed : c'.source.closed = c.source.closed
  outcomes : ∀ o ∈ c'.outcomes, o ∈ c.outcomes

theorem Conn.Onward.refl (c : Conn) : c.Onward c :=
  ⟨⟨[], by simp, rfl⟩, rfl, fun _ h => h⟩

theorem Conn.Onward.trans (h : c.Onward c') (h' : c'.Onward c'') : c.Onward c'' := by
  obtain ⟨bs, hrecv, hunread⟩ := h.split
  obtain ⟨bs', hrecv', hunread'⟩ := h'.split
  refine ⟨⟨bs ++ bs', ?_, ?_⟩, h'.closed.trans h.closed, fun o ho => h.outcomes o (h'.outcomes o ho)⟩
  · rw [hrecv', hrecv, List.append_assoc]
  · rw [hunread, hunread', List.append_assoc]

/-- A call whose first read delivers takes something off the source, or
finds its end. -/
def Conn.Moves (c c' : Conn) : Prop :=
  (c.outcomes.headD .whole).delivers = true →
    (c.source.unread ≠ [] → c'.received ≠ c.received) ∧
      (c.source.unread = [] → c.source.closed = true → c'.connected = false)

/-- Why a call without a result ended where it did. -/
structure Conn.Stopped (mem : Nat → Bool) (os : List Outcome) (c' : Conn) : Prop where
  resting : c'.connected = true → c'.overflow = false →
    .again ∈ os ∨ .intr ∈ os ∨ c'.source.unread = [] ∧ c'.source.closed = false
  dropped : c'.connected = false →
    .error ∈ os ∨ (c'.receiver mem).phase = .refused ∨
      c'.source.unread = [] ∧ c'.source.closed = true ∧ ¬ (c'.receiver mem).Absorbed

theorem Conn.Stopped.mono {os os' : List Outcome} (hos : ∀ o ∈ os, o ∈ os')
    (h : c'.Stopped mem os) : c'.Stopped mem os' where
  resting hconn hover := (h.resting hconn hover).imp (hos _) (Or.imp_left (hos _))
  dropped hconn := (h.dropped hconn).imp_left (hos _)

/-! ## One read -/

/-- The state after a `read` that returned `bs`. -/
def Conn.took (c : Conn) (q : Request) (bs : List UInt8) (source : Source UInt8) : Conn :=
  { c with
    requests := c.requests ++ [q]
    source
    outcomes := c.outcomes.tail
    received := c.received ++ bs }

/-- The state after a `read` that returned no bytes. -/
structure Conn.Failed (c : Conn) (q : Request) (c' : Conn) : Prop where
  state : c' = c.took q [] c.source ∨ c' = (c.took q [] c.source).remove
  resting : c'.connected = true →
    .again ∈ c.outcomes ∨ .intr ∈ c.outcomes ∨ c.source.unread = [] ∧ c.source.closed = false
  dropped : c'.connected = false → c.connected = true →
    .error ∈ c.outcomes ∨ c.source.unread = [] ∧ c.source.closed = true
  idle : (c.outcomes.headD .whole).delivers = true →
    c.source.unread = [] ∧ (c.source.closed = true → c'.connected = false)

theorem sizeT_natCast {count : Nat} (h : count < int32Size) : sizeT count = count := by
  simp only [int32Size] at h
  simp only [sizeT]
  omega

theorem recv_cases (c : Conn) {n : Nat} (hpos : 0 < n) (hlt : n < int32Size) (room : Int) :
    (∃ bs source, bs ≠ [] ∧ bs.length ≤ n ∧ c.source.unread = bs ++ source.unread ∧
      source.closed = c.source.closed ∧
      c.recv n room = .ok (bs, c.took ⟨n, room⟩ bs source)) ∨
    ∃ errno c', c.recv n room = .error (errno, c') ∧ c.Failed ⟨n, room⟩ c' := by
  have hsize : ¬ ssizeMax < n := by
    simp only [int32Size, ssizeMax] at hlt ⊢
    omega
  unfold Conn.recv
  simp only [sizeT_natCast hlt, if_neg hsize]
  generalize hread : c.source.read (c.outcomes.headD .whole) n = g
  obtain ⟨got, source⟩ := g
  have hkeep : (∀ xs, got ≠ .elems xs) → source = c.source := fun h => by
    have := read_source (s := c.source) (o := c.outcomes.headD .whole)
      (n := n) (by rwa [hread])
    rwa [hread] at this
  have hidle : (∀ xs, got ≠ .elems xs) → (c.outcomes.headD .whole).delivers = true →
      c.source.unread = [] ∧ (c.source.closed = true → got = .eof) := by
    intro hgot ho
    have hnil : c.source.unread = [] := by
      by_contra hne
      obtain ⟨xs, s', heq⟩ := read_delivers ho hne hpos
      rw [hread] at heq
      exact hgot xs (Prod.mk.inj heq).1
    refine ⟨hnil, fun hclosed => ?_⟩
    rw [read_closed ho hnil hclosed] at hread
    exact (Prod.mk.inj hread).1.symm
  cases got with
  | elems bs =>
    obtain ⟨hne, hlen, hsplit, hclosed⟩ := read_elems hread
    exact Or.inl ⟨bs, source, hne, hlen, hsplit, hclosed, rfl⟩
  | eof =>
    obtain rfl := hkeep (by simp)
    obtain ⟨hunread, hclosed⟩ := read_eof hpos (by rw [hread])
    refine Or.inr ⟨_, _, rfl, ?_⟩
    exact {
      state := Or.inr (by simp [Conn.took])
      resting := fun h => by simp [Conn.remove] at h
      dropped := fun _ _ => Or.inr ⟨hunread, hclosed⟩
      idle := fun _ => ⟨hunread, fun _ => rfl⟩ }
  | again =>
    obtain rfl := hkeep (by simp)
    have hwhy := read_again (by rw [hread])
    refine Or.inr ⟨_, _, rfl, ?_⟩
    exact {
      state := Or.inl (by simp [Conn.took])
      resting := fun _ => hwhy.elim (fun ho => Or.inl (ho ▸ headD_mem (by rw [ho]; decide)))
        fun hnil => Or.inr (Or.inr hnil)
      dropped := fun h h' => absurd (h'.symm.trans h) (by simp)
      idle := fun ho => ⟨(hidle (by simp) ho).1, fun hclosed =>
        absurd ((hidle (by simp) ho).2 hclosed) (by simp)⟩ }
  | intr =>
    obtain rfl := hkeep (by simp)
    have ho := read_intr (by rw [hread])
    refine Or.inr ⟨_, _, rfl, ?_⟩
    exact {
      state := Or.inl (by simp [Conn.took])
      resting := fun _ => Or.inr (Or.inl (ho ▸ headD_mem (by rw [ho]; decide)))
      dropped := fun h h' => absurd (h'.symm.trans h) (by simp)
      idle := fun ho' => absurd (ho ▸ ho') (by decide) }
  | error =>
    obtain rfl := hkeep (by simp)
    have ho := read_error (by rw [hread])
    refine Or.inr ⟨_, _, rfl, ?_⟩
    exact {
      state := Or.inr (by simp [Conn.took])
      resting := fun h => by simp [Conn.remove] at h
      dropped := fun _ _ => Or.inl (ho ▸ headD_mem (by rw [ho]; decide))
      idle := fun ho' => absurd (ho ▸ ho') (by decide) }

@[simp] theorem took_client (q : Request) (bs : List UInt8) (source : Source UInt8) :
    (c.took q bs source).client = c.client := rfl

@[simp] theorem receiver_took (q : Request) (bs : List UInt8) (source : Source UInt8) :
    (c.took q bs source).receiver mem = (c.receiver mem).feedAll mem bs :=
  feedAll_append _ _

@[simp] theorem receiver_assign (client : Client) :
    (c.assign client).receiver mem = c.receiver mem := rfl

theorem onward_assign {client : Client} (h : (c.assign client).Onward c') : c.Onward c' :=
  ⟨h.split, h.closed, h.outcomes⟩

theorem sound_took {q : Request} (bs : List UInt8) (source : Source UInt8) (h : c.Sound)
    (hq : q.Sound) : (c.took q bs source).Sound where
  requests := by
    intro q' hq'
    rcases List.mem_append.mp hq' with hold | hnew
    · exact h.requests q' hold
    · exact List.mem_singleton.mp hnew ▸ hq
  records := h.records

theorem sound_assign {client : Client} (h : c.Sound) (hclient : client.Sound) :
    (c.assign client).Sound where
  requests := h.requests
  records := by
    intro client' hclient'
    rcases List.mem_append.mp hclient' with hold | hnew
    · exact h.records client' hold
    · exact List.mem_singleton.mp hnew ▸ hclient

theorem inv_remove (h : c.Inv mem) : c.remove.Inv mem where
  dispatched := h.dispatched
  overflow := h.overflow
  refused _ := rfl
  held h := by cases h
  client h := by cases h
  sound hfit := ⟨(h.sound hfit).requests, (h.sound hfit).records⟩

theorem inv_took_nil {q : Request} (h : c.Inv mem)
    (hq : HeadersFit mem (c.receiver mem).announced → q.Sound) :
    (c.took q [] c.source).Inv mem := by
  have hsame : (c.took q [] c.source).receiver mem = c.receiver mem := by simp
  refine ⟨?_, ?_, ?_, ?_, ?_, ?_⟩ <;> rw [hsame]
  · exact h.dispatched
  · exact h.overflow
  · exact h.refused
  · exact h.held
  · exact h.client
  · exact fun hfit => sound_took _ _ (h.sound hfit) (hq hfit)

theorem onward_took {q : Request} {bs : List UInt8} {source : Source UInt8}
    (hsplit : c.source.unread = bs ++ source.unread) (hclosed : source.closed = c.source.closed) :
    c.Onward (c.took q bs source) :=
  ⟨⟨bs, rfl, hsplit⟩, hclosed, fun _ ho => List.mem_of_mem_tail ho⟩

/-- After a read that returned bytes. -/
theorem moves_took {q : Request} {bs : List UInt8} {source : Source UInt8} (hbs : bs ≠ [])
    (hsplit : c.source.unread = bs ++ source.unread) (h : (c.took q bs source).Onward c') :
    c.Moves c' := by
  intro _
  obtain ⟨bs', hrecv, -⟩ := h.split
  have hrecv : c'.received = c.received ++ bs ++ bs' := hrecv
  refine ⟨fun _ hsame => ?_, fun hnil => ?_⟩
  · rw [hrecv, List.append_assoc] at hsame
    exact hbs (List.append_eq_nil_iff.mp (List.append_right_eq_self.mp hsame)).1
  · rw [hnil] at hsplit
    exact absurd (List.append_eq_nil_iff.mp hsplit.symm).1 hbs

/-- A read that returned no bytes leaves the server where it is. -/
theorem inv_failed {q : Request} (hinv : c.Inv mem) (hconn : c.connected = true)
    (hphase : ¬ (c.receiver mem).Absorbed)
    (hq : HeadersFit mem (c.receiver mem).announced → q.Sound) (h : c.Failed q c') :
    c'.Inv mem ∧ c.Onward c' ∧ c.Moves c' ∧ c'.Stopped mem c.outcomes := by
  have htook := inv_took_nil hinv hq
  have honward : c.Onward (c.took q [] c.source) := onward_took rfl rfl
  have hsame : c'.received = c.received ∧ c'.source = c.source := by
    rcases h.state with heq | heq
    · rw [heq]
      exact ⟨List.append_nil _, rfl⟩
    · rw [heq]
      exact ⟨List.append_nil _, rfl⟩
  have hreceiver : c'.receiver mem = c.receiver mem := by simp [Conn.receiver, hsame.1]
  refine ⟨?_, ?_, fun ho => ⟨fun hne => absurd (h.idle ho).1 hne, fun _ => (h.idle ho).2⟩, ?_, ?_⟩
  · rcases h.state with heq | heq
    · rw [heq]
      exact htook
    · rw [heq]
      exact inv_remove htook
  · rcases h.state with heq | heq
    · rw [heq]
      exact honward
    · rw [heq]
      exact ⟨honward.split, honward.closed, honward.outcomes⟩
  · intro hconn' _
    rw [hsame.2]
    exact h.resting hconn'
  · intro hdis
    rw [hsame.2, hreceiver]
    rcases h.dropped hdis hconn with herr | ⟨hunread, hclosed⟩
    · exact Or.inl herr
    · exact Or.inr (Or.inr ⟨hunread, hclosed, hphase⟩)

/-- A read, and an assignment that follows the receiver. -/
theorem inv_assign {q : Request} {bs : List UInt8} {source : Source UInt8} {client : Client}
    {r : Receiver} (hinv : c.Inv mem) (hover : c.overflow = false)
    (hr : (c.receiver mem).feedAll mem bs = r) (hacc : r.accepted = (c.receiver mem).accepted)
    (hann : ∃ lens, r.announced = (c.receiver mem).announced ++ lens)
    (hheld : client.data.map Alloc.size = r.held) (hat : client.At r.phase)
    (hq : HeadersFit mem r.announced → q.Sound)
    (hclient : HeadersFit mem r.announced → client.Sound) :
    ((c.took q bs source).assign client).Inv mem := by
  have hnew : ((c.took q bs source).assign client).receiver mem = r :=
    (receiver_took q bs source).trans hr
  obtain ⟨lens, hlens⟩ := hann
  refine ⟨?_, ?_, ?_, ?_, ?_, ?_⟩
  · rw [hnew, hacc]
    exact hinv.dispatched
  · rw [hnew]
    refine iff_of_false (by simp [Conn.assign, Conn.took, hover]) fun hphase => ?_
    rw [hphase] at hat
    exact hat
  · rw [hnew]
    intro hphase
    rw [hphase] at hat
    exact hat.elim
  · intro _
    rw [hnew]
    exact hheld
  · intro _ _
    rw [hnew]
    exact hat
  · rw [hnew]
    intro hfit
    exact sound_assign (sound_took _ _ (hinv.sound (headersFit_of_append (hlens ▸ hfit))) (hq hfit))
      (hclient hfit)

/-! ## `recv_head` -/

/-- What `recv_head` leaves behind. -/
inductive HeadResult (mem : Nat → Bool) (os : List Outcome) (c : Conn) : Rc × Conn → Prop where
  | stopped {errno : Errno} {c' : Conn} (inv : c'.Inv mem) (stopped : c'.Stopped mem os) :
      HeadResult mem os c (.failed errno, c')
  | opened {c' : Conn} {total : Nat} (inv : c'.Inv mem) (connected : c'.connected = true)
      (overflow : c'.overflow = false) (phase : (c'.receiver mem).phase = .body total [])
      (dispatched : c'.dispatched = c.dispatched) : HeadResult mem os c (.ok, c')
  /-- the length is negative as an `int` -/
  | negative {c' : Conn} (connected : c'.connected = true) (overflow : c'.overflow = false)
      (phase : (c'.receiver mem).phase = .refused)
      (fit : ¬ HeadersFit mem (c'.receiver mem).announced)
      (dispatched : c'.dispatched = (c'.receiver mem).accepted)
      (bodyReady : c'.client.bodyReady = false) (bodyRecvSize : c'.client.bodyRecvSize = 0)
      (bodyTotalSize : -(int32Size : Int) ≤ c'.client.bodyTotalSize ∧ c'.client.bodyTotalSize < 0) :
      HeadResult mem os c (.ok, c')

theorem bytesAt_memcpy {buffer : Nat → UInt8} {got : List UInt8} (bs : List UInt8)
    (h : bytesAt buffer 0 got.length = got) :
    bytesAt (memcpy buffer got.length bs) 0 (got ++ bs).length = got ++ bs := by
  refine List.ext_getElem (length_bytesAt _ _ _) fun i hi hi' => ?_
  rw [getElem_bytesAt, Nat.zero_add]
  rcases Nat.lt_or_ge i got.length with hlt | hge
  · rw [memcpy_of_lt hlt, List.getElem_append_left hlt]
    have hold : i < (bytesAt buffer 0 got.length).length := by rwa [length_bytesAt]
    have := getElem_bytesAt buffer 0 got.length i hold
    rw [Nat.zero_add] at this
    rw [← this]
    simp only [h]
  · rw [List.length_append] at hi'
    rw [memcpy_of_mem hge (by omega), List.getElem_append_right hge]

/-- The assignment `headDone` makes, with the allocation there is or a new
one. -/
theorem headDone_ok {client : Client} {h : Nat}
    (hdata : client.data.map Alloc.size = some h ∨
      client.data = none ∧ mem client.announced = true ∧ h = client.announced) :
    ∃ data : Option Alloc, data.map Alloc.size = some h ∧
      headDone mem c client =
        (.ok, c.assign { client with
          headReady := true
          data
          bodyTotalSize := intOfUInt32 client.announced }) := by
  unfold headDone
  rcases hdata with hsome | ⟨hnone, hmem, rfl⟩
  · cases hd : client.data with
    | none => simp [hd] at hsome
    | some a =>
      rw [hd] at hsome
      exact ⟨some a, hsome, by simp [← hd]⟩
  · refine ⟨some { size := client.announced, bytes := fun _ => 0 }, rfl, ?_⟩
    simp [hnone, hmem]

theorem headDone_spec {got bs : List UInt8} {source : Source UInt8} {q : Request} {client : Client}
    {os : List Outcome} (hinv : c.Inv mem) (hconn : c.connected = true)
    (hover : c.overflow = false) (hphase : (c.receiver mem).phase = .head got)
    (hlen : (got ++ bs).length = packageHeadLen) (hq : q.Sound)
    (hdata : client.data = c.client.data)
    (hhead : client.announced = dataLen (got ++ bs)) (hready : client.bodyReady = false)
    (hrecv : client.bodyRecvSize = 0) :
    HeadResult mem os c (headDone mem (c.took q bs source) client) := by
  have hr : (c.receiver mem).feedAll mem bs = _ :=
    feedAll_header hphase ((receiver_valid mem c).head hphase) hlen
  have hheld := hinv.held hconn
  rw [← hdata] at hheld
  rw [← hhead] at hr
  rcases header_cases mem (c.receiver mem) client.announced with ⟨hnone, hmem, heq⟩ | ⟨h, hsome, heq⟩
  · rw [heq] at hr
    rw [hnone, Option.map_eq_none_iff] at hheld
    have hfail : headDone mem (c.took q bs source) client =
        (.failed .nomem, ({ c.took q bs source with client } : Conn).remove) := by
      simp [headDone, hheld, hmem]
    have hnew : ({ c.took q bs source with client } : Conn).remove.receiver mem = _ :=
      (receiver_took q bs source).trans hr
    rw [hfail]
    refine .stopped ⟨?_, ?_, ?_, ?_, ?_, ?_⟩ ⟨?_, ?_⟩
    · rw [hnew]
      exact hinv.dispatched
    · rw [hnew]
      exact iff_of_false (by simp [Conn.remove, Conn.took, hover]) (by simp)
    · exact fun _ => rfl
    · exact fun h => by cases h
    · exact fun h => by cases h
    · rw [hnew]
      intro hfit
      have hold := sound_took bs source
        (hinv.sound (headersFit_of_append hfit)) hq
      exact ⟨hold.requests, hold.records⟩
    · exact fun h => by cases h
    · rw [hnew]
      exact fun _ => Or.inr (Or.inl rfl)
  · rw [heq] at hr
    obtain ⟨data, hsize, hok⟩ := headDone_ok (c := c.took q bs source)
      (hsome.imp (fun h => hheld.trans h) fun h => ⟨by simpa [h.1] using hheld, h.2⟩)
    rw [hok]
    have hfirst : ((c.receiver mem).announced ++ [client.announced]).head? = some h ∧
        mem h = true := by
      have := (receiver_valid mem (c.took q bs source)).held (h := h)
      rw [receiver_took, hr] at this
      exact this rfl
    rcases Nat.lt_or_ge client.announced int32Size with hint | hint
    · rw [if_neg (Nat.not_le.mpr hint)] at hr
      refine .opened (inv_assign hinv hover hr rfl ⟨_, rfl⟩ hsize ?_ (fun _ => hq) ?_) hconn hover
        (by rw [show ((c.took q bs source).assign _).receiver mem = _ from
          (receiver_took q bs source).trans hr]) rfl
      · exact {
          headReady := rfl
          announced := rfl
          bodyReady := hready
          bodyTotalSize := intOfUInt32_of_lt hint
          bodyRecvSize := hrecv
          data := fun _ _ => rfl }
      · intro _ _
        exact ⟨by simp [hrecv, intOfUInt32_of_lt hint], intOfUInt32_of_lt hint⟩
    · rw [if_pos hint] at hr
      have hnew : ∀ client, ((c.took q bs source).assign client).receiver mem = _ :=
        fun _ => (receiver_took q bs source).trans hr
      refine .negative hconn hover (by rw [hnew]) ?_ ?_ hready hrecv ?_
      · rw [hnew]
        intro hfit
        have := hfit h hfirst.1 hfirst.2 client.announced (by simp)
        omega
      · rw [hnew]
        exact hinv.dispatched
      · have hlt := dataLen_lt (bytesAt client.head 0 packageHeadLen)
        simp only [Conn.assign, intOfUInt32, if_neg (Nat.not_lt.mpr hint)]
        simp only [Client.announced, int32Size, uint32Size] at hint hlt ⊢
        omega

theorem onward_headDone (client : Client) : c.Onward (headDone mem c client).2 := by
  have hsame : ∀ c' : Conn, c'.received = c.received → c'.source = c.source →
      c'.outcomes = c.outcomes → c.Onward c' := fun c' hr hs ho =>
    ⟨⟨[], by simp [hr], by simp [hs]⟩, by rw [hs], by simp [ho]⟩
  unfold headDone
  split
  · exact hsame _ rfl rfl rfl
  · dsimp only
    split
    · exact hsame _ rfl rfl rfl
    · exact hsame _ rfl rfl rfl

theorem HeadResult.mono {os os' : List Outcome} {r : Rc × Conn} (h : HeadResult mem os c' r)
    (hos : ∀ o ∈ os, o ∈ os') (hc : c'.dispatched = c.dispatched) : HeadResult mem os' c r := by
  cases h with
  | stopped inv stopped => exact .stopped inv (stopped.mono hos)
  | opened inv connected overflow phase dispatched =>
    exact .opened inv connected overflow phase (dispatched.trans hc)
  | negative connected overflow phase fit dispatched bodyReady bodyRecvSize bodyTotalSize =>
    exact .negative connected overflow phase fit dispatched bodyReady bodyRecvSize bodyTotalSize

theorem recvHeadLoop_spec (fuel : Nat) {got : List UInt8} (hinv : c.Inv mem)
    (hconn : c.connected = true) (hover : c.overflow = false)
    (hphase : (c.receiver mem).phase = .head got) (hfuel : packageHeadLen ≤ fuel + got.length) :
    HeadResult mem c.outcomes c (recvHeadLoop mem fuel c) ∧
      c.Onward (recvHeadLoop mem fuel c).2 ∧ c.Moves (recvHeadLoop mem fuel c).2 := by
  have hgot := (receiver_valid mem c).head hphase
  induction fuel generalizing c got with
  | zero => omega
  | succ fuel ih =>
    have hat := hinv.client hconn hover
    rw [hphase] at hat
    have hcount : packageHeadLen - c.client.headRecvSize = packageHeadLen - got.length := by
      rw [hat.headRecvSize]
    unfold recvHeadLoop
    simp only [hcount]
    generalize hn : packageHeadLen - got.length = n
    have hq : Request.Sound ⟨n, n⟩ := ⟨Int.natCast_nonneg _, Int.le_refl _⟩
    have hn8 : 0 < n ∧ n ≤ packageHeadLen := by omega
    rcases recv_cases c hn8.1 (Nat.lt_of_le_of_lt hn8.2 (by decide)) n with
      ⟨bs, source, hbs, hlen, hsplit, hclosed, hrecv⟩ | ⟨errno, c', hrecv, hfail⟩
    · rw [hrecv]
      have hpos := List.length_pos_iff.mpr hbs
      have honward : c.Onward (c.took ⟨n, n⟩ bs source) := onward_took hsplit hclosed
      have hhead : bytesAt (c.client.storeHead bs).head 0 (got ++ bs).length = got ++ bs := by
        simp only [Client.storeHead, hat.headRecvSize]
        exact bytesAt_memcpy bs hat.head
      have hsum : (c.client.storeHead bs).headRecvSize = (got ++ bs).length := by
        simp only [Client.storeHead, hat.headRecvSize, List.length_append]
      by_cases hfull : (c.client.storeHead bs).headRecvSize = packageHeadLen
      · have hres : HeadResult mem c.outcomes c
            (headDone mem (c.took ⟨n, n⟩ bs source) (c.client.storeHead bs)) := by
          refine headDone_spec hinv hconn hover hphase (hsum.symm.trans hfull) hq rfl ?_
            hat.bodyReady hat.bodyRecvSize
          rw [Client.announced, ← hfull, hsum, hhead]
        simp only [took_client, hfull, if_true]
        exact ⟨hres, honward.trans (onward_headDone _), moves_took hbs hsplit (onward_headDone _)⟩
      · have hlen8 : (got ++ bs).length < packageHeadLen := by
          rw [hsum] at hfull
          rw [List.length_append] at hfull ⊢
          omega
        have hr : (c.receiver mem).feedAll mem bs = _ := feedAll_head hphase hlen8
        have hinv' : ((c.took ⟨n, n⟩ bs source).assign (c.client.storeHead bs)).Inv mem :=
          inv_assign hinv hover hr rfl ⟨[], by simp⟩ (hinv.held hconn)
            { headReady := hat.headReady
              headRecvSize := hsum
              head := hhead
              bodyReady := hat.bodyReady
              bodyTotalSize := hat.bodyTotalSize
              bodyRecvSize := hat.bodyRecvSize }
            (fun _ => hq) (fun _ h => absurd (hat.headReady.symm.trans h) (by simp))
        obtain ⟨hres, hon, -⟩ := ih hinv' hconn hover
          (by rw [receiver_assign, receiver_took, hr])
          (by rw [List.length_append]; omega) hlen8
        simp only [took_client, hfull, if_false]
        exact ⟨hres.mono (fun _ ho => List.mem_of_mem_tail ho) rfl,
          honward.trans (onward_assign hon), moves_took hbs hsplit (onward_assign hon)⟩
    · rw [hrecv]
      obtain ⟨hinv', honward, hmoves, hstop⟩ := inv_failed hinv hconn
        (by simp [Receiver.Absorbed, hphase]) (fun _ => hq) hfail
      exact ⟨.stopped hinv' hstop, honward, hmoves⟩

/-! ## `recv_data` -/

inductive DataResult (mem : Nat → Bool) (os : List Outcome) (c : Conn) : Rc × Conn → Prop where
  | stopped {errno : Errno} {c' : Conn} (inv : c'.Inv mem) (stopped : c'.Stopped mem os) :
      DataResult mem os c (.failed errno, c')
  /-- the payload is there and not handed over yet -/
  | complete {c' : Conn} {p : List UInt8} (connected : c'.connected = true)
      (overflow : c'.overflow = false) (phase : (c'.receiver mem).phase = .head [])
      (dispatched : c'.dispatched = c.dispatched)
      (accepted : (c'.receiver mem).accepted = c'.dispatched ++ [p])
      (request : c'.client.request = p) (headReady : c'.client.headReady = true)
      (bodyReady : c'.client.bodyReady = true)
      (held : c'.client.data.map Alloc.size = (c'.receiver mem).held)
      (sound : HeadersFit mem (c'.receiver mem).announced → c'.Sound) :
      DataResult mem os c (.ok, c')

theorem DataResult.mono {os os' : List Outcome} {r : Rc × Conn} (h : DataResult mem os c' r)
    (hos : ∀ o ∈ os, o ∈ os') (hc : c'.dispatched = c.dispatched) : DataResult mem os' c r := by
  cases h with
  | stopped inv stopped => exact .stopped inv (stopped.mono hos)
  | complete connected overflow phase dispatched accepted request headReady bodyReady held sound =>
    exact .complete connected overflow phase (dispatched.trans hc) accepted request headReady
      bodyReady held sound

/-- A payload of which `got` is there, in an allocation of `h` bytes. -/
structure Conn.InBody (mem : Nat → Bool) (c : Conn) (total h : Nat) (got : List UInt8) : Prop where
  phase : (c.receiver mem).phase = .body total got
  held : (c.receiver mem).held = some h
  at_body : c.client.AtBody total got
  short : got.length < total
  got_le : got.length ≤ h
  total_lt : total < int32Size
  fit : HeadersFit mem (c.receiver mem).announced → total ≤ h
  alloc : ∃ a, c.client.data = some a ∧ a.size = h ∧ bytesAt a.bytes 0 got.length = got

theorem inBody_of_phase {total : Nat} {got : List UInt8} (hinv : c.Inv mem)
    (hconn : c.connected = true) (hover : c.overflow = false)
    (hphase : (c.receiver mem).phase = .body total got) (hpos : 0 < total) :
    ∃ h, c.InBody mem total h got := by
  have hvalid := receiver_valid mem c
  obtain ⟨h, hheld, hgot⟩ := hvalid.room hphase
  obtain ⟨hshort, hint, hmem⟩ := hvalid.body hphase
  have hat := hinv.client hconn hover
  rw [hphase] at hat
  have hsize := (hinv.held hconn).trans hheld
  obtain ⟨a, ha, hasize⟩ := Option.map_eq_some_iff.mp hsize
  refine ⟨h, hphase, hheld, hat, ?_, hgot, hint, ?_, a, ha, hasize, hat.data a ha⟩
  · rcases hshort with rfl | hlt
    · exact hpos
    · exact hlt
  · intro hfit
    obtain ⟨hfirst, hmemh⟩ := hvalid.held hheld
    exact (hfit h hfirst hmemh total hmem).2

namespace Conn.InBody

variable {total h : Nat} {got : List UInt8} (hb : c.InBody mem total h got)

include hb

theorem count : c.client.bodyTotalSize - c.client.bodyRecvSize = (total - got.length : Nat) := by
  have := hb.short
  rw [hb.at_body.bodyTotalSize, hb.at_body.bodyRecvSize]
  omega

theorem room : c.client.room = (h : Int) - got.length := by
  obtain ⟨a, ha, hsize, -⟩ := hb.alloc
  simp [Client.room, ha, hsize, hb.at_body.bodyRecvSize]

theorem request_sound (hfit : HeadersFit mem (c.receiver mem).announced) :
    Request.Sound ⟨(total - got.length : Nat), (h : Int) - got.length⟩ := by
  have := hb.fit hfit
  have := hb.short
  exact ⟨Int.natCast_nonneg _, by simp only; omega⟩

theorem store (bs : List UInt8) :
    ∃ a, (c.client.store bs).data = some a ∧ a.size = h ∧
      bytesAt a.bytes 0 (got ++ bs).length = got ++ bs := by
  obtain ⟨a, ha, hsize, hbytes⟩ := hb.alloc
  refine ⟨{ a with bytes := memcpy a.bytes c.client.bodyRecvSize bs }, ?_, hsize, ?_⟩
  · simp [Client.store, ha]
  · simp only [hb.at_body.bodyRecvSize]
    exact bytesAt_memcpy bs hbytes

theorem bodyRecvSize_store (bs : List UInt8) :
    (c.client.store bs).bodyRecvSize = (got ++ bs).length := by
  simp [Client.store, hb.at_body.bodyRecvSize]

/-- A read that would write behind the allocation. -/
theorem overrun {q : Request} {bs : List UInt8} (source : Source UInt8) (hinv : c.Inv mem)
    (hconn : c.connected = true) (hlen : (got ++ bs).length ≤ total)
    (hover : h < (got ++ bs).length) (os : List Outcome) :
    DataResult mem os c (.failed .other, { c.took q bs source with overflow := true }) := by
  have hr : (c.receiver mem).feedAll mem bs = _ :=
    feedAll_long hb.phase hb.held hb.got_le hover (Nat.lt_of_lt_of_le hover hlen)
  have hnew : ({ c.took q bs source with overflow := true } : Conn).receiver mem = _ :=
    (receiver_took q bs source).trans hr
  refine .stopped ⟨?_, ?_, ?_, ?_, ?_, ?_⟩ ⟨?_, ?_⟩
  · rw [hnew]
    exact hinv.dispatched
  · rw [hnew]
    exact iff_of_true rfl rfl
  · rw [hnew]
    exact fun h => by cases h
  · rw [hnew]
    exact hinv.held
  · exact fun _ h => by cases h
  · rw [hnew]
    intro hfit
    have := hb.fit hfit
    omega
  · exact fun _ h => by cases h
  · exact fun h => absurd (hconn.symm.trans h) (by simp)

/-- The last piece of a payload. -/
theorem complete {q : Request} {bs : List UInt8} (source : Source UInt8) (hinv : c.Inv mem)
    (hconn : c.connected = true) (hover : c.overflow = false) (hbs : bs ≠ [])
    (hlen : (got ++ bs).length = total) (hfit : (got ++ bs).length ≤ h)
    (hq : HeadersFit mem (c.receiver mem).announced → q.Sound) (os : List Outcome) :
    DataResult mem os c
      (.ok, (c.took q bs source).assign { c.client.store bs with bodyReady := true }) := by
  have hr : (c.receiver mem).feedAll mem bs = _ :=
    feedAll_last hb.phase hb.held hbs hlen (hlen ▸ hfit)
  obtain ⟨a, ha, hsize, hbytes⟩ := hb.store bs
  refine .complete (p := got ++ bs) hconn hover ?_ rfl ?_ ?_ hb.at_body.headReady rfl ?_ ?_
  · rw [receiver_assign, receiver_took, hr]
  · rw [receiver_assign, receiver_took, hr, ← hinv.dispatched]
    rfl
  · have htotal : (c.client.store bs).bodyTotalSize.toNat = (got ++ bs).length := by
      rw [hlen, show (c.client.store bs).bodyTotalSize = _ from hb.at_body.bodyTotalSize]
      rfl
    simp only [Conn.assign, Client.request, ha, htotal]
    exact hbytes
  · rw [receiver_assign, receiver_took, hr]
    simp only [Conn.assign, ha, Option.map_some, hsize]
    exact hb.held.symm
  · rw [receiver_assign, receiver_took, hr]
    intro hfit
    refine sound_assign (sound_took _ _ (hinv.sound hfit) (hq hfit)) fun _ => ⟨?_, ?_⟩
    · refine Int.le_of_eq ?_
      rw [show (c.client.store bs).bodyTotalSize = _ from hb.at_body.bodyTotalSize]
      rw [show (({ c.client.store bs with bodyReady := true } : Client).bodyRecvSize) = _ from
        hb.bodyRecvSize_store bs, hlen]
    · exact hb.at_body.bodyTotalSize.trans (congrArg _ hb.at_body.announced.symm)

/-- A piece that is not the last one. -/
theorem readOn {q : Request} {bs : List UInt8} (source : Source UInt8) (hinv : c.Inv mem)
    (hover : c.overflow = false) (hlen : (got ++ bs).length < total)
    (hfit : (got ++ bs).length ≤ h)
    (hq : HeadersFit mem (c.receiver mem).announced → q.Sound) :
    ((c.took q bs source).assign (c.client.store bs)).Inv mem ∧
      (((c.took q bs source).assign (c.client.store bs)).receiver mem).phase =
        .body total (got ++ bs) := by
  have hr : (c.receiver mem).feedAll mem bs = _ := feedAll_body hb.phase hb.held hlen hfit
  obtain ⟨a, ha, hsize, hbytes⟩ := hb.store bs
  refine ⟨inv_assign hinv hover hr rfl ⟨[], by simp⟩ ?_ ?_ hq ?_, ?_⟩
  · simp only [ha, Option.map_some, hsize]
    exact hb.held.symm
  · exact {
      headReady := hb.at_body.headReady
      announced := hb.at_body.announced
      bodyReady := hb.at_body.bodyReady
      bodyTotalSize := hb.at_body.bodyTotalSize
      bodyRecvSize := hb.bodyRecvSize_store bs
      data := fun a' ha' => by
        obtain rfl := Option.some.inj (ha.symm.trans ha')
        exact hbytes }
  · intro _ _
    refine ⟨?_, hb.at_body.bodyTotalSize.trans (congrArg _ hb.at_body.announced.symm)⟩
    rw [hb.bodyRecvSize_store, show (c.client.store bs).bodyTotalSize = _ from
      hb.at_body.bodyTotalSize]
    exact Int.ofNat_le.mpr (Nat.le_of_lt hlen)
  · rw [receiver_assign, receiver_took, hr]

end Conn.InBody

theorem recvDataLoop_of_ok {fuel : Nat} {bs : List UInt8}
    (h : c.recv (c.client.bodyTotalSize - c.client.bodyRecvSize) c.client.room = .ok (bs, c'))
    (hclient : c'.client = c.client) :
    recvDataLoop (fuel + 1) c =
      if c.client.room < bs.length then (.failed .other, { c' with overflow := true })
      else if ((c.client.store bs).bodyRecvSize : Int) = (c.client.store bs).bodyTotalSize then
        (.ok, c'.assign { c.client.store bs with bodyReady := true })
      else if (c.client.store bs).bodyRecvSize < (c.client.store bs).bodyTotalSize then
        recvDataLoop fuel (c'.assign (c.client.store bs))
      else (.failed .inval, (c'.assign (c.client.store bs)).remove) := by
  conv => lhs; unfold recvDataLoop
  rw [h, ← hclient]

theorem recvDataLoop_spec (fuel : Nat) {total : Nat} {got : List UInt8} (hinv : c.Inv mem)
    (hconn : c.connected = true) (hover : c.overflow = false)
    (hphase : (c.receiver mem).phase = .body total got) (hpos : 0 < total)
    (hfuel : total ≤ fuel + got.length) :
    DataResult mem c.outcomes c (recvDataLoop fuel c) ∧
      c.Onward (recvDataLoop fuel c).2 ∧ c.Moves (recvDataLoop fuel c).2 := by
  induction fuel generalizing c got with
  | zero =>
    obtain ⟨h, hb⟩ := inBody_of_phase hinv hconn hover hphase hpos
    have := hb.short
    omega
  | succ fuel ih =>
    obtain ⟨h, hb⟩ := inBody_of_phase hinv hconn hover hphase hpos
    have hshort := hb.short
    have hint := hb.total_lt
    have hq := hb.request_sound
    rcases recv_cases c (n := total - got.length) (by omega) (by omega)
        ((h : Int) - got.length) with
      ⟨bs, source, hbs, hlen, hsplit, hclosed, hrecv⟩ | ⟨errno, c', hrecv, hfail⟩
    · have hpos' := List.length_pos_iff.mpr hbs
      have hle : (got ++ bs).length ≤ total := by
        rw [List.length_append]
        omega
      generalize hqeq : Request.mk (total - got.length : Nat) ((h : Int) - got.length) = q
        at hq hrecv
      rw [← hb.count, ← hb.room] at hrecv
      rw [recvDataLoop_of_ok hrecv rfl, hb.room, hb.bodyRecvSize_store,
        show (c.client.store bs).bodyTotalSize = total from hb.at_body.bodyTotalSize]
      have honward : c.Onward (c.took q bs source) := onward_took hsplit hclosed
      have hsame : ∀ c' : Conn, c'.received = (c.took q bs source).received →
          c'.source = source → c'.outcomes = c.outcomes.tail → (c.took q bs source).Onward c' :=
        fun c' hr hs ho => ⟨⟨[], by simp [hr], by simp [hs, Conn.took]⟩, by simp [hs, Conn.took],
          by simp [ho, Conn.took]⟩
      by_cases hlong : (h : Int) - got.length < bs.length
      · rw [if_pos hlong]
        have hlong' : h < (got ++ bs).length := by
          rw [List.length_append]
          omega
        have hon := hsame { c.took q bs source with overflow := true } rfl rfl rfl
        exact ⟨hb.overrun source hinv hconn hle hlong' _, honward.trans hon,
          moves_took hbs hsplit hon⟩
      · rw [if_neg hlong]
        have hfit : (got ++ bs).length ≤ h := by
          rw [List.length_append]
          omega
        by_cases hfull : (got ++ bs).length = total
        · rw [if_pos (congrArg _ hfull)]
          have hon := hsame
            ((c.took q bs source).assign { c.client.store bs with bodyReady := true }) rfl rfl rfl
          exact ⟨hb.complete source hinv hconn hover hbs hfull hfit hq _, honward.trans hon,
            moves_took hbs hsplit hon⟩
        · have hpart : (got ++ bs).length < total := Nat.lt_of_le_of_ne hle hfull
          rw [if_neg (by omega), if_pos (Int.ofNat_lt.mpr hpart)]
          obtain ⟨hinv', hphase'⟩ := hb.readOn source hinv hover hpart hfit hq
          obtain ⟨hres, hon, -⟩ := ih hinv' hconn hover hphase'
            (by rw [List.length_append]; omega)
          exact ⟨hres.mono (fun _ ho => List.mem_of_mem_tail ho) rfl,
            honward.trans (onward_assign hon), moves_took hbs hsplit (onward_assign hon)⟩
    · obtain ⟨hinv', honward, hmoves, hstop⟩ := inv_failed hinv hconn
        (by simp only [Receiver.Absorbed, hphase]; omega) hq hfail
      unfold recvDataLoop
      rw [hb.count, hb.room, hrecv]
      exact ⟨.stopped hinv' hstop, honward, hmoves⟩

/-! ## `switch_cmd` and `epoll_recv` -/

theorem inv_switchCmd {p : List UInt8} (hover : c.overflow = false)
    (hphase : (c.receiver mem).phase = .head [])
    (hacc : (c.receiver mem).accepted = c.dispatched ++ [p]) (hreq : c.client.request = p)
    (hheld : c.client.data.map Alloc.size = (c.receiver mem).held)
    (hsound : HeadersFit mem (c.receiver mem).announced → c.Sound) : (switchCmd c).Inv mem := by
  have hsame : (switchCmd c).receiver mem = c.receiver mem := rfl
  refine ⟨?_, ?_, ?_, ?_, ?_, ?_⟩ <;> rw [hsame]
  · rw [hacc, ← hreq]
    rfl
  · refine iff_of_false ?_ (by rw [hphase]; simp)
    simp [switchCmd, Conn.respond, Conn.assign, hover]
  · rw [hphase]
    exact fun h => by cases h
  · exact fun _ => hheld
  · rw [hphase]
    exact fun _ _ =>
      { headReady := rfl
        headRecvSize := rfl
        head := rfl
        bodyReady := rfl
        bodyTotalSize := rfl
        bodyRecvSize := rfl }
  · intro hfit
    have hold := hsound hfit
    exact sound_assign (c := ({ c with dispatched := _ } : Conn).respond)
      ⟨hold.requests, hold.records⟩ fun h => absurd h (by simp [initClient])

/-- How a call of `epoll_recv` ends on an open connection. -/
inductive Conn.Ended (mem : Nat → Bool) (os : List Outcome) (c c' : Conn) : Prop where
  | stopped (stopped : c'.Stopped mem os)
  /-- behind the header of an empty payload -/
  | stuck (connected : c'.connected = true) (phase : (c'.receiver mem).phase = .body 0 [])
  | handedOver (p : List UInt8) (connected : c'.connected = true) (overflow : c'.overflow = false)
      (phase : (c'.receiver mem).phase = .head []) (dispatched : c'.dispatched = c.dispatched ++ [p])

theorem recvData_empty (h : c.client.bodyTotalSize = c.client.bodyRecvSize) :
    recvData c = (.ok, c) := if_pos h

theorem recvData_spec {total : Nat} {got : List UInt8} (hinv : c.Inv mem)
    (hconn : c.connected = true) (hover : c.overflow = false)
    (hphase : (c.receiver mem).phase = .body total got) (hpos : 0 < total) :
    DataResult mem c.outcomes c (recvData c) ∧
      c.Onward (recvData c).2 ∧ c.Moves (recvData c).2 := by
  obtain ⟨h, hb⟩ := inBody_of_phase hinv hconn hover hphase hpos
  have hshort := hb.short
  have hne : c.client.bodyTotalSize ≠ c.client.bodyRecvSize := by
    rw [hb.at_body.bodyTotalSize, hb.at_body.bodyRecvSize]
    omega
  unfold recvData
  rw [if_neg hne, hb.count]
  exact recvDataLoop_spec _ hinv hconn hover hphase hpos (by rw [Int.toNat_natCast]; omega)

/-- The read with a negative count. -/
theorem recvData_negative (hrecv : c.client.bodyRecvSize = 0)
    (htotal : -(int32Size : Int) ≤ c.client.bodyTotalSize ∧ c.client.bodyTotalSize < 0) :
    ∃ q, recvData c = (.failed .other, ({ c with requests := c.requests ++ [q] } : Conn).remove) := by
  have hne : c.client.bodyTotalSize ≠ c.client.bodyRecvSize := by omega
  have hsize : ssizeMax < sizeT (c.client.bodyTotalSize - c.client.bodyRecvSize) := by
    simp only [int32Size] at htotal
    simp only [sizeT, ssizeMax, hrecv]
    omega
  refine ⟨⟨c.client.bodyTotalSize - c.client.bodyRecvSize, c.client.room⟩, ?_⟩
  unfold recvData recvDataLoop Conn.recv
  simp only [if_neg hne, if_pos hsize]

theorem epollRecvBody_of_failed {errno : Errno} (hready : c.client.bodyReady = false)
    (h : recvData c = (.failed errno, c')) : epollRecvBody c = c' := by
  simp [epollRecvBody, hready, h]

theorem epollRecvBody_of_ok (hready : c.client.bodyReady = false) (h : recvData c = (.ok, c')) :
    epollRecvBody c =
      if c'.client.headReady && c'.client.bodyReady then switchCmd c' else c' := by
  simp [epollRecvBody, hready, h]

theorem Conn.Ended.mono {os os' : List Outcome} (h : c'.Ended mem os c'')
    (hos : ∀ o ∈ os, o ∈ os') (hc : c'.dispatched = c.dispatched) : c.Ended mem os' c'' := by
  cases h with
  | stopped h => exact .stopped (h.mono hos)
  | stuck h h' => exact .stuck h h'
  | handedOver p hhead hstop hstopped hdispatched =>
    exact .handedOver p hhead hstop hstopped (hdispatched.trans (by rw [hc]))

theorem epollRecvBody_spec {total : Nat} {got : List UInt8} (hinv : c.Inv mem)
    (hconn : c.connected = true) (hover : c.overflow = false)
    (hphase : (c.receiver mem).phase = .body total got) :
    (epollRecvBody c).Inv mem ∧ c.Onward (epollRecvBody c) ∧
      (0 < total → c.Moves (epollRecvBody c)) ∧ c.Ended mem c.outcomes (epollRecvBody c) := by
  have hat := hinv.client hconn hover
  rw [hphase] at hat
  rcases Nat.eq_zero_or_pos total with rfl | hpos
  · have hgot : got = [] := by
      have := ((receiver_valid mem c).body hphase).1
      simpa using this
    subst hgot
    have hempty : c.client.bodyTotalSize = c.client.bodyRecvSize := by
      rw [hat.bodyTotalSize, hat.bodyRecvSize]
      rfl
    rw [epollRecvBody_of_ok hat.bodyReady (recvData_empty hempty), hat.bodyReady, Bool.and_false,
      if_neg (by simp)]
    exact ⟨hinv, .refl c, fun h => absurd h (Nat.lt_irrefl 0), .stuck hconn hphase⟩
  · have hspec := recvData_spec hinv hconn hover hphase hpos
    generalize hdata : recvData c = r at hspec
    obtain ⟨hres, hon, hmoves⟩ := hspec
    cases hres with
    | stopped hinv' hstop =>
      rw [epollRecvBody_of_failed hat.bodyReady hdata]
      exact ⟨hinv', hon, fun _ => hmoves, .stopped hstop⟩
    | complete connected overflow phase dispatched accepted request headReady bodyReady held sound =>
      rw [epollRecvBody_of_ok hat.bodyReady hdata, headReady, bodyReady, Bool.and_self, if_pos rfl]
      refine ⟨inv_switchCmd overflow phase accepted request held sound,
        ⟨hon.split, hon.closed, hon.outcomes⟩, fun _ => hmoves, ?_⟩
      exact .handedOver _ connected overflow phase (by rw [← dispatched]; rfl)

/-- A length that no `int` holds closes the connection. -/
theorem epollRecvBody_negative (os : List Outcome) (hphase : (c.receiver mem).phase = .refused)
    (hover : c.overflow = false) (hfit : ¬ HeadersFit mem (c.receiver mem).announced)
    (hdis : c.dispatched = (c.receiver mem).accepted) (hready : c.client.bodyReady = false)
    (hrecv : c.client.bodyRecvSize = 0)
    (htotal : -(int32Size : Int) ≤ c.client.bodyTotalSize ∧ c.client.bodyTotalSize < 0) :
    (epollRecvBody c).Inv mem ∧ c.Onward (epollRecvBody c) ∧
      (epollRecvBody c).connected = false ∧ c.Ended mem os (epollRecvBody c) := by
  obtain ⟨q, hdata⟩ := recvData_negative hrecv htotal
  rw [epollRecvBody_of_failed hready hdata]
  have hsame : ({ c with requests := c.requests ++ [q] } : Conn).remove.receiver mem =
    c.receiver mem := rfl
  refine ⟨⟨?_, ?_, ?_, ?_, ?_, ?_⟩, ⟨⟨[], by simp [Conn.remove], rfl⟩, rfl, fun _ h => h⟩, rfl,
    .stopped ⟨fun h => absurd h (by simp [Conn.remove]), fun _ => Or.inr (Or.inl ?_)⟩⟩ <;>
    rw [hsame]
  · exact hdis
  · refine iff_of_false ?_ (by rw [hphase]; simp)
    simp [Conn.remove, hover]
  · exact fun _ => rfl
  · exact fun h => by cases h
  · exact fun h => by cases h
  · exact fun h => absurd h hfit
  · exact hphase

theorem epollRecv_closed {os : List Outcome} (h : c.overflow = true ∨ c.connected = false) :
    epollRecv mem os c = c := by
  unfold epollRecv
  rcases h with h | h
  · simp [h]
  · simp [h]

theorem epollRecv_of_body {os : List Outcome} (hconn : c.connected = true)
    (hover : c.overflow = false) (hready : c.client.headReady = true) :
    epollRecv mem os c = epollRecvBody (c.event os) := by
  simp [epollRecv, Conn.event, hconn, hover, hready]

theorem epollRecv_of_ok {os : List Outcome} (hconn : c.connected = true)
    (hover : c.overflow = false) (hready : c.client.headReady = false)
    (h : recvHead mem (c.event os) = (.ok, c')) : epollRecv mem os c = epollRecvBody c' := by
  rw [Conn.event] at h
  simp [epollRecv, Conn.event, hconn, hover, hready] at h ⊢
  simp [h]

theorem epollRecv_of_failed {os : List Outcome} {errno : Errno} (hconn : c.connected = true)
    (hover : c.overflow = false) (hready : c.client.headReady = false)
    (h : recvHead mem (c.event os) = (.failed errno, c')) : epollRecv mem os c = c' := by
  simp [epollRecv, Conn.event, hconn, hover, hready] at h ⊢
  simp [h]

theorem inv_event (os : List Outcome) (h : c.Inv mem) : (c.event os).Inv mem :=
  ⟨h.dispatched, h.overflow, h.refused, h.held, h.client,
    fun hfit => ⟨(h.sound hfit).requests, (h.sound hfit).records⟩⟩

theorem recvHead_spec {got : List UInt8} (hinv : c.Inv mem) (hconn : c.connected = true)
    (hover : c.overflow = false) (hphase : (c.receiver mem).phase = .head got) :
    HeadResult mem c.outcomes c (recvHead mem c) ∧
      c.Onward (recvHead mem c).2 ∧ c.Moves (recvHead mem c).2 := by
  have hgot := (receiver_valid mem c).head hphase
  have hat := hinv.client hconn hover
  rw [hphase] at hat
  unfold recvHead
  rw [if_neg (by rw [hat.headRecvSize]; omega)]
  exact recvHeadLoop_spec _ hinv hconn hover hphase (by omega)

theorem Conn.Moves.onward (h : c.Moves c') (h' : c'.Onward c'')
    (hconn : c'.connected = false → c''.connected = false) (hon : c.Onward c') : c.Moves c'' := by
  intro ho
  obtain ⟨hmore, hend⟩ := h ho
  refine ⟨fun hne hsame => hmore hne ?_, fun hnil hclosed => hconn (hend hnil hclosed)⟩
  obtain ⟨bs, hrecv, -⟩ := hon.split
  obtain ⟨bs', hrecv', -⟩ := h'.split
  rw [hrecv', hrecv, List.append_assoc] at hsame
  rw [hrecv, (List.append_eq_nil_iff.mp (List.append_right_eq_self.mp hsame)).1, List.append_nil]

theorem epollRecv_spec (os : List Outcome) (hinv : c.Inv mem) (hconn : c.connected = true)
    (hover : c.overflow = false) :
    (epollRecv mem os c).Inv mem ∧ (c.event os).Onward (epollRecv mem os c) ∧
      ((∀ got, (c.receiver mem).phase ≠ .body 0 got) →
        (c.event os).Moves (epollRecv mem os c)) ∧
      c.Ended mem os (epollRecv mem os c) := by
  have hinv' := inv_event os hinv
  have hat := hinv.client hconn hover
  cases hphase : (c.receiver mem).phase with
  | refused =>
    rw [hphase] at hat
    exact hat.elim
  | overrun =>
    rw [hphase] at hat
    exact hat.elim
  | body total got =>
    rw [hphase] at hat
    rw [epollRecv_of_body hconn hover hat.headReady]
    obtain ⟨hi, hon, hmoves, hend⟩ := epollRecvBody_spec (c := c.event os) hinv' hconn hover hphase
    exact ⟨hi, hon, fun hne => hmoves (Nat.pos_of_ne_zero fun h0 => hne got (h0 ▸ rfl)),
      hend.mono (fun _ ho => ho) rfl⟩
  | head got =>
    rw [hphase] at hat
    have hspec := recvHead_spec (c := c.event os) hinv' hconn hover hphase
    generalize hhead : recvHead mem (c.event os) = r at hspec
    obtain ⟨hres, hon, hmoves⟩ := hspec
    cases hres with
    | stopped hi hstop =>
      rw [epollRecv_of_failed hconn hover hat.headReady hhead]
      exact ⟨hi, hon, fun _ => hmoves, .stopped hstop⟩
    | opened hi hconn' hover' hphase' hdis =>
      rw [epollRecv_of_ok hconn hover hat.headReady hhead]
      obtain ⟨hi', hon', -, hend⟩ := epollRecvBody_spec hi hconn' hover' hphase'
      exact ⟨hi', hon.trans hon', fun _ => hmoves.onward hon' (fun h =>
        absurd (hconn'.symm.trans h) (by simp)) hon, hend.mono hon.outcomes hdis⟩
    | negative hconn' hover' hphase' hfit hdis hready hrecv htotal =>
      rw [epollRecv_of_ok hconn hover hat.headReady hhead]
      obtain ⟨hi', hon', hclosed, hend⟩ := epollRecvBody_negative os hphase' hover' hfit hdis hready
        hrecv htotal
      refine ⟨hi', hon.trans hon', fun _ => hmoves.onward hon' (fun _ => hclosed) hon, ?_⟩
      cases hend with
      | stopped h => exact .stopped h
      | stuck h h' => exact .stuck h h'
      | handedOver p h h' h'' h''' => exact absurd (hclosed.symm.trans h) (by simp)

theorem inv_epollRecv (os : List Outcome) (hinv : c.Inv mem) : (epollRecv mem os c).Inv mem := by
  by_cases hclosed : c.overflow = true ∨ c.connected = false
  · rw [epollRecv_closed hclosed]
    exact hinv
  · have hopen : c.connected = true ∧ c.overflow = false := by simpa [and_comm] using hclosed
    exact (epollRecv_spec os hinv hopen.1 hopen.2).1

/-- A call takes bytes off the front of the source, and changes nothing
else there. -/
theorem epollRecv_split (os : List Outcome) (hinv : c.Inv mem) :
    (∃ bs, (epollRecv mem os c).received = c.received ++ bs ∧
      c.source.unread = bs ++ (epollRecv mem os c).source.unread) ∧
    (epollRecv mem os c).source.closed = c.source.closed := by
  by_cases hclosed : c.overflow = true ∨ c.connected = false
  · rw [epollRecv_closed hclosed]
    exact ⟨⟨[], by simp, rfl⟩, rfl⟩
  · have hopen : c.connected = true ∧ c.overflow = false := by simpa [and_comm] using hclosed
    obtain ⟨-, hon, -, -⟩ := epollRecv_spec os hinv hopen.1 hopen.2
    exact ⟨hon.split, hon.closed⟩

end Training.Rpc
