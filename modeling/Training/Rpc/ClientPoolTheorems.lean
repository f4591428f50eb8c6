/-
Training.Rpc.ClientPoolTheorems — the table is a finite map that owns its
buffers.

* `receive_keeps` — receiving leaves the descriptor, and changes `data` only
  from `NULL` to what `calloc` gave out; `receive_agree` — it does not
  depend on what `head` has behind the bytes received.
* `Holds` — the first slots are the records of the map, the others have no
  positive descriptor and no buffer, and the buffers of the records are what
  is allocated. `Holds.add`, `Holds.vacate` and `Holds.received` keep it.
* `table_refines` — the runs of the table.
-/
import Training.Rpc.ClientPool
import Training.Udp.RingBufferTheorems

namespace Training.Rpc.Table

open Training.Lib
open Training.Udp (memcpy bytesAt memcpy_of_lt)

variable {s : State} {m : Reference} {client client' : Client} {r r' : Recv} {n i p : Nat}
  {fd : Int} {addr : SockaddrIn}

/-! ## Receiving -/

structure Recv.Leaves (client : Client) (r : Recv) : Prop where
  fd : r.client.fd = client.fd
  data : r.client.data = client.data
  took : r.took = []

structure Recv.Keeps (p : Nat) (client : Client) (r : Recv) : Prop where
  fd : r.client.fd = client.fd
  data : r.took = [] ∧ r.client.data = client.data ∨
    client.data = 0 ∧ p ≠ 0 ∧ r.took = [p] ∧ r.client.data = p

theorem Recv.Leaves.keeps (h : Recv.Leaves client r) : Recv.Keeps p client r :=
  ⟨h.fd, .inl ⟨h.took, h.data⟩⟩

theorem Recv.Keeps.andThen (h : Recv.Keeps p client r) {next : Client → List ReadResult → Recv}
    (hnext : ∀ client reads, Recv.Leaves client (next client reads)) :
    Recv.Keeps p client (r.andThen next) := by
  unfold Recv.andThen
  split
  · have hlast := hnext r.client r.reads
    refine ⟨hlast.fd.trans h.fd, ?_⟩
    simp only [hlast.took, hlast.data, List.append_nil]
    exact h.data
  · exact h

theorem headDone_keeps (reads : List ReadResult) :
    Recv.Keeps p client (headDone p client reads) := by
  unfold headDone
  dsimp only
  split
  case isTrue hnull =>
    split
    · exact ⟨rfl, .inl ⟨rfl, rfl⟩⟩
    case isFalse hp => exact ⟨rfl, .inr ⟨hnull, hp, rfl, rfl⟩⟩
  case isFalse => exact ⟨rfl, .inl ⟨rfl, rfl⟩⟩

theorem recvHeadLoop_keeps (reads : List ReadResult) :
    Recv.Keeps p client (recvHeadLoop p client reads) := by
  induction reads generalizing client with
  | nil => exact ⟨rfl, .inl ⟨rfl, rfl⟩⟩
  | cons read reads ih =>
    cases read with
    | again => exact ⟨rfl, .inl ⟨rfl, rfl⟩⟩
    | failed => exact ⟨rfl, .inl ⟨rfl, rfl⟩⟩
    | got bytes =>
      unfold recvHeadLoop
      dsimp only
      split
      · exact ⟨rfl, .inl ⟨rfl, rfl⟩⟩
      · split
        · have hdone := @headDone_keeps
            (client.storeHead (bytes.take (packageHeadLen - client.headRecvSize))) p reads
          exact ⟨hdone.fd, hdone.data⟩
        · have hloop := @ih (client.storeHead (bytes.take (packageHeadLen - client.headRecvSize)))
          exact ⟨hloop.fd, hloop.data⟩

theorem recvDataLoop_leaves (reads : List ReadResult) :
    Recv.Leaves client (recvDataLoop client reads) := by
  induction reads generalizing client with
  | nil => exact ⟨rfl, rfl, rfl⟩
  | cons read reads ih =>
    cases read with
    | again => exact ⟨rfl, rfl, rfl⟩
    | failed => exact ⟨rfl, rfl, rfl⟩
    | got bytes =>
      unfold recvDataLoop
      dsimp only
      split
      · exact ⟨rfl, rfl, rfl⟩
      · split
        · exact ⟨rfl, rfl, rfl⟩
        · split
          · obtain ⟨hfd, hdata, htook⟩ := @ih { client with
              bodyRecvSize := client.bodyRecvSize +
                (bytes.take (client.bodyTotalSize - client.bodyRecvSize).toNat).length }
            exact ⟨hfd, hdata, htook⟩
          · exact ⟨rfl, rfl, rfl⟩

theorem recvData_leaves (reads : List ReadResult) :
    Recv.Leaves client (recvData client reads) := by
  unfold recvData
  split
  · exact ⟨rfl, rfl, rfl⟩
  · exact recvDataLoop_leaves reads

theorem dispatch_leaves (client : Client) (reads : List ReadResult) :
    Recv.Leaves client (dispatch client reads) := by
  unfold dispatch
  split <;> exact ⟨rfl, rfl, rfl⟩

theorem receive_keeps (p : Nat) (client : Client) (reads : List ReadResult) :
    Recv.Keeps p client (receive p client reads) := by
  unfold receive
  refine Recv.Keeps.andThen (Recv.Keeps.andThen ?_ fun client reads => ?_) dispatch_leaves
  · split
    · exact ⟨rfl, .inl ⟨rfl, rfl⟩⟩
    · unfold recvHead
      split
      · exact ⟨rfl, .inl ⟨rfl, rfl⟩⟩
      · exact recvHeadLoop_keeps reads
  · split
    · exact ⟨rfl, rfl, rfl⟩
    · exact recvData_leaves reads

/-! ## What was received of a header -/

/-- The same record, but for what `head` has behind the bytes received. -/
def Client.Agree (client client' : Client) : Prop :=
  ∃ head, client' = { client with head } ∧ ∀ k, k < client.headRecvSize → client.head k = head k

theorem Client.agree_iff : client.Agree client' ↔ client.known = client'.known := by
  constructor
  · rintro ⟨head, rfl, hhead⟩
    simp only [Client.known, Client.mk.injEq, true_and, and_true]
    funext k
    split
    case isTrue hk => exact hhead k hk
    case isFalse => rfl
  · intro h
    cases client
    cases client'
    simp only [Client.known, Client.mk.injEq] at h
    obtain ⟨rfl, rfl, rfl, rfl, rfl, rfl, rfl, hhead, rfl⟩ := h
    refine ⟨_, rfl, fun k hk => ?_⟩
    have hat := congrFun hhead k
    simpa only [hk, if_true] using hat

structure Recv.Agree (r r' : Recv) : Prop where
  client : r.client.Agree r'.client
  status : r'.status = r.status
  reads : r'.reads = r.reads
  took : r'.took = r.took

theorem Client.Agree.storeHead (h : client.Agree client') (bytes : List UInt8) :
    (client.storeHead bytes).Agree (client'.storeHead bytes) := by
  obtain ⟨head, rfl, hhead⟩ := h
  refine ⟨_, rfl, fun k hk => ?_⟩
  simp only [Client.storeHead] at hk ⊢
  by_cases hlt : k < client.headRecvSize
  · rw [memcpy_of_lt hlt, memcpy_of_lt hlt, hhead k hlt]
  · have hbyte : bytes[k - client.headRecvSize]? ≠ none := by
      rw [Ne, List.getElem?_eq_none_iff]
      omega
    obtain ⟨b, hb⟩ := Option.ne_none_iff_exists'.mp hbyte
    simp [memcpy, Nat.not_lt.mp hlt, List.getD, hb]

theorem Client.Agree.headDone (h : client.Agree client')
    (hsize : client.headRecvSize = packageHeadLen) (reads : List ReadResult) :
    (headDone p client reads).Agree (headDone p client' reads) := by
  obtain ⟨head, rfl, hhead⟩ := h
  have hbytes : bytesAt head 0 packageHeadLen = bytesAt client.head 0 packageHeadLen := by
    refine List.map_congr_left fun k hk => ?_
    rw [hhead (0 + k) (by rw [hsize, Nat.zero_add]; exact List.mem_range.mp hk)]
  unfold Table.headDone
  dsimp only
  rw [hbytes]
  split
  · split <;> exact ⟨⟨head, rfl, hhead⟩, rfl, rfl, rfl⟩
  · exact ⟨⟨head, rfl, hhead⟩, rfl, rfl, rfl⟩

theorem Client.Agree.headRecvSize (h : client.Agree client') :
    client'.headRecvSize = client.headRecvSize := by
  obtain ⟨head, rfl, -⟩ := h
  rfl

theorem Client.Agree.recvHeadLoop (h : client.Agree client') (reads : List ReadResult) :
    (recvHeadLoop p client reads).Agree (recvHeadLoop p client' reads) := by
  induction reads generalizing client client' with
  | nil => exact ⟨h, rfl, rfl, rfl⟩
  | cons read reads ih =>
    cases read with
    | again => exact ⟨h, rfl, rfl, rfl⟩
    | failed => exact ⟨h, rfl, rfl, rfl⟩
    | got bytes =>
      have hstore := h.storeHead (bytes.take (packageHeadLen - client.headRecvSize))
      unfold Table.recvHeadLoop
      dsimp only
      rw [h.headRecvSize, hstore.headRecvSize]
      split
      · exact ⟨h, rfl, rfl, rfl⟩
      · split
        case isTrue hsize => exact hstore.headDone hsize reads
        case isFalse => exact ih hstore

theorem Client.Agree.recvDataLoop (h : client.Agree client') (reads : List ReadResult) :
    (recvDataLoop client reads).Agree (recvDataLoop client' reads) := by
  obtain ⟨head, rfl, hhead⟩ := h
  induction reads generalizing client with
  | nil => exact ⟨⟨head, rfl, hhead⟩, rfl, rfl, rfl⟩
  | cons read reads ih =>
    cases read with
    | again => exact ⟨⟨head, rfl, hhead⟩, rfl, rfl, rfl⟩
    | failed => exact ⟨⟨head, rfl, hhead⟩, rfl, rfl, rfl⟩
    | got bytes =>
      unfold Table.recvDataLoop
      dsimp only
      split
      · exact ⟨⟨head, rfl, hhead⟩, rfl, rfl, rfl⟩
      · split
        · exact ⟨⟨head, rfl, hhead⟩, rfl, rfl, rfl⟩
        · split
          · exact @ih { client with bodyRecvSize := _ } hhead
          · exact ⟨⟨head, rfl, hhead⟩, rfl, rfl, rfl⟩

theorem Recv.Agree.andThen (h : r.Agree r') {next : Client → List ReadResult → Recv}
    (hnext : ∀ client client' reads, client.Agree client' →
      (next client reads).Agree (next client' reads)) :
    (r.andThen next).Agree (r'.andThen next) := by
  unfold Recv.andThen
  rw [h.status, h.reads, h.took]
  split
  · obtain ⟨hclient, hstatus, hreads, htook⟩ := hnext _ _ r.reads h.client
    exact ⟨hclient, hstatus, hreads, by simp only [htook]⟩
  · exact h

theorem Client.Agree.dispatch (h : client.Agree client') (reads : List ReadResult) :
    (dispatch client reads).Agree (dispatch client' reads) := by
  obtain ⟨head, rfl, hhead⟩ := h
  unfold Table.dispatch
  dsimp only
  split
  · exact ⟨⟨head, rfl, fun k hk => absurd hk (Nat.not_lt_zero k)⟩, rfl, rfl, rfl⟩
  · exact ⟨⟨head, rfl, hhead⟩, rfl, rfl, rfl⟩

theorem receive_agree (h : client.Agree client') (p : Nat) (reads : List ReadResult) :
    (receive p client reads).Agree (receive p client' reads) := by
  unfold receive
  refine Recv.Agree.andThen (Recv.Agree.andThen ?_ fun client client' reads h => ?_)
    fun client client' reads h => h.dispatch reads
  · have hready : client'.headReady = client.headReady := by
      obtain ⟨head, rfl, -⟩ := h
      rfl
    rw [hready]
    split
    · exact ⟨h, rfl, rfl, rfl⟩
    · unfold recvHead
      rw [h.headRecvSize]
      split
      · exact ⟨h, rfl, rfl, rfl⟩
      · exact h.recvHeadLoop reads
  · have hbody : client'.bodyReady = client.bodyReady ∧
        client'.bodyTotalSize = client.bodyTotalSize ∧
        client'.bodyRecvSize = client.bodyRecvSize := by
      obtain ⟨head, rfl, -⟩ := h
      exact ⟨rfl, rfl, rfl⟩
    unfold recvData
    rw [hbody.1, hbody.2.1, hbody.2.2]
    split
    · exact ⟨h, rfl, rfl, rfl⟩
    · split
      · exact ⟨h, rfl, rfl, rfl⟩
      · exact h.recvDataLoop reads

/-! ## The table -/

/-- The addresses among the data pointers of records. -/
def buffers (clients : List Client) : List Nat := (clients.map Client.data).filter (· ≠ 0)

theorem buffers_perm {l l' : List Client} (h : l.Perm l') : (buffers l).Perm (buffers l') :=
  (h.map _).filter _

theorem buffers_cons_null (h : client.data = 0) (l : List Client) :
    buffers (client :: l) = buffers l := by
  simp [buffers, h]

theorem buffers_cons (h : client.data ≠ 0) (l : List Client) :
    buffers (client :: l) = client.data :: buffers l := by
  simp [buffers, h]

structure Holds (s : State) (m : Reference) (n : Nat) : Prop where
  count : s.count = n
  room : n ≤ maxEvents
  positive : ∀ i : Nat, i < n → 0 < (s.clients i).fd
  found : ∀ i : Nat, i < n →
    (m.clients.lookup (s.clients i).fd).map Client.known = some (s.clients i).known
  absent : ∀ fd, (∀ i : Nat, i < n → (s.clients i).fd ≠ fd) → m.clients.lookup fd = none
  nodup : ((Slots.live s.clients n).map Client.fd).Nodup
  vacated : ∀ i : Nat, n ≤ i → (s.clients i).fd ≤ 0 ∧ (s.clients i).data = 0
  heap : (buffers (Slots.live s.clients n)).Perm s.heap
  once : s.heap.Nodup
  freed : s.freed = m.freed
  sound : s.faulted = false

theorem holds_init : Holds {} {} 0 where
  count := rfl
  room := Nat.zero_le _
  positive i hi := absurd hi (Nat.not_lt_zero i)
  found i hi := absurd hi (Nat.not_lt_zero i)
  absent fd _ := Finmap.lookup_empty fd
  nodup := List.nodup_nil
  vacated _ _ := ⟨Int.le_refl 0, rfl⟩
  heap := List.Perm.refl _
  once := List.nodup_nil
  freed := rfl
  sound := rfl

/-! ### Lookups -/

theorem Holds.find (h : Holds s m n) (hi : i < n) :
    Slots.find Client.fd s.clients maxEvents (s.clients (i : Int)).fd = some i :=
  Slots.find_live h.nodup hi h.room

theorem Holds.fd_inj (h : Holds s m n) {j : Nat} (hi : i < n) (hj : j < n)
    (hfd : (s.clients (i : Int)).fd = (s.clients (j : Int)).fd) : i = j := by
  have hfind := h.find hi
  rw [hfd, h.find hj] at hfind
  exact (Option.some.inj hfind).symm

/-- Vacated slots are not found. -/
theorem Holds.find_eq_none (h : Holds s m n) (hpos : 0 < fd)
    (hfd : ∀ i : Nat, i < n → (s.clients i).fd ≠ fd) :
    Slots.find Client.fd s.clients maxEvents fd = none := by
  refine Slots.find_eq_none.mpr fun i _ => ?_
  by_cases hi : i < n
  · exact hfd i hi
  · have hle := (h.vacated i (Nat.not_lt.mp hi)).1
    omega

theorem Holds.lookup (h : Holds s m n) (hi : i < n) :
    ∃ client, m.clients.lookup (s.clients (i : Int)).fd = some client ∧
      (s.clients (i : Int)).Agree client := by
  obtain ⟨client, hlookup, hknown⟩ := Option.map_eq_some_iff.mp (h.found i hi)
  exact ⟨client, hlookup, Client.agree_iff.mpr hknown.symm⟩

theorem Client.Agree.data_eq (h : client.Agree client') : client'.data = client.data := by
  obtain ⟨head, rfl, -⟩ := h
  rfl

theorem Holds.mem_iff (h : Holds s m n) :
    fd ∈ m.clients ↔ ∃ i : Nat, i < n ∧ (s.clients i).fd = fd := by
  constructor
  · intro hmem
    by_contra hnone
    push Not at hnone
    exact Finmap.lookup_eq_none.mp (h.absent fd hnone) hmem
  · rintro ⟨i, hi, rfl⟩
    obtain ⟨client, hlookup, -⟩ := h.lookup hi
    exact Finmap.mem_of_lookup_eq_some hlookup

theorem Holds.card (h : Holds s m n) : m.clients.keys.card = n := by
  have hkeys : m.clients.keys = ((Slots.live s.clients n).map Client.fd).toFinset := by
    ext fd
    simp only [Finmap.mem_keys, h.mem_iff, List.mem_toFinset, List.mem_map, Slots.mem_live]
    constructor
    · rintro ⟨i, hi, hfd⟩
      exact ⟨_, ⟨i, hi, rfl⟩, hfd⟩
    · rintro ⟨_, ⟨i, hi, rfl⟩, hfd⟩
      exact ⟨i, hi, hfd⟩
  rw [hkeys, List.toFinset_card_of_nodup h.nodup, List.length_map, Slots.length_live]

/-- No two records have the same buffer. -/
theorem Holds.unshared (h : Holds s m n) {j : Nat} (hdata : (s.clients (i : Int)).data ≠ 0)
    (heq : (s.clients (i : Int)).data = (s.clients (j : Int)).data) : i = j := by
  have hused : ∀ k : Nat, (s.clients k).data ≠ 0 → k < n := by
    intro k hk
    by_contra hge
    exact hk (h.vacated k (Nat.not_lt.mp hge)).2
  have hpairs : (Slots.live s.clients n).Pairwise fun x y =>
      x.data ≠ 0 → y.data ≠ 0 → x.data ≠ y.data := by
    have hnodup := h.heap.nodup_iff.mpr h.once
    simpa [buffers, List.Nodup, List.pairwise_filter, List.pairwise_map] using hnodup
  rw [Slots.pairwise_live] at hpairs
  have hi := hused i hdata
  have hj := hused j (heq ▸ hdata)
  rcases Nat.lt_trichotomy i j with hlt | hij | hgt
  · exact absurd heq (hpairs i j hlt hj hdata (heq ▸ hdata))
  · exact hij
  · exact absurd heq.symm (hpairs j i hgt hi (heq ▸ hdata) hdata)

theorem Holds.owned (h : Holds s m n) :
    p ∈ s.heap ↔ p ≠ 0 ∧ ∃ fd client, m.clients.lookup fd = some client ∧ client.data = p := by
  rw [← h.heap.mem_iff]
  simp only [buffers, List.mem_filter, List.mem_map, Slots.mem_live, decide_eq_true_eq]
  constructor
  · rintro ⟨⟨_, ⟨i, hi, rfl⟩, hdata⟩, hp⟩
    obtain ⟨client, hlookup, hagree⟩ := h.lookup hi
    exact ⟨hp, _, client, hlookup, hagree.data_eq.trans hdata⟩
  · rintro ⟨hp, fd, client, hlookup, hdata⟩
    obtain ⟨i, hi, rfl⟩ := h.mem_iff.mp (Finmap.mem_of_lookup_eq_some hlookup)
    obtain ⟨client', hlookup', hagree⟩ := h.lookup hi
    have hsame : client' = client := Option.some.inj (hlookup'.symm.trans hlookup)
    exact ⟨⟨_, ⟨i, hi, rfl⟩, by rw [← hdata, ← hsame, hagree.data_eq]⟩, hp⟩

theorem Holds.refines (h : Holds s m n) : Refines s m where
  lookups fd hpos := by
    by_cases hex : ∃ i : Nat, i < n ∧ (s.clients i).fd = fd
    · obtain ⟨i, hi, rfl⟩ := hex
      rw [h.found i hi, findClient, h.find hi, Option.map_some]
    · push Not at hex
      rw [h.absent fd hex, findClient, h.find_eq_none hpos hex, Option.map_none, Option.map_none]
  count := by rw [h.count, h.card]
  live i _ := by
    rw [h.count, h.mem_iff]
    constructor
    · intro hi
      exact ⟨i, by omega, rfl⟩
    · rintro ⟨j, hj, hfd⟩
      by_contra hge
      have hpos := h.positive j hj
      have hle := (h.vacated i (by omega)).1
      omega
  unshared _ _ _ _ hdata heq := h.unshared hdata heq
  owned _ := h.owned
  once := h.once
  freed := h.freed
  sound := h.sound

/-! ### Additions -/

theorem Holds.add (h : Holds s m n) (hroom : n < maxEvents) (hpos : 0 < fd)
    (hnew : ∀ i : Nat, i < n → (s.clients i).fd ≠ fd) :
    Holds (addClient fd addr s).2 (m.add fd addr).2 (n + 1) := by
  have hcount : ¬ s.count ≥ maxEvents := by
    have := h.count
    omega
  have hcard : ¬ maxEvents ≤ m.clients.keys.card := by
    rw [h.card]
    omega
  simp only [addClient, if_neg hcount, Reference.add, if_neg hcard, State.store]
  rw [h.count]
  have hvacated := h.vacated n (Nat.le_refl n)
  have hnull : (initClient { s.clients (n : Int) with fd := fd, addr := addr }).data = 0 :=
    hvacated.2
  have hknown : (initClient { fd := fd, addr := addr }).known =
      (initClient { s.clients (n : Int) with fd := fd, addr := addr }).known := by
    simp [initClient, Client.known, hvacated.2]
  have hfd : (initClient { s.clients (n : Int) with fd := fd, addr := addr }).fd = fd := rfl
  generalize initClient { s.clients (n : Int) with fd := fd, addr := addr } = client
    at hnull hknown hfd ⊢
  have hlast : Function.update s.clients (n : Int) client n = client := Function.update_self ..
  have hold : ∀ i : Nat, i < n → Function.update s.clients (n : Int) client i = s.clients i :=
    fun i hi => Function.update_of_ne (by omega) _ _
  have hlive := Slots.live_push hlast hold
  constructor
  case count => rfl
  case room => exact hroom
  case positive =>
    intro i hi
    dsimp only
    rcases Nat.lt_succ_iff_lt_or_eq.mp hi with hlt | rfl
    · rw [hold i hlt]
      exact h.positive i hlt
    · rw [hlast, hfd]
      exact hpos
  case found =>
    intro i hi
    dsimp only
    rcases Nat.lt_succ_iff_lt_or_eq.mp hi with hlt | rfl
    · rw [hold i hlt, Finmap.lookup_insert_of_ne _ (hnew i hlt)]
      exact h.found i hlt
    · rw [hlast, hfd, Finmap.lookup_insert, Option.map_some, hknown]
  case absent =>
    intro fd' habsent
    dsimp only at habsent ⊢
    have hne : fd' ≠ fd := by
      have hat := habsent n (Nat.lt_succ_self n)
      rw [hlast, hfd] at hat
      exact hat.symm
    rw [Finmap.lookup_insert_of_ne _ hne]
    refine h.absent fd' fun i hi => ?_
    rw [← hold i hi]
    exact habsent i (Nat.lt_succ_of_lt hi)
  case nodup =>
    rw [hlive, List.map_append, List.map_singleton, hfd]
    refine (List.perm_append_singleton _ _).nodup_iff.mpr (List.nodup_cons.mpr ⟨?_, h.nodup⟩)
    simp only [List.mem_map, Slots.mem_live]
    rintro ⟨_, ⟨i, hi, rfl⟩, heq⟩
    exact hnew i hi heq
  case vacated =>
    intro i hi
    dsimp only
    rw [Function.update_of_ne (by omega)]
    exact h.vacated i (by omega)
  case heap =>
    rw [hlive]
    refine (buffers_perm (List.perm_append_singleton _ _)).trans ?_
    rw [buffers_cons_null hnull]
    exact h.heap
  case once => exact h.once
  case freed => exact h.freed
  case sound => exact h.sound

/-! ### Removals -/

theorem vacate_count (hcount : s.count = (n + 1 : Nat)) : (s.vacate i).count = n := by
  have hkeep : (s.safeFree (s.clients i).data).count = s.count := by
    unfold State.safeFree
    split <;> rfl
  show (s.safeFree (s.clients i).data).count - 1 = n
  omega

theorem vacate_heap : (s.vacate i).heap = (s.safeFree (s.clients i).data).heap ∧
    (s.vacate i).freed = (s.safeFree (s.clients i).data).freed ∧
    (s.vacate i).faulted = (s.safeFree (s.clients i).data).faulted := by
  simp only [State.vacate]
  split <;> exact ⟨rfl, rfl, rfl⟩

/-- The slots after a removal. -/
theorem vacate_clients (hcount : s.count = (n + 1 : Nat)) :
    (s.vacate i).clients =
      if i < n then
        Function.update (Function.update s.clients i (s.clients n)) n
          (initClient (s.clients n)).cleared
      else Function.update s.clients i (s.clients i).cleared := by
  have hkeep : (s.safeFree (s.clients i).data).count - 1 = n ∧
      (s.safeFree (s.clients i).data).clients = s.clients := by
    unfold State.safeFree
    split <;> exact ⟨show s.count - 1 = n by omega, rfl⟩
  simp only [State.vacate, State.store, hkeep.1, hkeep.2]
  by_cases hi : i < n
  · have hne : (n : Int) ≠ i := by omega
    simp only [Int.ofNat_lt, hi, if_true, Function.update_of_ne hne, Function.update_idem]
  · simp only [Int.ofNat_lt, hi, if_false]

theorem vacate_clients_lt (hcount : s.count = (n + 1 : Nat)) (hi : i ≤ n) (j : Nat) (hj : j < n) :
    (s.vacate i).clients j = if j = i then s.clients n else s.clients j := by
  rw [vacate_clients hcount]
  by_cases hlt : i < n
  · rw [if_pos hlt, Function.update_of_ne (by omega)]
    by_cases hji : j = i
    · rw [if_pos hji, hji]
      exact Function.update_self ..
    · rw [if_neg hji]
      exact Function.update_of_ne (by omega) _ _
  · rw [if_neg hlt, if_neg (by omega)]
    exact Function.update_of_ne (by omega) _ _

theorem vacate_clients_ge (hcount : s.count = (n + 1 : Nat)) (hi : i ≤ n) (j : Nat) (hj : n ≤ j) :
    n < j ∧ (s.vacate i).clients j = s.clients j ∨
      ((s.vacate i).clients j).fd = -1 ∧ ((s.vacate i).clients j).data = 0 := by
  rw [vacate_clients hcount]
  rcases Nat.eq_or_lt_of_le hj with rfl | hlt
  · right
    split
    · rw [Function.update_self]
      exact ⟨rfl, rfl⟩
    · have hin : i = n := by omega
      rw [hin, Function.update_self]
      exact ⟨rfl, rfl⟩
  · refine .inl ⟨hlt, ?_⟩
    split
    · rw [Function.update_of_ne (by omega), Function.update_of_ne (by omega)]
    · rw [Function.update_of_ne (by omega)]

/-- A buffer that is freed leaves the heap once. -/
theorem safeFree_spec {l : List Client} (hperm : (buffers (client :: l)).Perm s.heap)
    (honce : s.heap.Nodup) :
    (buffers l).Perm (s.safeFree client.data).heap ∧ (s.safeFree client.data).heap.Nodup ∧
      (s.safeFree client.data).freed =
        s.freed ++ (if client.data = 0 then [] else [client.data]) ∧
      (s.safeFree client.data).faulted = s.faulted := by
  unfold State.safeFree
  split
  case isTrue hnull =>
    rw [buffers_cons_null hnull] at hperm
    exact ⟨hperm, honce, (List.append_nil _).symm, rfl⟩
  case isFalse hdata =>
    rw [buffers_cons hdata] at hperm
    obtain ⟨hmem, hrest⟩ := List.cons_perm_iff_perm_erase.mp hperm
    refine ⟨hrest, honce.erase _, rfl, ?_⟩
    simp [hmem]

theorem Holds.vacate (h : Holds s m (n + 1)) (hi : i ≤ n) :
    Holds (s.vacate i) (m.remove (s.clients i).fd) n := by
  obtain ⟨client, hlookup, hagree⟩ := h.lookup (Nat.lt_succ_of_le hi)
  have hlt := vacate_clients_lt h.count hi
  have hperm : (s.clients i :: Slots.live (s.vacate i).clients n).Perm
      (Slots.live s.clients (n + 1)) := Slots.live_remove hi hlt
  have hslot : ∀ j : Nat, j < n → ∃ k : Nat, k < n + 1 ∧ k ≠ i ∧
      (s.vacate i).clients j = s.clients k := by
    intro j hj
    by_cases hji : j = i
    · exact ⟨n, Nat.lt_succ_self n, by omega, (hlt j hj).trans (if_pos hji)⟩
    · exact ⟨j, Nat.lt_succ_of_lt hj, hji, (hlt j hj).trans (if_neg hji)⟩
  have hne : ∀ k : Nat, k < n + 1 → k ≠ i → (s.clients k).fd ≠ (s.clients i).fd :=
    fun k hk hki hfd => hki (h.fd_inj hk (Nat.lt_succ_of_le hi) hfd)
  obtain ⟨hheap, hfreed, hfaulted⟩ := vacate_heap (s := s) (i := i)
  obtain ⟨hbuffers, honce, hlog, hsound⟩ :=
    safeFree_spec ((buffers_perm hperm).trans h.heap) h.once
  simp only [Reference.remove, hlookup, hagree.data_eq]
  constructor
  case count => exact vacate_count h.count
  case room => exact Nat.le_of_succ_le h.room
  case positive =>
    intro j hj
    obtain ⟨k, hk, -, hjk⟩ := hslot j hj
    rw [hjk]
    exact h.positive k hk
  case found =>
    intro j hj
    obtain ⟨k, hk, hki, hjk⟩ := hslot j hj
    rw [hjk, Finmap.lookup_erase_ne (hne k hk hki)]
    exact h.found k hk
  case absent =>
    intro fd habsent
    by_cases hfd : fd = (s.clients i).fd
    · rw [hfd]
      exact Finmap.lookup_erase _ _
    · rw [Finmap.lookup_erase_ne hfd]
      refine h.absent fd fun k hk => ?_
      by_cases hki : k = i
      · rw [hki]
        exact Ne.symm hfd
      · by_cases hkn : k = n
        · have hlast := habsent i (by omega)
          rw [hlt i (by omega), if_pos rfl] at hlast
          rw [hkn]
          exact hlast
        · have hat := habsent k (by omega)
          rw [hlt k (by omega), if_neg hki] at hat
          exact hat
  case nodup =>
    have hall := (hperm.map Client.fd).nodup_iff.mpr h.nodup
    exact (List.nodup_cons.mp hall).2
  case vacated =>
    intro j hj
    rcases vacate_clients_ge h.count hi j hj with ⟨hgt, hsame⟩ | ⟨hfd, hdata⟩
    · rw [hsame]
      exact h.vacated j hgt
    · exact ⟨by omega, hdata⟩
  case heap =>
    rw [hheap]
    exact hbuffers
  case once =>
    rw [hheap]
    exact honce
  case freed => rw [hfreed, hlog, h.freed]
  case sound => rw [hfaulted, hsound, h.sound]

theorem Holds.remove (h : Holds s m n) (hpos : 0 < fd) :
    ∃ n', Holds (removeClient fd s) (m.remove fd) n' := by
  by_cases hex : ∃ i : Nat, i < n ∧ (s.clients i).fd = fd
  · obtain ⟨i, hi, rfl⟩ := hex
    obtain ⟨k, rfl⟩ := Nat.exists_eq_succ_of_ne_zero (Nat.ne_of_gt (Nat.zero_lt_of_lt hi))
    rw [removeClient, h.find hi, Option.elim_some]
    exact ⟨k, h.vacate (Nat.le_of_lt_succ hi)⟩
  · push Not at hex
    rw [removeClient, h.find_eq_none hpos hex, Option.elim_none, Reference.remove, h.absent fd hex]
    exact ⟨n, h⟩

/-! ### Receiving into a slot -/

theorem received_buffers (hheap : (buffers (Slots.live s.clients n)).Perm s.heap) (hi : i < n)
    (hr : Recv.Keeps p (s.clients i) r) :
    (buffers (Slots.live (s.received i r).clients n)).Perm (r.took ++ s.heap) := by
  have hset : Slots.live (s.received i r).clients n =
      (Slots.live s.clients n).set i r.client := by
    refine Slots.live_set fun j _ => ?_
    show Function.update s.clients i r.client j = _
    by_cases hji : j = i
    · rw [if_pos hji, hji, Function.update_self]
    · rw [if_neg hji, Function.update_of_ne (by omega)]
  have hperm : (buffers (s.clients i :: (Slots.live s.clients n).set i r.client)).Perm
      (buffers (r.client :: Slots.live s.clients n)) :=
    buffers_perm (Slots.set_perm hi r.client)
  rw [hset]
  rcases hr.data with ⟨htook, hdata⟩ | ⟨hnull, hp, htook, hdata⟩
  · rw [htook, List.nil_append]
    refine List.Perm.trans ?_ hheap
    by_cases hzero : (s.clients i).data = 0
    · rwa [buffers_cons_null hzero, buffers_cons_null (hdata.trans hzero)] at hperm
    · rw [buffers_cons hzero, buffers_cons (hdata ▸ hzero), hdata] at hperm
      exact (List.perm_cons _).mp hperm
  · rw [buffers_cons_null hnull, buffers_cons (hdata ▸ hp), hdata] at hperm
    rw [htook]
    exact hperm.trans (hheap.cons p)

theorem Holds.received (h : Holds s m n) (hi : i < n) (hp : p ∉ s.heap)
    (hr : Recv.Keeps p (s.clients i) r) (hknown : r.client.Agree client) :
    Holds (s.received i r)
      { m with clients := m.clients.insert (s.clients i).fd client } n := by
  have hself : (s.received i r).clients i = r.client := Function.update_self ..
  have hold : ∀ j : Nat, j ≠ i → (s.received i r).clients j = s.clients j :=
    fun j hj => Function.update_of_ne (by omega) _ _
  have hfds : ∀ j : Nat, ((s.received i r).clients j).fd = (s.clients j).fd := by
    intro j
    by_cases hji : j = i
    · rw [hji, hself, hr.fd]
    · rw [hold j hji]
  have hmap : (Slots.live (s.received i r).clients n).map Client.fd =
      (Slots.live s.clients n).map Client.fd := by
    simp only [Slots.live, List.map_map]
    exact List.map_congr_left fun j _ => hfds j
  constructor
  case count => exact h.count
  case room => exact h.room
  case positive =>
    intro j hj
    rw [hfds j]
    exact h.positive j hj
  case found =>
    intro j hj
    rw [hfds j]
    by_cases hji : j = i
    · rw [hji, Finmap.lookup_insert, hself, Option.map_some, Client.agree_iff.mp hknown]
    · rw [Finmap.lookup_insert_of_ne _ fun hfd => hji (h.fd_inj hj hi hfd), hold j hji]
      exact h.found j hj
  case absent =>
    intro fd habsent
    have hne : fd ≠ (s.clients i).fd := by
      rw [← hfds i]
      exact (habsent i hi).symm
    rw [Finmap.lookup_insert_of_ne _ hne]
    refine h.absent fd fun j hj => ?_
    rw [← hfds j]
    exact habsent j hj
  case nodup =>
    rw [hmap]
    exact h.nodup
  case vacated =>
    intro j hj
    rw [hold j (by omega)]
    exact h.vacated j hj
  case heap => exact received_buffers h.heap hi hr
  case once =>
    show (r.took ++ s.heap).Nodup
    rcases hr.data with ⟨htook, -⟩ | ⟨-, -, htook, -⟩
    · rw [htook]
      exact h.once
    · rw [htook]
      exact List.nodup_cons.mpr ⟨hp, h.once⟩
  case freed => exact h.freed
  case sound => exact h.sound

theorem Holds.recv (h : Holds s m n) (hpos : 0 < fd) (hp : p ∉ s.heap) (reads : List ReadResult) :
    ∃ n', Holds (epollRecv fd p reads s) (m.recv fd p reads) n' := by
  by_cases hex : ∃ i : Nat, i < n ∧ (s.clients i).fd = fd
  · obtain ⟨i, hi, rfl⟩ := hex
    obtain ⟨client, hlookup, hagree⟩ := h.lookup hi
    have hboth := receive_agree hagree p reads
    have hnext := h.received hi hp (receive_keeps p _ reads) hboth.client
    simp only [epollRecv, findClient, h.find hi, Option.elim_some, Reference.recv, hlookup,
      hboth.status]
    split
    · exact hnext.remove hpos
    · exact ⟨n, hnext⟩
  · push Not at hex
    rw [epollRecv, findClient, h.find_eq_none hpos hex, Option.elim_none, Reference.recv,
      h.absent fd hex]
    exact ⟨n, h⟩

/-! ## Runs -/

theorem Holds.addClient (h : Holds s m n) (hpos : 0 < fd)
    (hnew : ∀ i : Nat, i < s.count → (s.clients i).fd ≠ fd) :
    (∃ n', Holds (addClient fd addr s).2 (m.add fd addr).2 n') ∧
      (addClient fd addr s).1 = (m.add fd addr).1 := by
  have hcount := h.count
  by_cases hroom : n < maxEvents
  · refine ⟨⟨n + 1, h.add hroom hpos fun i hi => hnew i (by omega)⟩, ?_⟩
    have hconcrete : ¬ s.count ≥ maxEvents := by omega
    have habstract : ¬ maxEvents ≤ m.clients.keys.card := by
      rw [h.card]
      omega
    rw [Table.addClient, if_neg hconcrete, Reference.add, if_neg habstract]
  · have hconcrete : s.count ≥ maxEvents := by omega
    have habstract : maxEvents ≤ m.clients.keys.card := by
      rw [h.card]
      omega
    rw [Table.addClient, if_pos hconcrete, Reference.add, if_pos habstract]
    exact ⟨⟨n, h⟩, rfl⟩

/-- A call does to the table what it does to the map, and answers alike. -/
theorem Holds.step (h : Holds s m n) (e : Event) (hg : Granted s e) :
    (∃ n', Holds (step s e) (m.step e) n') ∧ answer s e = m.answer e := by
  cases e with
  | add fd addr =>
    obtain ⟨hnext, hrc⟩ := @Holds.addClient _ _ _ fd addr h hg.1 hg.2
    exact ⟨hnext, congrArg Answer.int hrc⟩
  | remove fd => exact ⟨h.remove hg, rfl⟩
  | find fd => exact ⟨⟨n, h⟩, congrArg Answer.client (h.refines.lookups fd hg)⟩
  | recv fd p reads => exact ⟨h.recv hg.1 hg.2 reads, rfl⟩

/-- In every run the table is the finite map: the calls answer as on the map,
and the state is as `Refines` says. -/
theorem table_refines (es : List Event) (hg : Along step Granted {} es) :
    trace step answer {} es = trace Reference.step Reference.answer {} es ∧
      Refines (run step {} es) (run Reference.step {} es) := by
  have hstep : ∀ s m e, (∃ n, Holds s m n) → Granted s e →
      ∃ n, Holds (Table.step s e) (m.step e) n := fun s m e ⟨_, h⟩ hg => (h.step e hg).1
  have hanswer : ∀ s m e, (∃ n, Holds s m n) → Granted s e → answer s e = m.answer e :=
    fun s m e ⟨_, h⟩ hg => (h.step e hg).2
  have hinit : ∃ n, Holds {} {} n := ⟨0, holds_init⟩
  have htrace := trace_related (g := id) hstep hanswer hg hinit
  have hrun := run_related (g := id) hstep hg hinit
  rw [List.map_id] at htrace hrun
  obtain ⟨n, h⟩ := hrun
  exact ⟨htrace, h.refines⟩

/-- A client whose header has come is moved into the slot of another. -/
theorem table_refines_moved :
    trace step answer {} [.add 4 {}, .add 5 {}, .recv 5 64 [.got (List.replicate 8 1)],
        .remove 4, .find 5] =
      trace Reference.step Reference.answer {} [.add 4 {}, .add 5 {},
        .recv 5 64 [.got (List.replicate 8 1)], .remove 4, .find 5] ∧
      Refines
        (run step {} [.add 4 {}, .add 5 {}, .recv 5 64 [.got (List.replicate 8 1)],
          .remove 4, .find 5])
        (run Reference.step {} [.add 4 {}, .add 5 {}, .recv 5 64 [.got (List.replicate 8 1)],
          .remove 4, .find 5]) := by
  refine table_refines _ ⟨⟨by decide, fun i hi => ?_⟩, ⟨by decide, fun i hi => ?_⟩,
    ⟨by decide, by decide⟩, (by decide : (0 : Int) < 4), (by decide : (0 : Int) < 5), trivial⟩
  · exact absurd hi (Int.not_lt.mpr (Int.natCast_nonneg i))
  · have hcount : (step {} (.add 4 {})).count = 1 := by decide
    have hzero : i = 0 := by omega
    rw [hzero]
    decide

end Training.Rpc.Table
