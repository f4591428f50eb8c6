/-
Training.Lfu.CacheTheorems — what keeps the cache in step with its
reference.

The nodes of the cache are a list, the one used last in front. They are
in the table where a probe finds them, in the buckets of their counts,
and no two counts share a bucket (`Inv`). Each operation that fits the
cache (`Fits`) ends, does to the entries what the reference does, and
keeps that (`lFUCacheGet_spec`, `lFUCachePut_spec`).
-/
import Training.Lib.HashTable
import Training.Lfu.BucketTheorems
import Training.Lfu.Reference

namespace Training.Lfu

open Training.Lib Training.Lib.Doubly Training.Lib.Probing

variable {obj obj' : LFUCache} {ns : List Nat} {n : Nat} {key value : Int} {malloc : Malloc}

/-- A slot with a node. -/
def LFUCache.Taken (obj : LFUCache) (i : Nat) : Prop := obj.keyMap i ≠ null

/-- What holds between the operations. -/
structure Inv (obj : LFUCache) (ns : List Nat) : Prop where
  buckets : Buckets obj (bucketIndex obj) ns
  table : Table hashSize null obj.keyMap obj.key getHashIndex obj.Taken ns
  size : obj.size = ns.length
  clash : ∀ n ∈ ns, ∀ m ∈ ns, bucketIndex obj n = bucketIndex obj m → obj.freq n = obj.freq m
  counts : ∀ n ∈ ns, 1 ≤ obj.freq n
  least : ∀ n ∈ ns, obj.minFreq ≤ obj.freq n
  attained : ns ≠ [] → ∃ n ∈ ns, obj.freq n = obj.minFreq

def entry (obj : LFUCache) (n : Nat) : Reference.Entry Int Int := ⟨obj.key n, obj.val n, obj.freq n⟩

def entries (obj : LFUCache) (ns : List Nat) : List (Reference.Entry Int Int) := ns.map (entry obj)

/-! ## The hash -/

theorem getHashIndex_eq (key : Int) : (getHashIndex key : Int) = key % hashSize := by
  have hsize : (hashSize : Int) = 20001 := rfl
  unfold getHashIndex
  rw [hsize]
  have hlow := Int.lt_tmod_of_pos key (b := 20001) (by decide)
  have hhigh := Int.tmod_lt_of_pos key (b := 20001) (by decide)
  have hmod : (key.tmod 20001 + 20001).tmod 20001 = key % 20001 := by
    rw [Int.tmod_eq_emod_of_nonneg (by omega), Int.add_emod_right]
    rcases Int.le_total 0 key with hkey | hkey
    · rw [Int.tmod_eq_emod_of_nonneg hkey, Int.emod_emod]
    · rw [show key.tmod 20001 = -((-key) % 20001) by
        rw [← Int.tmod_eq_emod_of_nonneg (by omega), Int.neg_tmod, Int.neg_neg]]
      omega
  rw [hmod]
  exact Int.toNat_of_nonneg (Int.emod_nonneg _ (by decide))

theorem getHashIndex_lt (key : Int) : getHashIndex key < hashSize := by
  have hlt := Int.emod_lt_of_pos key (b := hashSize) (by decide)
  rw [← getHashIndex_eq] at hlt
  exact_mod_cast hlt

/-! ## Entries -/

theorem find_none (habsent : ∀ n ∈ ns, obj.key n ≠ key) :
    Reference.find key (entries obj ns) = none := by
  unfold Reference.find entries
  rw [List.find?_eq_none]
  intro e he heq
  obtain ⟨n, hn, rfl⟩ := List.mem_map.mp he
  exact habsent n hn (of_decide_eq_true heq)

section Entries

variable (hkeys : ∀ n ∈ ns, ∀ m ∈ ns, obj.key n = obj.key m → n = m)

include hkeys

theorem find_some (hn : n ∈ ns) :
    Reference.find (obj.key n) (entries obj ns) = some (entry obj n) := by
  unfold Reference.find entries
  rw [List.find?_map]
  cases hf : ns.find? ((fun e : Reference.Entry Int Int => decide (e.key = obj.key n)) ∘ entry obj) with
  | none => exact absurd (decide_eq_true rfl) (List.find?_eq_none.mp hf n hn)
  | some m =>
    have htrue := List.find?_some hf
    have hkey : obj.key m = obj.key n := of_decide_eq_true htrue
    rw [hkeys m (List.mem_of_find?_eq_some hf) n hn hkey]
    rfl

/-- The nodes but one are the entries without its key. -/
theorem without_entries (hns : ns.Nodup) (hn : n ∈ ns) :
    Reference.without (obj.key n) (entries obj ns) = entries obj (ns.erase n) := by
  unfold Reference.without entries
  rw [List.filter_map, hns.erase_eq_filter]
  congr 1
  refine List.filter_congr fun m hm => ?_
  by_cases hmn : m = n
  · simp [entry, hmn]
  · have hne : obj.key m ≠ obj.key n := fun heq => hmn (hkeys m hm n hn heq)
    simp [entry, hmn, hne]

end Entries

/-! ## Probes -/

theorem findSlot_mem (h : Table hashSize null obj.keyMap obj.key getHashIndex obj.Taken ns)
    (hn : n ∈ ns) : ∃ i, i < hashSize ∧ obj.keyMap i = n ∧ findSlot obj (obj.key n) = some i :=
  h.find getHashIndex_lt hn

/-- There is a slot where a probe for `key` ends. -/
def Ends (obj : LFUCache) (key : Int) : Prop :=
  ∃ i, i < hashSize ∧ (obj.keyMap i = null ∨ obj.key (obj.keyMap i) = key)

/-- The probe finds the node of the key, or an empty slot. -/
theorem findSlot_cases (h : Table hashSize null obj.keyMap obj.key getHashIndex obj.Taken ns)
    (hends : Ends obj key) :
    (∃ i n, findSlot obj key = some i ∧ obj.keyMap i = n ∧ i < hashSize ∧ n ∈ ns ∧ obj.key n = key) ∨
      ∃ i, findSlot obj key = some i ∧ obj.keyMap i = null ∧ ∀ n ∈ ns, obj.key n ≠ key := by
  by_cases hex : ∃ n ∈ ns, obj.key n = key
  · obtain ⟨n, hn, rfl⟩ := hex
    obtain ⟨i, hi, hslot, hfind⟩ := findSlot_mem h hn
    exact Or.inl ⟨i, n, hfind, hslot, hi, hn, rfl⟩
  · have habsent : ∀ n ∈ ns, obj.key n ≠ key := fun n hn heq => hex ⟨n, hn, heq⟩
    obtain ⟨i, hi, hstop⟩ := hends
    obtain ⟨j, hj⟩ := exists_probe (getHashIndex_lt key) hi
      (show stops null obj.keyMap obj.key key i = true from decide_eq_true hstop)
    exact Or.inr ⟨j, hj, h.find_absent getHashIndex_lt habsent hj, habsent⟩

/-! ## A use of a node -/

/-- No other stored node has another count that shares a bucket with `freq`. -/
def Clean (obj : LFUCache) (freq : Int) (node : Nat) : Prop :=
  ∀ i, i < hashSize → obj.keyMap i ≠ null → obj.keyMap i ≠ node →
    getHashIndex (obj.freq (obj.keyMap i)) = getHashIndex freq → obj.freq (obj.keyMap i) = freq

/-- The node can be used once more. -/
def CanUse (obj : LFUCache) (node : Nat) : Prop :=
  obj.freq node ≠ intMax ∧ Clean obj (obj.freq node + 1) node

theorem clean_nodes (h : Table hashSize null obj.keyMap obj.key getHashIndex obj.Taken ns) {freq : Int}
    (hclean : Clean obj freq n) {m : Nat} (hm : m ∈ ns) (hmn : m ≠ n)
    (hidx : getHashIndex (obj.freq m) = getHashIndex freq) : obj.freq m = freq := by
  obtain ⟨i, hi, rfl, -⟩ := h.placed m hm
  exact hclean i hi (fun heq => h.nonempty (heq ▸ hm)) hmn hidx

theorem increaseFreq_inv (h : Inv obj ns) (hn : n ∈ ns) (huse : CanUse obj n) (malloc : Malloc) :
    ∃ obj', increaseFreq obj n malloc = .ok obj' ∧ Inv obj' (n :: ns.erase n) ∧
      Frame obj obj' ns ∧ obj'.freq n = obj.freq n + 1 ∧
      ∀ m ∈ ns, m ≠ n → obj'.freq m = obj.freq m := by
  obtain ⟨obj', hok, hbuckets, hframe, hfreq, hother, hmin⟩ :=
    increaseFreq_spec h.buckets hn huse.1 malloc
  have hns := h.buckets.nodup
  have hperm := List.perm_cons_erase hn
  have hothers : ∀ m ∈ ns.erase n, m ∈ ns ∧ m ≠ n ∧ obj'.freq m = obj.freq m := by
    intro m hm
    obtain ⟨hmn, hmem⟩ := hns.mem_erase_iff.mp hm
    exact ⟨hmem, hmn, hother m hmem hmn⟩
  have hshared : ∀ m ∈ ns.erase n, bucketIndex obj' m = bucketIndex obj' n →
      obj'.freq m = obj'.freq n := by
    intro m hm hidx
    obtain ⟨hmem, hmn, heq⟩ := hothers m hm
    unfold bucketIndex at hidx
    rw [heq, hfreq] at hidx ⊢
    exact clean_nodes h.table huse.2 hmem hmn hidx
  refine ⟨obj', hok, ⟨hbuckets, ?_, ?_, fun m hm k hk hidx => ?_, fun m hm => ?_, fun m hm => ?_,
    fun _ => ?_⟩, hframe, hfreq, hother⟩
  · have htable := h.table.congr (fun x => (hperm.mem_iff (a := x)).symm) hframe.key
    rw [← hframe.keyMap] at htable
    exact htable.retake fun i hi _ hr => hr.mono fun e _ he => by
      unfold LFUCache.Taken at he ⊢
      rwa [hframe.keyMap]
  · rw [hframe.size, h.size, hperm.length_eq]
  · rcases List.mem_cons.mp hm with rfl | hm
    · rcases List.mem_cons.mp hk with rfl | hk
      · rfl
      · exact (hshared k hk hidx.symm).symm
    · rcases List.mem_cons.mp hk with rfl | hk
      · exact hshared m hm hidx
      · obtain ⟨hm', -, hmeq⟩ := hothers m hm
        obtain ⟨hk', -, hkeq⟩ := hothers k hk
        unfold bucketIndex at hidx
        rw [hmeq, hkeq] at hidx ⊢
        exact h.clash m hm' k hk' hidx
  · rcases List.mem_cons.mp hm with rfl | hm
    · have hcount := h.counts m hn
      omega
    · obtain ⟨hm', -, hmeq⟩ := hothers m hm
      exact hmeq ▸ h.counts m hm'
  · -- `minFreq` moves on only when no other node has it
    rw [hmin]
    split
    · rename_i hmove
      rcases List.mem_cons.mp hm with rfl | hm
      · exact Int.le_of_eq hfreq.symm
      · obtain ⟨hm', -, hmeq⟩ := hothers m hm
        have hle := h.least m hm'
        have hne : obj.freq m ≠ obj.freq n :=
          fun heq => hmove.1 m hm (congrArg getHashIndex heq)
        rw [hmeq]
        omega
    · rcases List.mem_cons.mp hm with rfl | hm
      · have hle := h.least m hn
        omega
      · obtain ⟨hm', -, hmeq⟩ := hothers m hm
        exact hmeq ▸ h.least m hm'
  · rw [hmin]
    split
    · exact ⟨n, List.mem_cons_self, hfreq⟩
    · rename_i hstay
      obtain ⟨m, hm, hmmin⟩ := h.attained (List.ne_nil_of_mem hn)
      have hout : ∃ k ∈ ns.erase n, obj.freq k = obj.minFreq := by
        by_cases hmn : m = n
        · subst hmn
          by_contra hnone
          refine hstay ⟨fun k hk hidx => hnone ⟨k, hk, ?_⟩, hmmin.symm⟩
          exact (h.clash k (hothers k hk).1 m hm hidx).trans hmmin
        · exact ⟨m, (List.mem_erase_of_ne hmn).mpr hm, hmmin⟩
      obtain ⟨k, hk, hkmin⟩ := hout
      exact ⟨k, List.mem_cons_of_mem _ hk, (hothers k hk).2.2.trans hkmin⟩

/-! ## The victim -/

/-- The nodes with the fewest uses. -/
def leastUsed (obj : LFUCache) (ns : List Nat) : List Nat := ns.filter fun n => obj.freq n = obj.minFreq

/-- They are the bucket of `minFreq`. -/
theorem bucket_leastUsed (h : Inv obj ns) (hne : ns ≠ []) :
    (ns.filter fun n => bucketIndex obj n = getHashIndex obj.minFreq) = leastUsed obj ns := by
  obtain ⟨m, hm, hmin⟩ := h.attained hne
  refine List.filter_congr fun n hn => decide_eq_decide.mpr ⟨fun hidx => ?_, fun heq => ?_⟩
  · rw [← hmin] at hidx ⊢
    exact h.clash n hn m hm hidx
  · exact congrArg getHashIndex heq

theorem victim_entries (h : Inv obj ns) :
    Reference.victim (entries obj ns) = (leastUsed obj ns).getLast?.map (entry obj) := by
  unfold Reference.victim entries leastUsed
  rw [List.filter_map, List.getLast?_map]
  congr 2
  refine List.filter_congr fun n hn => ?_
  obtain ⟨m, hm, hmin⟩ := h.attained (List.ne_nil_of_mem hn)
  simp only [Function.comp_apply, List.all_map]
  rw [Bool.eq_iff_iff, List.all_eq_true, decide_eq_true_iff]
  constructor
  · intro hall
    have hle : obj.freq n ≤ obj.freq m := of_decide_eq_true (hall m hm)
    exact Int.le_antisymm (hmin ▸ hle) (h.least n hn)
  · intro heq k hk
    exact decide_eq_true (show obj.freq n ≤ obj.freq k from heq ▸ h.least k hk)

/-- What `evict` does to the cache besides its buckets. -/
structure Evicted (obj obj' : LFUCache) (slot : Nat) : Prop where
  capacity : obj'.capacity = obj.capacity
  size : obj'.size = obj.size - 1
  keyMap : obj'.keyMap = Function.update obj.keyMap slot null
  key : obj'.key = obj.key
  val : obj'.val = obj.val
  freq : obj'.freq = obj.freq

theorem evict_spec (h : Inv obj ns) (hne : ns ≠ []) :
    ∃ l v slot obj', obj.freqMap (getHashIndex obj.minFreq) = some l ∧ obj.prev l.tail = v ∧
      v ∈ ns ∧ (leastUsed obj ns).getLast? = some v ∧ slot < hashSize ∧ obj.keyMap slot = v ∧
      evict obj = .ok (obj', obj.key v) ∧ Evicted obj obj' slot ∧
      Buckets obj' (bucketIndex obj') (ns.erase v) ∧
      Table hashSize null obj'.keyMap obj'.key getHashIndex obj.Taken (ns.erase v) := by
  obtain ⟨m, hm, hmin⟩ := h.attained hne
  obtain ⟨l, hl⟩ := h.buckets.covered m hm
  unfold bucketIndex at hl
  rw [hmin] at hl
  -- the node in front of the tail is the last one of the bucket
  have hbetween := (h.buckets.family.between _ _ (deques_of_some hl)).prev_right
  dsimp only at hbetween
  rw [bucket_leastUsed h hne] at hbetween
  have hnonempty : leastUsed obj ns ≠ [] :=
    List.ne_nil_of_mem (List.mem_filter.mpr ⟨hm, decide_eq_true hmin⟩)
  rw [List.getLast_cons hnonempty] at hbetween
  generalize hv : obj.prev l.tail = v at hbetween
  have hmem : v ∈ leastUsed obj ns := hbetween ▸ List.getLast_mem hnonempty
  have hvns : v ∈ ns := List.mem_of_mem_filter hmem
  have hlast : (leastUsed obj ns).getLast? = some v := by
    rw [List.getLast?_eq_some_getLast hnonempty, hbetween]
  obtain ⟨hremove, hbuckets⟩ := removeNode_spec h.buckets hvns
  obtain ⟨slot, hslot, hslotv, hfind⟩ := findSlot_mem h.table hvns
  have hnull : v ≠ null := fun heq => h.table.nonempty (heq ▸ hvns)
  refine ⟨l, v, slot, { unlink obj v with
    keyMap := Function.update obj.keyMap slot null
    live := obj.live.erase v
    size := obj.size - 1 }, hl, hv, hvns, hlast, hslot, hslotv, ?_, ⟨rfl, rfl, rfl, rfl, rfl, rfl⟩, ?_,
    h.table.remove h.buckets.nodup hslot hslotv⟩
  · unfold evict
    rw [hl]
    dsimp only
    rw [hv, hremove]
    dsimp only
    rw [show findSlot (unlink obj v) ((unlink obj v).key v) = some slot from hfind]
    dsimp only
    rw [if_neg (show (unlink obj v).keyMap slot ≠ null from hslotv ▸ hnull)]
    rfl
  · refine ⟨hbuckets.family, hbuckets.covered, fun b k hbk => ?_, fun n hn => ?_, fun hmem => ?_,
      hbuckets.nodup⟩
    · obtain ⟨hhead, htail⟩ := h.buckets.inner hvns b k hbk
      exact ⟨(List.mem_erase_of_ne hhead.symm).mpr (h.buckets.sentinels b k hbk).1,
        (List.mem_erase_of_ne htail.symm).mpr (h.buckets.sentinels b k hbk).2⟩
    · obtain ⟨hnv, hn⟩ := h.buckets.nodup.mem_erase_iff.mp hn
      exact (List.mem_erase_of_ne hnv).mpr (h.buckets.nodes n hn)
    · exact h.buckets.nonnull (List.mem_of_mem_erase hmem)

/-! ## A new node -/

/-- A new node in its slot, before it is in a bucket. -/
def placeNode (obj : LFUCache) (slot n : Nat) (key value : Int) : LFUCache :=
  { createNode obj n key value 1 with keyMap := Function.update obj.keyMap slot n }

theorem entry_placeNode {slot : Nat} : entry (placeNode obj slot n key value) n = ⟨key, value, 1⟩ := by
  simp [entry, placeNode, createNode]

theorem entry_placeNode_of_ne {slot m : Nat} (hmn : m ≠ n) :
    entry (placeNode obj slot n key value) m = entry obj m := by
  simp [entry, placeNode, createNode, Function.update_of_ne hmn]

/-- The buckets with a new node among those of count 1. -/
theorem enterBucket_placeNode (hbuckets : Buckets obj (bucketIndex obj) ns) (hlive : n ∉ obj.live)
    (hnull : n ≠ null) (slot : Nat) (key value : Int) (malloc : Malloc) :
    Buckets (enterBucket (placeNode obj slot n key value) (getHashIndex 1) n malloc)
        (bucketIndex (enterBucket (placeNode obj slot n key value) (getHashIndex 1) n malloc))
        (n :: ns) ∧
      Frame (placeNode obj slot n key value)
        (enterBucket (placeNode obj slot n key value) (getHashIndex 1) n malloc) (n :: ns) ∧
      ∀ m ∈ n :: ns, entry (enterBucket (placeNode obj slot n key value) (getHashIndex 1) n malloc) m =
        entry (placeNode obj slot n key value) m := by
  have hnns : n ∉ ns := fun hmem => hlive (hbuckets.nodes n hmem)
  have hnew := buckets_createNode hbuckets hlive hnull key value 1
  have hplaced : Buckets (placeNode obj slot n key value) (bucketIndex obj) ns :=
    ⟨hnew.family, hnew.covered, hnew.sentinels, hnew.nodes, hnew.nonnull, hnew.nodup⟩
  have hall : ∀ m ∈ n :: ns, m ∈ (placeNode obj slot n key value).live := by
    intro m hm
    rcases List.mem_cons.mp hm with rfl | hm
    · exact List.mem_cons_self
    · exact List.mem_cons_of_mem _ (hbuckets.nodes m hm)
  have hinner : Inner (placeNode obj slot n key value) n := by
    intro b k hbk
    have hsent := hbuckets.sentinels b k hbk
    exact ⟨fun heq => hlive (heq ▸ hsent.1), fun heq => hlive (heq ▸ hsent.2)⟩
  obtain ⟨hframe, -, hfreq⟩ := frame_enterBucket (n := n) (b := getHashIndex 1) malloc hall
  have hentry : ∀ m ∈ n :: ns,
      entry (enterBucket (placeNode obj slot n key value) (getHashIndex 1) n malloc) m =
        entry (placeNode obj slot n key value) m := by
    intro m hm
    unfold entry
    rw [hframe.key m hm, hframe.val m hm, hfreq m hm]
  refine ⟨?_, hframe, hentry⟩
  have henter := enterBucket_spec hplaced hnns hinner (hall n List.mem_cons_self) (getHashIndex 1)
    malloc
  refine henter.congr fun m hm => ?_
  have hcount := congrArg Reference.Entry.count (hentry m hm)
  by_cases hmn : m = n
  · subst hmn
    rw [Function.update_self]
    rw [entry_placeNode] at hcount
    exact congrArg getHashIndex hcount
  · rw [Function.update_of_ne hmn]
    rw [entry_placeNode_of_ne hmn] at hcount
    exact congrArg getHashIndex hcount

/-- What `insert` does to the cache besides its buckets. -/
structure Inserted (obj obj' : LFUCache) (ns : List Nat) (slot n : Nat) (key value : Int) : Prop where
  capacity : obj'.capacity = obj.capacity
  size : obj'.size = obj.size + 1
  minFreq : obj'.minFreq = 1
  keyMap : obj'.keyMap = Function.update obj.keyMap slot n
  entry : entry obj' n = ⟨key, value, 1⟩
  entries : ∀ m ∈ ns, Lfu.entry obj' m = Lfu.entry obj m

theorem insert_spec {taken : Nat → Prop} (hbuckets : Buckets obj (bucketIndex obj) ns)
    (htable : Table hashSize null obj.keyMap obj.key getHashIndex taken ns)
    (htaken : ∀ i, obj.Taken i → taken i) (habsent : ∀ n ∈ ns, obj.key n ≠ key)
    (hfree : ∃ i, i < hashSize ∧ obj.keyMap i = null)
    (hfill : ∀ slot, slot < hashSize → obj.keyMap slot = null →
      Reaches hashSize obj.Taken (getHashIndex key) slot →
      ∀ i, i < hashSize → taken i → obj.Taken i ∨ i = slot) (value : Int) (malloc : Malloc) :
    ∃ n slot obj', insert obj key value malloc = .ok obj' ∧ n ∉ ns ∧ slot < hashSize ∧
      obj.keyMap slot = null ∧ Reaches hashSize obj.Taken (getHashIndex key) slot ∧
      Inserted obj obj' ns slot n key value ∧ Buckets obj' (bucketIndex obj') (n :: ns) ∧
      Table hashSize null obj'.keyMap obj'.key getHashIndex obj'.Taken (n :: ns) := by
  obtain ⟨i, hi, hinull⟩ := hfree
  have hexists : ∃ slot, probe hashSize (fun idx => decide (obj.keyMap idx = null)) hashSize
      (getHashIndex key) = some slot := exists_probe (getHashIndex_lt key) hi (decide_eq_true hinull)
  obtain ⟨slot, hprobe⟩ := hexists
  obtain ⟨hslot, hslotnull, hreach⟩ := Table.reaches_of_probe getHashIndex_lt hprobe
  generalize hn : malloc.alloc obj.live = n
  have hlive : n ∉ obj.live := hn ▸ malloc.alloc_not_mem _
  have hnull : n ≠ null := hn ▸ malloc.alloc_ne_null _
  have hnns : n ∉ ns := fun hmem => hlive (hbuckets.nodes n hmem)
  have hother : ∀ m ∈ ns, m ≠ n := fun m hm heq => hnns (heq ▸ hm)
  obtain ⟨henter, hframe, hentry⟩ := enterBucket_placeNode hbuckets hlive hnull slot key value malloc
  generalize hdone : enterBucket (placeNode obj slot n key value) (getHashIndex 1) n malloc = done at *
  have hkeyMap : done.keyMap = Function.update obj.keyMap slot n := hframe.keyMap
  refine ⟨n, slot, { done with minFreq := 1, size := done.size + 1 }, ?_, hnns, hslot, hslotnull,
    hreach,
    ⟨hframe.capacity, congrArg (· + 1) hframe.size, rfl, hkeyMap, ?_, fun m hm => ?_⟩,
    ⟨henter.family, henter.covered, henter.sentinels, henter.nodes, henter.nonnull, henter.nodup⟩, ?_⟩
  · unfold insert
    rw [hn]
    dsimp only
    rw [show probe hashSize (fun idx => decide ((createNode obj n key value 1).keyMap idx = null))
      hashSize (getHashIndex key) = some slot from hprobe]
    dsimp only
    rw [← hdone]
    rfl
  · exact (hentry n List.mem_cons_self).trans entry_placeNode
  · exact (hentry m (List.mem_cons_of_mem _ hm)).trans (entry_placeNode_of_ne (hother m hm))
  · -- no slot on the way of another node is empty
    have htable' : Table hashSize null obj.keyMap (Function.update obj.key n key) getHashIndex taken
        ns :=
      htable.congr (fun _ => Iff.rfl) fun m hm => Function.update_of_ne (hother m hm) _ _
    have hins := htable'.insert hslot hslotnull hnull hnns
      (fun m hm => by
        rw [Function.update_self, Function.update_of_ne (hother m hm)]
        exact habsent m hm)
      (by
        rw [Function.update_self]
        exact hreach.mono fun e _ he => htaken e he)
    have hfull := hins.congr (fun _ => Iff.rfl) hframe.key
    rw [← hkeyMap] at hfull
    refine hfull.retake fun j hj _ hr => hr.mono fun e he htake => ?_
    show done.keyMap e ≠ null
    rw [hkeyMap]
    rcases hfill slot hslot hslotnull hreach e he htake with hold | rfl
    · have hes : e ≠ slot := fun heq => hold (heq ▸ hslotnull)
      rwa [Function.update_of_ne hes]
    · rwa [Function.update_self]

end Training.Lfu
