/-
Training.Lfu.RefinementTheorems — the cache is its reference.

A run whose operations fit the cache ends without a fault and does what
the reference does (`operations_refine_of_fits`). Without clashes of the
hash every operation fits, whatever the order (`buckets_exact`). Otherwise
a removed key can cut another one off (`lost_key`).
-/
import Training.Lib.Machine
import Training.Lfu.CacheTheorems

namespace Training.Lfu

open Training.Lib Training.Lib.Doubly Training.Lib.Probing

variable {obj obj' : LFUCache} {ns : List Nat} {n : Nat} {key value capacity : Int} {malloc : Malloc}
  {es : List (Reference.Entry Int Int)}

/-! ## Operations that fit -/

/-- The nodes with the key can be used once more. -/
def UseFits (obj : LFUCache) (key : Int) : Prop :=
  ∀ i, i < hashSize → obj.keyMap i ≠ null → obj.key (obj.keyMap i) = key → CanUse obj (obj.keyMap i)

def Stored (obj : LFUCache) (key : Int) : Prop :=
  ∃ i, i < hashSize ∧ obj.keyMap i ≠ null ∧ obj.key (obj.keyMap i) = key

/-- The node in front of the tail of the bucket of `minFreq`. -/
def nextVictim (obj : LFUCache) : Option Nat :=
  (obj.freqMap (getHashIndex obj.minFreq)).map fun l => obj.prev l.tail

/-- The slot is taken again by `key`, or no other node is behind it. -/
def Frees (obj : LFUCache) (key : Int) (slot : Nat) : Prop :=
  Reaches hashSize obj.Taken (getHashIndex key) slot ∨
    ∀ i, i < hashSize → obj.keyMap i ≠ null → i ≠ slot →
      ¬dist hashSize (getHashIndex (obj.key (obj.keyMap i))) slot <
        dist hashSize (getHashIndex (obj.key (obj.keyMap i))) i

def InsertFits (obj : LFUCache) (key : Int) : Prop :=
  if obj.size < obj.capacity then Clean obj 1 null
  else
    ∀ v ∈ nextVictim obj, Clean obj 1 v ∧
      ∀ slot, slot < hashSize → obj.keyMap slot = v → Frees obj key slot

def OperationFits (obj : LFUCache) : Event → Prop
  | .get key _ => obj.capacity = 0 ∨ Ends obj key ∧ UseFits obj key
  | .put key _ _ =>
      obj.capacity = 0 ∨ Ends obj key ∧ UseFits obj key ∧ (Stored obj key ∨ InsertFits obj key)

/-- The condition on a step of a run. -/
def Fits (s : State) (e : Event) : Prop := ∀ obj, s = .ok obj → OperationFits obj e

/-! ## A use -/

/-- Every node is in the first slot of its probe. -/
def AtHome (obj : LFUCache) : Prop :=
  ∀ i, i < hashSize → obj.keyMap i ≠ null → getHashIndex (obj.key (obj.keyMap i)) = i

/-- No other key of the cache has the home of `key`. -/
def Alone (obj : LFUCache) (ns : List Nat) (key : Int) : Prop :=
  ∀ n ∈ ns, getHashIndex (obj.key n) = getHashIndex key → obj.key n = key

theorem use_spec (h : Inv obj ns) (hn : n ∈ ns) (huse : CanUse obj n) (malloc : Malloc) :
    ∃ obj', increaseFreq obj n malloc = .ok obj' ∧ Inv obj' (n :: ns.erase n) ∧
      obj'.capacity = obj.capacity ∧ obj'.val n = obj.val n ∧
      entries obj' (n :: ns.erase n) = Reference.use (entry obj n) (entries obj ns) ∧
      (AtHome obj → AtHome obj') := by
  obtain ⟨obj', hok, hinv, hframe, hfreq, hother⟩ := increaseFreq_inv h hn huse malloc
  refine ⟨obj', hok, hinv, hframe.capacity, hframe.val n hn, ?_, fun hhome i hi hne => ?_⟩
  · unfold Reference.use
    rw [show (entry obj n).key = obj.key n from rfl,
      without_entries h.table.key_inj h.buckets.nodup hn]
    refine congrArg₂ List.cons ?_ (List.map_congr_left fun m hm => ?_)
    · unfold entry
      rw [hframe.key n hn, hframe.val n hn, hfreq]
    · obtain ⟨hmn, hmem⟩ := h.buckets.nodup.mem_erase_iff.mp hm
      unfold entry
      rw [hframe.key m hmem, hframe.val m hmem, hother m hmem hmn]
  · rw [hframe.keyMap] at hne ⊢
    rw [hframe.key _ (h.table.stored i hi hne)]
    exact hhome i hi hne

theorem lFUCacheGet_spec (h : Inv obj ns) (hfits : OperationFits obj (.get key malloc))
    (hzero : obj.capacity = 0 → ns = []) :
    ∃ obj' ns', lFUCacheGet obj key malloc =
        .ok (obj', (Reference.get (-1) key (entries obj ns)).2) ∧
      Inv obj' ns' ∧ obj'.capacity = obj.capacity ∧
      entries obj' ns' = (Reference.get (-1) key (entries obj ns)).1 ∧ (AtHome obj → AtHome obj') := by
  unfold lFUCacheGet
  by_cases hcap : obj.capacity = 0
  · rw [if_pos hcap, hzero hcap]
    exact ⟨obj, [], rfl, hzero hcap ▸ h, rfl, rfl, id⟩
  · rw [if_neg hcap]
    obtain ⟨hends, huse⟩ := hfits.resolve_left hcap
    rcases findSlot_cases h.table hends with ⟨i, n, hfind, hslot, hi, hn, rfl⟩ |
      ⟨i, hfind, hnull, habsent⟩
    · have hne : n ≠ null := fun heq => h.table.nonempty (heq ▸ hn)
      obtain ⟨obj', hok, hinv, hcap', hval, hentries, hhome⟩ :=
        use_spec h hn (hslot ▸ huse i hi (hslot ▸ hne) (by rw [hslot])) malloc
      refine ⟨obj', n :: ns.erase n, ?_, hinv, hcap', ?_, hhome⟩
      · rw [hfind]
        dsimp only
        rw [hslot, if_neg hne, hok]
        unfold Reference.get
        rw [find_some h.table.key_inj hn]
        dsimp only
        rw [hval]
        rfl
      · unfold Reference.get
        rw [find_some h.table.key_inj hn]
        exact hentries
    · refine ⟨obj, ns, ?_, h, rfl, ?_, id⟩
      · rw [hfind]
        dsimp only
        rw [if_pos hnull]
        unfold Reference.get
        rw [find_none habsent]
      · unfold Reference.get
        rw [find_none habsent]

/-! ## A new node -/

theorem inv_of_inserted {n slot : Nat} (hsize : obj.size = ns.length)
    (hcounts : ∀ m ∈ ns, 1 ≤ obj.freq m)
    (hclash : ∀ m ∈ ns, ∀ k ∈ ns, bucketIndex obj m = bucketIndex obj k → obj.freq m = obj.freq k)
    (hclean : ∀ m ∈ ns, getHashIndex (obj.freq m) = getHashIndex 1 → obj.freq m = 1)
    (hins : Inserted obj obj' ns slot n key value)
    (hbuckets : Buckets obj' (bucketIndex obj') (n :: ns))
    (htable : Table hashSize null obj'.keyMap obj'.key getHashIndex obj'.Taken (n :: ns)) :
    Inv obj' (n :: ns) := by
  have hn : obj'.freq n = 1 := congrArg Reference.Entry.count hins.entry
  have hns : ∀ m ∈ ns, obj'.freq m = obj.freq m :=
    fun m hm => congrArg Reference.Entry.count (hins.entries m hm)
  have hshared : ∀ m ∈ ns, bucketIndex obj' m = bucketIndex obj' n → obj'.freq m = obj'.freq n := by
    intro m hm hidx
    unfold bucketIndex at hidx
    rw [hns m hm, hn] at hidx ⊢
    exact hclean m hm hidx
  have hcounts' : ∀ m ∈ n :: ns, 1 ≤ obj'.freq m := by
    intro m hm
    rcases List.mem_cons.mp hm with rfl | hm
    · exact Int.le_of_eq hn.symm
    · rw [hns m hm]
      exact hcounts m hm
  refine ⟨hbuckets, htable, ?_, fun m hm k hk hidx => ?_, hcounts', ?_,
    fun _ => ⟨n, List.mem_cons_self, hn.trans hins.minFreq.symm⟩⟩
  · rw [hins.size, hsize]
    rfl
  · rcases List.mem_cons.mp hm with rfl | hm'
    · rcases List.mem_cons.mp hk with rfl | hk'
      · rfl
      · exact (hshared k hk' hidx.symm).symm
    · rcases List.mem_cons.mp hk with rfl | hk'
      · exact hshared m hm' hidx
      · unfold bucketIndex at hidx
        rw [hns m hm', hns k hk'] at hidx ⊢
        exact hclash m hm' k hk' hidx
  · rw [hins.minFreq]
    exact hcounts'

theorem entries_of_inserted {slot : Nat} (hins : Inserted obj obj' ns slot n key value) :
    entries obj' (n :: ns) = ⟨key, value, 1⟩ :: entries obj ns :=
  congrArg₂ List.cons hins.entry (List.map_congr_left hins.entries)

/-- Alone with its home, a new key goes there. -/
theorem atHome_of_inserted {slot : Nat} {taken : Nat → Prop}
    (htable : Table hashSize null obj.keyMap obj.key getHashIndex taken ns)
    (habsent : ∀ m ∈ ns, obj.key m ≠ key)
    (hreach : Reaches hashSize obj.Taken (getHashIndex key) slot)
    (hins : Inserted obj obj' ns slot n key value) (hhome : AtHome obj) (halone : Alone obj ns key) :
    AtHome obj' := by
  have hkeyn : obj'.key n = key := congrArg Reference.Entry.key hins.entry
  have hslothome : getHashIndex key = slot := by
    by_contra hne
    have hpos := dist_pos (getHashIndex_lt key) (Ne.symm hne)
    have htaken := hreach _ (getHashIndex_lt key) (by rwa [dist_self])
    have hmem := htable.stored _ (getHashIndex_lt key) htaken
    exact habsent _ hmem (halone _ hmem (hhome _ (getHashIndex_lt key) htaken))
  intro i hi hne
  rw [hins.keyMap] at hne ⊢
  by_cases his : i = slot
  · rw [his, Function.update_self, hkeyn, hslothome]
  · rw [Function.update_of_ne his] at hne ⊢
    have hkey : obj'.key (obj.keyMap i) = obj.key (obj.keyMap i) :=
      congrArg Reference.Entry.key (hins.entries _ (htable.stored i hi hne))
    rw [hkey]
    exact hhome i hi hne

/-- `insert` into a cache with room. -/
theorem insert_inv (h : Inv obj ns) (hclean : Clean obj 1 null) (habsent : ∀ n ∈ ns, obj.key n ≠ key)
    (hfree : ∃ i, i < hashSize ∧ obj.keyMap i = null) (value : Int) (malloc : Malloc) :
    ∃ obj' n, insert obj key value malloc = .ok obj' ∧ Inv obj' (n :: ns) ∧
      obj'.capacity = obj.capacity ∧ entries obj' (n :: ns) = ⟨key, value, 1⟩ :: entries obj ns ∧
      (AtHome obj → Alone obj ns key → AtHome obj') := by
  obtain ⟨n, slot, obj', hok, -, -, -, hreach, hins, hbuckets, htable⟩ :=
    insert_spec h.buckets h.table (fun _ hi => hi) habsent hfree
      (fun _ _ _ _ _ _ hi => Or.inl hi) value malloc
  refine ⟨obj', n, hok, ?_, hins.capacity, entries_of_inserted hins, fun hhome halone =>
    atHome_of_inserted h.table habsent hreach hins hhome halone⟩
  exact inv_of_inserted h.size h.counts h.clash
    (fun m hm hidx => clean_nodes h.table hclean hm (fun heq => h.table.nonempty (heq ▸ hm)) hidx)
    hins hbuckets htable

theorem Evicted.taken_iff {slot i : Nat} (h : Evicted obj obj' slot) :
    obj'.Taken i ↔ obj.Taken i ∧ i ≠ slot := by
  unfold LFUCache.Taken
  rw [h.keyMap]
  by_cases his : i = slot
  · simp [his]
  · simp [his]

/-- The slot of the victim is free for the new key, or no other node needs it. -/
theorem insert_evicted {obj₁ : LFUCache} {slot : Nat} (hevicted : Evicted obj obj₁ slot)
    (hslot : slot < hashSize) (hfrees : Frees obj key slot)
    (hbuckets : Buckets obj₁ (bucketIndex obj₁) ns)
    (htable : Table hashSize null obj₁.keyMap obj₁.key getHashIndex obj.Taken ns)
    (habsent : ∀ m ∈ ns, obj₁.key m ≠ key) (value : Int) (malloc : Malloc) :
    ∃ n slot' obj', insert obj₁ key value malloc = .ok obj' ∧
      Reaches hashSize obj₁.Taken (getHashIndex key) slot' ∧
      Inserted obj₁ obj' ns slot' n key value ∧ Buckets obj' (bucketIndex obj') (n :: ns) ∧
      Table hashSize null obj'.keyMap obj'.key getHashIndex obj'.Taken (n :: ns) := by
  have hslotnull : obj₁.keyMap slot = null := by rw [hevicted.keyMap, Function.update_self]
  have htaken : ∀ i, obj.Taken i → obj₁.Taken i ∨ i = slot := by
    intro i hi
    by_cases his : i = slot
    · exact Or.inr his
    · exact Or.inl (hevicted.taken_iff.mpr ⟨hi, his⟩)
  rcases hfrees with hrefill | hbehind
  · -- the probe for the new key ends at the slot of the victim
    have hfill : ∀ slot', slot' < hashSize → obj₁.keyMap slot' = null →
        Reaches hashSize obj₁.Taken (getHashIndex key) slot' →
        ∀ i, i < hashSize → obj.Taken i → obj₁.Taken i ∨ i = slot' := by
      intro slot' hslot' hnull' hreach' i hi htake
      rcases htaken i htake with hi₁ | rfl
      · exact Or.inl hi₁
      · right
        by_contra hne'
        rcases Nat.lt_trichotomy (dist hashSize (getHashIndex key) i)
          (dist hashSize (getHashIndex key) slot') with hlt | heq | hgt
        · exact hreach' i hi hlt hslotnull
        · exact hne' (dist_inj (getHashIndex_lt key) hi hslot' heq)
        · have htake' := hrefill slot' hslot' hgt
          rcases htaken slot' htake' with hold | heq
          · exact hold hnull'
          · exact hne' heq.symm
    obtain ⟨n, slot', obj', hok, -, -, -, hrest⟩ :=
      insert_spec hbuckets htable (fun i hi => (hevicted.taken_iff.mp hi).1) habsent
        ⟨slot, hslot, hslotnull⟩ hfill value malloc
    exact ⟨n, slot', obj', hok, hrest⟩
  · -- no other node is behind the slot
    have htable₁ : Table hashSize null obj₁.keyMap obj₁.key getHashIndex obj₁.Taken ns := by
      refine htable.retake fun i hi hmem hr e he hlt => (htaken e (hr e he hlt)).resolve_right ?_
      rintro rfl
      have hi₁ : obj₁.Taken i := fun heq => htable.nonempty (heq ▸ hmem)
      obtain ⟨hiold, hie⟩ := hevicted.taken_iff.mp hi₁
      rw [hevicted.keyMap, Function.update_of_ne hie, hevicted.key] at hlt
      exact hbehind i hi hiold hie hlt
    obtain ⟨n, slot', obj', hok, -, -, -, hrest⟩ :=
      insert_spec hbuckets htable₁ (fun i hi => hi) habsent ⟨slot, hslot, hslotnull⟩
        (fun _ _ _ _ _ _ hi => Or.inl hi) value malloc
    exact ⟨n, slot', obj', hok, hrest⟩

/-- `evict` and `insert`, for a full cache. -/
theorem evict_insert_inv (h : Inv obj ns) (hne : ns ≠ []) (habsent : ∀ n ∈ ns, obj.key n ≠ key)
    (hfits : ∀ v ∈ nextVictim obj, Clean obj 1 v ∧
      ∀ slot, slot < hashSize → obj.keyMap slot = v → Frees obj key slot) (value : Int)
    (malloc : Malloc) :
    ∃ v obj₁ obj' n, evict obj = .ok (obj₁, obj.key v) ∧ insert obj₁ key value malloc = .ok obj' ∧
      Inv obj' (n :: ns.erase v) ∧ obj'.capacity = obj.capacity ∧
      Reference.evict (entries obj ns) = (entries obj (ns.erase v), some (obj.key v)) ∧
      entries obj' (n :: ns.erase v) = ⟨key, value, 1⟩ :: entries obj (ns.erase v) ∧
      (AtHome obj → Alone obj ns key → AtHome obj') := by
  obtain ⟨l, v, slot, obj₁, hl, hv, hvns, hlast, hslot, hslotv, hevict, hevicted, hbuckets, htable⟩ :=
    evict_spec h hne
  obtain ⟨hclean, hfrees⟩ := hfits v (by simp [nextVictim, hl, hv])
  have hsub : ∀ m ∈ ns.erase v, m ∈ ns ∧ m ≠ v := by
    intro m hm
    obtain ⟨hmv, hmem⟩ := h.buckets.nodup.mem_erase_iff.mp hm
    exact ⟨hmem, hmv⟩
  have habsent₁ : ∀ m ∈ ns.erase v, obj₁.key m ≠ key := by
    rw [hevicted.key]
    exact fun m hm => habsent m (hsub m hm).1
  obtain ⟨n, slot', obj', hok, hreach', hins, hbuckets', htable'⟩ :=
    insert_evicted hevicted hslot (hfrees slot hslot hslotv) hbuckets htable habsent₁ value malloc
  have hentries₁ : entries obj₁ (ns.erase v) = entries obj (ns.erase v) := by
    refine List.map_congr_left fun m _ => ?_
    unfold entry
    rw [hevicted.key, hevicted.val, hevicted.freq]
  refine ⟨v, obj₁, obj', n, hevict, hok, ?_, hins.capacity.trans hevicted.capacity, ?_,
    hentries₁ ▸ entries_of_inserted hins, fun hhome halone => ?_⟩
  · refine inv_of_inserted ?_ ?_ ?_ ?_ hins hbuckets' htable'
    · have hlen := (List.perm_cons_erase hvns).length_eq
      rw [hevicted.size, h.size, hlen, List.length_cons]
      omega
    · rw [hevicted.freq]
      exact fun m hm => h.counts m (hsub m hm).1
    · unfold bucketIndex
      rw [hevicted.freq]
      exact fun m hm k hk hidx => h.clash m (hsub m hm).1 k (hsub k hk).1 hidx
    · rw [hevicted.freq]
      exact fun m hm hidx => clean_nodes h.table hclean (hsub m hm).1 (hsub m hm).2 hidx
  · unfold Reference.evict
    rw [victim_entries h, hlast]
    simp only [Option.map_some]
    rw [show (entry obj v).key = obj.key v from rfl,
      without_entries h.table.key_inj h.buckets.nodup hvns]
  · have hhome₁ : AtHome obj₁ := by
      intro i hi hi₁
      obtain ⟨hiold, hie⟩ := hevicted.taken_iff.mp hi₁
      rw [hevicted.keyMap, Function.update_of_ne hie, hevicted.key]
      exact hhome i hi hiold
    have halone₁ : Alone obj₁ (ns.erase v) key := by
      unfold Alone
      rw [hevicted.key]
      exact fun m hm => halone m (hsub m hm).1
    exact atHome_of_inserted htable habsent₁ hreach' hins hhome₁ halone₁

/-! ## Writes -/

/-- The node that `put` has written a value into. -/
def written (obj : LFUCache) (n : Nat) (value : Int) : LFUCache :=
  { obj with val := Function.update obj.val n value }

theorem inv_written (h : Inv obj ns) (n : Nat) (value : Int) : Inv (written obj n value) ns where
  buckets := ⟨h.buckets.family, h.buckets.covered, h.buckets.sentinels, h.buckets.nodes,
    h.buckets.nonnull, h.buckets.nodup⟩
  table := ⟨h.table.stored, h.table.placed, h.table.slot_inj, h.table.key_inj, h.table.nonempty⟩
  size := h.size
  clash := h.clash
  counts := h.counts
  least := h.least
  attained := h.attained

theorem without_written (hns : ns.Nodup) :
    entries (written obj n value) (ns.erase n) = entries obj (ns.erase n) := by
  refine List.map_congr_left fun m hm => ?_
  have hmn : m ≠ n := (hns.mem_erase_iff.mp hm).1
  simp [entry, written, Function.update_of_ne hmn]

theorem lFUCachePut_spec (h : Inv obj ns) (hfits : OperationFits obj (.put key value malloc))
    (hcapacity : 0 ≤ obj.capacity) :
    ∃ obj' ns', lFUCachePut obj key value malloc =
        .ok (obj', (Reference.put obj.capacity key value (entries obj ns)).2) ∧
      Inv obj' ns' ∧ obj'.capacity = obj.capacity ∧
      entries obj' ns' = (Reference.put obj.capacity key value (entries obj ns)).1 ∧
      (AtHome obj → Alone obj ns key → AtHome obj') := by
  unfold lFUCachePut Reference.put
  by_cases hcap : obj.capacity = 0
  · rw [if_pos hcap, if_pos hcap]
    exact ⟨obj, ns, rfl, h, rfl, rfl, fun hhome _ => hhome⟩
  · rw [if_neg hcap, if_neg hcap]
    obtain ⟨hends, huse, hinsert⟩ := hfits.resolve_left hcap
    rcases findSlot_cases h.table hends with ⟨i, n, hfind, hslot, hi, hn, rfl⟩ |
      ⟨i, hfind, hnull, habsent⟩
    · have hne : n ≠ null := fun heq => h.table.nonempty (heq ▸ hn)
      have hcan : CanUse (written obj n value) n :=
        hslot ▸ huse i hi (hslot ▸ hne) (by rw [hslot])
      obtain ⟨obj', hok, hinv, hcap', -, hentries, hhome⟩ :=
        use_spec (inv_written h n value) hn hcan malloc
      refine ⟨obj', n :: ns.erase n, ?_, hinv, hcap', ?_, fun hhome' _ => hhome hhome'⟩
      · rw [hfind, find_some h.table.key_inj hn]
        dsimp only
        rw [hslot, if_pos hne]
        rw [show ({ obj with val := Function.update obj.val n value } : LFUCache) =
          written obj n value from rfl, hok]
        rfl
      · rw [hentries, find_some h.table.key_inj hn]
        unfold Reference.use
        dsimp only
        have hwithout := without_entries (inv_written h n value).table.key_inj h.buckets.nodup hn
        rw [without_written h.buckets.nodup,
          ← without_entries h.table.key_inj h.buckets.nodup hn] at hwithout
        refine congrArg₂ List.cons ?_ hwithout
        simp [entry, written]
    · have hstored : ¬Stored obj key := by
        rintro ⟨j, hj, hjne, hjkey⟩
        exact habsent _ (h.table.stored j hj hjne) hjkey
      have hinsert := hinsert.resolve_left hstored
      have hlen : ((entries obj ns).length : Int) = obj.size := by
        rw [h.size, entries, List.length_map]
      rw [hfind, find_none habsent, hlen]
      dsimp only
      rw [if_neg (fun hnot => hnot hnull)]
      unfold InsertFits at hinsert
      by_cases hfull : obj.capacity ≤ obj.size
      · rw [if_neg (Int.not_lt.mpr hfull)] at hinsert
        have hne : ns ≠ [] := by
          rintro rfl
          have hsize := h.size
          rw [List.length_nil] at hsize
          omega
        obtain ⟨v, obj₁, obj', n, hevict, hok, hinv, hcap', hrefevict, hentries, hhome⟩ :=
          evict_insert_inv h hne habsent hinsert value malloc
        rw [if_pos hfull, if_pos hfull, hrefevict, hevict]
        dsimp only
        rw [hok]
        exact ⟨obj', n :: ns.erase v, rfl, hinv, hcap', hentries, hhome⟩
      · rw [if_pos (Int.not_le.mp hfull)] at hinsert
        have hfree : ∃ i, i < hashSize ∧ obj.keyMap i = null := by
          obtain ⟨j, hj, hjstop⟩ := hends
          rcases hjstop with hjnull | hjkey
          · exact ⟨j, hj, hjnull⟩
          · by_cases hjne : obj.keyMap j = null
            · exact ⟨j, hj, hjne⟩
            · exact absurd ⟨j, hj, hjne, hjkey⟩ hstored
        obtain ⟨obj', n, hok, hinv, hcap', hentries, hhome⟩ :=
          insert_inv h hinsert habsent hfree value malloc
        rw [if_neg hfull, if_neg hfull, hok]
        exact ⟨obj', n :: ns, rfl, hinv, hcap', hentries, hhome⟩

/-! ## The reference -/

def Event.op : Event → Reference.Op Int Int
  | .get key _ => .get key
  | .put key value _ => .put key value

/-- What a caller of the operation sees. -/
def answer (s : State) : Event → Except Fault (Reference.Answer Int Int)
  | .get key malloc => s.bind fun obj => (lFUCacheGet obj key malloc).map fun r => .value r.2
  | .put key value malloc =>
      s.bind fun obj => (lFUCachePut obj key value malloc).map fun r => .victim r.2

/-- The entries of the reference are the nodes of the cache. -/
structure Related (capacity : Int) (obj : LFUCache) (ns : List Nat)
    (es : List (Reference.Entry Int Int)) : Prop where
  inv : Inv obj ns
  bound : obj.capacity = capacity
  nonneg : 0 ≤ capacity
  zero : capacity = 0 → es = []
  same : entries obj ns = es

theorem Related.mem (h : Related capacity obj ns es) (hn : n ∈ ns) : entry obj n ∈ es := by
  rw [← h.same]
  exact List.mem_map_of_mem hn

theorem related_step (h : Related capacity obj ns es) (e : Event) (hfits : OperationFits obj e) :
    ∃ obj' ns', step (.ok obj) e = .ok obj' ∧
      Related capacity obj' ns' (Reference.step (-1) capacity es e.op) ∧
      answer (.ok obj) e = .ok (Reference.answer (-1) capacity es e.op) ∧
      (AtHome obj → (∀ n ∈ ns, getHashIndex (obj.key n) = getHashIndex e.op.key →
        obj.key n = e.op.key) → AtHome obj') := by
  obtain ⟨hinv, rfl, hnonneg, hzero, rfl⟩ := h
  cases e with
  | get key malloc =>
    obtain ⟨obj', ns', hok, hinv', hcap, hentries, hhome⟩ := lFUCacheGet_spec hinv hfits fun hcap =>
      List.map_eq_nil_iff.mp (hzero hcap)
    refine ⟨obj', ns', ?_, ⟨hinv', hcap, hnonneg, fun hcap => ?_, hentries⟩, ?_,
      fun hhome' _ => hhome hhome'⟩
    · exact congrArg (Except.map Prod.fst) hok
    · rw [hzero hcap]
      rfl
    · exact congrArg (Except.map _) hok
  | put key value malloc =>
    obtain ⟨obj', ns', hok, hinv', hcap, hentries, hhome⟩ := lFUCachePut_spec hinv hfits hnonneg
    refine ⟨obj', ns', ?_, ⟨hinv', hcap, hnonneg, fun hcap => ?_, hentries⟩, ?_, hhome⟩
    · exact congrArg (Except.map Prod.fst) hok
    · rw [hzero hcap]
      exact congrArg Prod.fst (if_pos hcap)
    · exact congrArg (Except.map _) hok

/-! ## Runs -/

/-- The reference never faults. -/
def referenceAnswer (capacity : Int) (es : List (Reference.Entry Int Int)) (op : Reference.Op Int Int) :
    Except Fault (Reference.Answer Int Int) :=
  .ok (Reference.answer (-1) capacity es op)

theorem related_create (hcapacity : 0 ≤ capacity) (key val freq : Nat → Int) (prev next : Nat → Nat) :
    Related capacity (lFUCacheCreate capacity key val freq prev next) [] [] where
  inv :=
    { buckets :=
        { family := ⟨fun _ _ h => (nomatch h), fun _ _ h => (nomatch h), fun _ _ _ _ h => (nomatch h)⟩
          covered := fun _ h => nomatch h
          sentinels := fun _ _ h => nomatch h
          nodes := fun _ h => nomatch h
          nonnull := List.not_mem_nil
          nodup := List.nodup_nil }
      table :=
        { stored := fun _ _ h => absurd rfl h
          placed := fun _ h => nomatch h
          slot_inj := fun _ _ _ _ h => absurd rfl h
          key_inj := fun _ h => nomatch h
          nonempty := List.not_mem_nil }
      size := rfl
      clash := fun _ h => nomatch h
      counts := fun _ h => nomatch h
      least := fun _ h => nomatch h
      attained := fun h => absurd rfl h }
  bound := rfl
  nonneg := hcapacity
  zero := fun _ => rfl
  same := rfl

/-- Along operations that fit, the cache is in step with its reference. -/
theorem run_related_of_fits (h : Related capacity obj ns es) {events : List Event}
    (hfits : Along step Fits (.ok obj) events) :
    (∃ obj' ns', run step (.ok obj) events = .ok obj' ∧
      Related capacity obj' ns' (run (Reference.step (-1) capacity) es (events.map Event.op))) ∧
    trace step answer (.ok obj) events =
      trace (Reference.step (-1) capacity) (referenceAnswer capacity) es (events.map Event.op) := by
  have hstep : ∀ s es e, (∃ obj ns, s = .ok obj ∧ Related capacity obj ns es) → Fits s e →
      (∃ obj' ns', step s e = .ok obj' ∧
        Related capacity obj' ns' (Reference.step (-1) capacity es e.op)) ∧
      answer s e = referenceAnswer capacity es e.op := by
    rintro s es e ⟨obj, ns, rfl, hrel⟩ hfit
    obtain ⟨obj', ns', hok, hrel', hanswer, -⟩ := related_step hrel e (hfit obj rfl)
    exact ⟨⟨obj', ns', hok, hrel'⟩, hanswer⟩
  have hkeep := fun s es e hrel hfit => (hstep s es e hrel hfit).1
  exact ⟨run_related hkeep hfits ⟨obj, ns, rfl, h⟩,
    trace_related hkeep (fun s es e hrel hfit => (hstep s es e hrel hfit).2) hfits ⟨obj, ns, rfl, h⟩⟩

/-- The table has the entries of the reference. -/
theorem Related.stored_iff (h : Related capacity obj ns es) (key value : Int) :
    (∃ i, i < hashSize ∧ obj.keyMap i ≠ null ∧ obj.key (obj.keyMap i) = key ∧
      obj.val (obj.keyMap i) = value) ↔ ∃ e ∈ es, e.key = key ∧ e.value = value := by
  rw [← h.same]
  constructor
  · rintro ⟨i, hi, hne, hkey, hval⟩
    exact ⟨_, List.mem_map_of_mem (h.inv.table.stored i hi hne), hkey, hval⟩
  · rintro ⟨e, he, hkey, hval⟩
    obtain ⟨n, hn, rfl⟩ := List.mem_map.mp he
    obtain ⟨i, hi, rfl, -⟩ := h.inv.table.placed n hn
    exact ⟨i, hi, fun heq => h.inv.table.nonempty (heq ▸ hn), hkey, hval⟩

/-- In a run whose operations fit the cache each of them ends, reads return
what the reference returns, the same keys are removed, and the table has the
entries of the reference. -/
theorem operations_refine_of_fits (hcapacity : 0 ≤ capacity) (key val freq : Nat → Int)
    (prev next : Nat → Nat) {events : List Event}
    (hfits : Along step Fits (.ok (lFUCacheCreate capacity key val freq prev next)) events) :
    let init : State := .ok (lFUCacheCreate capacity key val freq prev next)
    let ops := events.map Event.op
    trace step answer init events =
        trace (Reference.step (-1) capacity) (referenceAnswer capacity) [] ops ∧
      ∃ obj, run step init events = .ok obj ∧ ∀ key value,
        (∃ i, i < hashSize ∧ obj.keyMap i ≠ null ∧ obj.key (obj.keyMap i) = key ∧
          obj.val (obj.keyMap i) = value) ↔
        ∃ e ∈ run (Reference.step (-1) capacity) [] ops, e.key = key ∧ e.value = value := by
  obtain ⟨⟨obj, ns, hok, hrel⟩, htrace⟩ :=
    run_related_of_fits (related_create hcapacity key val freq prev next) hfits
  exact ⟨htrace, obj, hok, hrel.stored_iff⟩

/-- A cache in a memory of zeros. -/
def blank (capacity : Int) : LFUCache :=
  lFUCacheCreate capacity (fun _ => 0) (fun _ => 0) (fun _ => 0) (fun _ => 0) fun _ => 0

/-- The keys 1 and 20002 have one home, and 20002 is lost when 1 is removed. -/
theorem lost_key :
    let events : List Event :=
      [.put 1 1 .next, .put 20002 2 .next, .put 3 3 .next, .get 20002 .next]
    trace step answer (.ok (blank 2)) events ≠
      trace (Reference.step (-1) 2) (referenceAnswer 2) [] (events.map Event.op) := by
  intro events h
  have hlast : some (Except.ok (.value (-1)) : Except Fault (Reference.Answer Int Int)) =
      some (.ok (.value 2)) := congrArg List.getLast? h
  simp at hlast

/-! ## Without clashes -/

theorem getHashIndex_of_lt {count : Int} (hlow : 0 ≤ count) (hhigh : count < hashSize) :
    (getHashIndex count : Int) = count := by
  rw [getHashIndex_eq, Int.emod_eq_of_lt hlow hhigh]

theorem getHashIndex_inj {a b : Int} (ha : 0 ≤ a) (ha' : a < hashSize) (hb : 0 ≤ b)
    (hb' : b < hashSize) (h : getHashIndex a = getHashIndex b) : a = b := by
  rw [← getHashIndex_of_lt ha ha', ← getHashIndex_of_lt hb hb', h]

/-- An operation on a key whose home is its own, while the counts are small. -/
theorem operationFits_of_alone (h : Inv obj ns) (hhome : AtHome obj) (e : Event)
    (halone : Alone obj ns e.op.key) (hcounts : ∀ n ∈ ns, obj.freq n < 20000) :
    OperationFits obj e := by
  have hsize : (hashSize : Int) = 20001 := rfl
  have hnodes : ∀ i, i < hashSize → obj.keyMap i ≠ null →
      1 ≤ obj.freq (obj.keyMap i) ∧ obj.freq (obj.keyMap i) < 20000 := by
    intro i hi hne
    have hmem := h.table.stored i hi hne
    exact ⟨h.counts _ hmem, hcounts _ hmem⟩
  have hclean : ∀ count node, 1 ≤ count → count ≤ 20000 → Clean obj count node := by
    intro count node hlow hhigh i hi hne _ hidx
    obtain ⟨hlow', hhigh'⟩ := hnodes i hi hne
    exact getHashIndex_inj (by omega) (by omega) (by omega) (by omega) hidx
  have huse : UseFits obj e.op.key := by
    intro i hi hne _
    obtain ⟨hlow, hhigh⟩ := hnodes i hi hne
    refine ⟨fun heq => ?_, hclean _ _ (by omega) (by omega)⟩
    rw [heq] at hhigh
    exact absurd hhigh (by decide)
  have hends : Ends obj e.op.key := by
    refine ⟨getHashIndex e.op.key, getHashIndex_lt _, ?_⟩
    by_cases hne : obj.keyMap (getHashIndex e.op.key) = null
    · exact Or.inl hne
    · have hstored := h.table.stored _ (getHashIndex_lt _) hne
      exact Or.inr (halone _ hstored (hhome _ (getHashIndex_lt _) hne))
  have hinsert : InsertFits obj e.op.key := by
    unfold InsertFits
    split
    · exact hclean 1 null (by decide) (by decide)
    · refine fun v _ => ⟨hclean 1 v (by decide) (by decide), fun slot _ _ => Or.inr ?_⟩
      intro i hi hne _
      rw [hhome i hi hne, dist_self]
      exact Nat.not_lt_zero _
  cases e with
  | get key malloc => exact Or.inr ⟨hends, huse⟩
  | put key value malloc => exact Or.inr ⟨hends, huse, Or.inr hinsert⟩

/-- Operations on keys that have different homes fit, as long as none of them
is used too often; `bound` counts the operations on each key before. -/
theorem fits_of_distinct {K : Int → Prop} (bound : Int → Nat)
    (hK : ∀ a b, K a → K b → getHashIndex a = getHashIndex b → a = b)
    (h : Related capacity obj ns es) (hhome : AtHome obj)
    (hes : ∀ e ∈ es, e.count ≤ bound e.key) (hbound : ∀ key, 0 < bound key → K key)
    {events : List Event} (hevents : ∀ e ∈ events, K e.op.key)
    (htouches : ∀ key, bound key + events.countP (fun e => e.op.key = key) < 20000) :
    Along step Fits (.ok obj) events ∧
      ∃ obj' ns', run step (.ok obj) events = .ok obj' ∧
        Related capacity obj' ns' (run (Reference.step (-1) capacity) es (events.map Event.op)) ∧
        ∀ n ∈ ns', obj'.freq n < 20000 := by
  have hcounts : ∀ n ∈ ns, obj.freq n ≤ bound (obj.key n) := by
    intro n hn
    exact hes _ (h.mem hn)
  have hsmall : ∀ n ∈ ns, obj.freq n < 20000 := by
    intro n hn
    have hle := hcounts n hn
    have hlt := htouches (obj.key n)
    omega
  have hnodes : ∀ n ∈ ns, K (obj.key n) := by
    intro n hn
    have hle := hcounts n hn
    have hpos := h.inv.counts n hn
    exact hbound _ (by omega)
  induction events generalizing obj ns es bound with
  | nil => exact ⟨trivial, obj, ns, rfl, h, hsmall⟩
  | cons e events ih =>
    have hKe := hevents e List.mem_cons_self
    have halone : Alone obj ns e.op.key := fun n hn heq => hK _ _ (hnodes n hn) hKe heq
    have hfits := operationFits_of_alone h.inv hhome e halone hsmall
    obtain ⟨obj', ns', hok, hrel, -, hhome'⟩ := related_step h e hfits
    have hes' := Reference.count_le_step hes (-1) capacity e.op
    have hbound' : ∀ key, 0 < Reference.oneMore bound e.op.key key → K key := by
      intro key hpos
      unfold Reference.oneMore at hpos
      split at hpos
      · rename_i heq
        exact heq ▸ hKe
      · exact hbound key hpos
    have htouches' : ∀ key, Reference.oneMore bound e.op.key key +
        events.countP (fun e => e.op.key = key) < 20000 := by
      intro key
      have hlt := htouches key
      rw [List.countP_cons] at hlt
      unfold Reference.oneMore
      simp only [decide_eq_true_eq] at hlt
      omega
    have hcounts' : ∀ n ∈ ns', obj'.freq n ≤ Reference.oneMore bound e.op.key (obj'.key n) := by
      intro n hn
      exact hes' _ (hrel.mem hn)
    obtain ⟨halong, hrun⟩ := ih _ hrel (hhome' hhome halone) hes' hbound'
      (fun e' he' => hevents e' (List.mem_cons_of_mem _ he')) htouches' hcounts'
      (fun n hn => by
        have hle := hcounts' n hn
        have hlt := htouches' (obj'.key n)
        omega)
      (fun n hn => by
        have hle := hcounts' n hn
        have hpos := hrel.inv.counts n hn
        exact hbound' _ (by omega))
    refine ⟨⟨fun obj₀ hobj₀ => ?_, by rwa [hok]⟩, by rwa [run_cons, hok]⟩
    cases hobj₀
    exact hfits

/-- The buckets of a cache whose nodes are `ns`, the one used last in front. -/
structure BucketsExact (obj : LFUCache) (ns : List Nat) : Prop where
  stored : ∀ n, n ∈ ns ↔ n ≠ null ∧ ∃ i, i < hashSize ∧ obj.keyMap i = n
  nonempty : ns ≠ [] → (ns.filter fun n => obj.freq n = obj.minFreq) ≠ []
  least : ∀ n ∈ ns, obj.minFreq ≤ obj.freq n
  range : ∀ n ∈ ns, 0 < obj.freq n ∧ obj.freq n < hashSize
  bucket : ∀ b, b < hashSize → ∀ l, obj.freqMap b = some l →
    Between obj.next obj.prev l.head l.tail (ns.filter fun n => obj.freq n = b)
  missing : ∀ b, b < hashSize → obj.freqMap b = none → ∀ n ∈ ns, obj.freq n ≠ b

theorem bucketsExact_of_small (h : Inv obj ns) (hcounts : ∀ n ∈ ns, obj.freq n < 20000) :
    BucketsExact obj ns := by
  have hsize : (hashSize : Int) = 20001 := rfl
  have hindex : ∀ n ∈ ns, (bucketIndex obj n : Int) = obj.freq n := by
    intro n hn
    have hlow := h.counts n hn
    have hhigh := hcounts n hn
    exact getHashIndex_of_lt (by omega) (by omega)
  refine ⟨fun n => ⟨fun hn => ?_, ?_⟩, fun hne => ?_, h.least, fun n hn => ?_, fun b _ l hl => ?_,
    fun b _ hb n hn heq => ?_⟩
  · obtain ⟨i, hi, hslot, -⟩ := h.table.placed n hn
    exact ⟨fun heq => h.table.nonempty (heq ▸ hn), i, hi, hslot⟩
  · rintro ⟨hne, i, hi, rfl⟩
    exact h.table.stored i hi hne
  · obtain ⟨m, hm, hmin⟩ := h.attained hne
    exact List.ne_nil_of_mem (List.mem_filter.mpr ⟨hm, decide_eq_true hmin⟩)
  · have hlow := h.counts n hn
    have hhigh := hcounts n hn
    omega
  · have hbetween := h.buckets.family.between _ _ (deques_of_some hl)
    have hfilter : (ns.filter fun n => bucketIndex obj n = b) = ns.filter fun n => obj.freq n = b := by
      refine List.filter_congr fun n hn => decide_eq_decide.mpr ?_
      rw [← hindex n hn, Int.natCast_inj]
    rwa [hfilter] at hbetween
  · obtain ⟨l, hl⟩ := h.buckets.covered n hn
    have hidx : bucketIndex obj n = b := Int.natCast_inj.mp ((hindex n hn).trans heq)
    rw [hidx, hb] at hl
    cases hl

/-- With keys that are different modulo `HASH_SIZE`, none of them touched 20000
times, the nodes are in the buckets of their counts in the order of their last
uses, and the victims are the ones of the reference. -/
theorem buckets_exact (hcapacity : 0 ≤ capacity) (key val freq : Nat → Int) (prev next : Nat → Nat)
    {events : List Event}
    (hdistinct : ∀ a ∈ events, ∀ b ∈ events, a.op.key % hashSize = b.op.key % hashSize →
      a.op.key = b.op.key)
    (htouches : ∀ key, events.countP (fun e => e.op.key = key) < 20000) :
    let init : State := .ok (lFUCacheCreate capacity key val freq prev next)
    let ops := events.map Event.op
    trace step answer init events =
        trace (Reference.step (-1) capacity) (referenceAnswer capacity) [] ops ∧
      ∃ obj ns, run step init events = .ok obj ∧ BucketsExact obj ns ∧
        entries obj ns = run (Reference.step (-1) capacity) [] ops := by
  intro init ops
  have h0 := related_create hcapacity key val freq prev next
  have hK : ∀ a b, (∃ e ∈ events, e.op.key = a) → (∃ e ∈ events, e.op.key = b) →
      getHashIndex a = getHashIndex b → a = b := by
    rintro _ _ ⟨e, he, rfl⟩ ⟨f, hf, rfl⟩ heq
    refine hdistinct e he f hf ?_
    rw [← getHashIndex_eq, ← getHashIndex_eq, heq]
  obtain ⟨hfits, obj, ns, hok, hrel, hcounts⟩ :=
    fits_of_distinct (fun _ => 0) hK h0 (fun _ _ hne => absurd rfl hne)
      (fun _ h => nomatch h) (fun _ hpos => absurd hpos (Nat.lt_irrefl 0))
      (fun e he => ⟨e, he, rfl⟩) fun key => by simpa using htouches key
  exact ⟨(run_related_of_fits h0 hfits).2, obj, ns, hok, bucketsExact_of_small hrel.inv hcounts,
    hrel.same⟩

/-- Two writes to a cache of capacity 1, the second of which removes a key,
and a read. -/
theorem buckets_exact_evict :
    let events : List Event := [.put 1 10 .next, .put 2 20 .next, .get 2 .next]
    ∃ obj ns, run step (.ok (blank 1)) events = .ok obj ∧ BucketsExact obj ns ∧
      entries obj ns = [⟨2, 20, 2⟩] :=
  (@buckets_exact 1 (by decide) _ _ _ _ _ [.put 1 10 .next, .put 2 20 .next, .get 2 .next]
    (by decide) fun _ => Nat.lt_of_le_of_lt List.countP_le_length (by decide)).2

/-- The same run fits. -/
theorem operations_refine_of_fits_evict :
    let events : List Event := [.put 1 10 .next, .put 2 20 .next, .get 2 .next]
    trace step answer (.ok (blank 1)) events =
      [.ok (.victim none), .ok (.victim (some 1)), .ok (.value 20)] := by
  intro events
  have hK : ∀ a b : Int, a = 1 ∨ a = 2 → b = 1 ∨ b = 2 → getHashIndex a = getHashIndex b → a = b := by
    rintro _ _ (rfl | rfl) (rfl | rfl) <;> decide
  have hfits : Along step Fits (.ok (blank 1)) events :=
    (fits_of_distinct (fun _ => 0) hK (related_create (by decide) _ _ _ _ _)
      (fun _ _ hne => absurd rfl hne) (fun _ h => nomatch h)
      (fun _ hpos => absurd hpos (Nat.lt_irrefl 0)) (by simp [events, Event.op, Reference.Op.key])
      fun _ => by
        rw [Nat.zero_add]
        exact Nat.lt_of_le_of_lt List.countP_le_length (by decide)).1
  exact (operations_refine_of_fits (by decide) _ _ _ _ _ hfits).1

end Training.Lfu
