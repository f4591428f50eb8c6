/-
Training.Lfu.BucketTheorems — the buckets are the nodes sorted by index.

The nodes of the cache are a list, the one used last in front, and the
bucket at an index has the nodes that are assigned to it, in that order
(`Buckets`). Each part of `increaseFreq` and of `lFUCachePut` that deals
with the buckets has a lemma, and `increaseFreq_spec` puts them together.
-/
import Training.Lib.Deques
import Training.Lfu.Cache

namespace Training.Lfu

open Training.Lib Training.Lib.Doubly

variable {obj obj' : LFUCache} {assign : Nat → Nat} {ns : List Nat} {n b : Nat} {l : FreqList}

/-- The buckets, where `assign` has the index of each node. -/
def deques (freqMap : Nat → Option FreqList) (assign : Nat → Nat) (ns : List Nat) (b : Nat) :
    Option (Deque Nat) :=
  (freqMap b).map fun l => ⟨l.head, l.tail, ns.filter fun n => assign n = b⟩

structure Buckets (obj : LFUCache) (assign : Nat → Nat) (ns : List Nat) : Prop where
  family : Family obj.next obj.prev (deques obj.freqMap assign ns)
  covered : ∀ n ∈ ns, ∃ l, obj.freqMap (assign n) = some l
  sentinels : ∀ b l, obj.freqMap b = some l → l.head ∈ obj.live ∧ l.tail ∈ obj.live
  nodes : ∀ n ∈ ns, n ∈ obj.live
  nonnull : null ∉ obj.live
  nodup : ns.Nodup

/-- What the buckets do not change: the rest of the cache, and the entries
of the nodes. -/
structure Frame (obj obj' : LFUCache) (ns : List Nat) : Prop where
  capacity : obj'.capacity = obj.capacity
  size : obj'.size = obj.size
  keyMap : obj'.keyMap = obj.keyMap
  key : ∀ n ∈ ns, obj'.key n = obj.key n
  val : ∀ n ∈ ns, obj'.val n = obj.val n

/-- `n` is not a sentinel. -/
def Inner (obj : LFUCache) (n : Nat) : Prop :=
  ∀ b l, obj.freqMap b = some l → n ≠ l.head ∧ n ≠ l.tail

/-! ## The lists -/

theorem deques_of_some (hb : obj.freqMap b = some l) :
    deques obj.freqMap assign ns b =
      some ⟨l.head, l.tail, ns.filter fun n => assign n = b⟩ := by
  simp [deques, hb]

theorem deques_erase (hns : ns.Nodup) (hb : obj.freqMap (assign n) = some l) :
    deques obj.freqMap assign (ns.erase n) =
      Function.update (deques obj.freqMap assign ns) (assign n)
        (some ⟨l.head, l.tail, (ns.filter fun m => assign m = assign n).erase n⟩) := by
  funext c
  by_cases hc : c = assign n
  · subst hc
    rw [Function.update_self, deques_of_some hb, (hns.filter _).erase_eq_filter,
      hns.erase_eq_filter, List.filter_comm]
  · rw [Function.update_of_ne hc]
    unfold deques
    congr 1
    funext l
    rw [hns.erase_eq_filter, List.filter_filter]
    congr 1
    refine List.filter_congr fun m _ => ?_
    by_cases hmn : m = n
    · have hne : assign m ≠ c := by
        rw [hmn]
        exact Ne.symm hc
      simp [hne]
    · simp [hmn]

theorem deques_cons (hn : n ∉ ns) (hb : obj.freqMap b = some l) :
    deques obj.freqMap (Function.update assign n b) (n :: ns) =
      Function.update (deques obj.freqMap assign ns) b
        (some ⟨l.head, l.tail, n :: ns.filter fun m => assign m = b⟩) := by
  have hfilter : ∀ c, (ns.filter fun m => Function.update assign n b m = c) =
      ns.filter fun m => assign m = c := by
    intro c
    refine List.filter_congr fun m hm => ?_
    have hmn : m ≠ n := fun heq => hn (heq ▸ hm)
    rw [Function.update_of_ne hmn]
  funext c
  by_cases hc : c = b
  · subst hc
    rw [Function.update_self, deques_of_some hb, List.filter_cons_of_pos (by simp), hfilter]
  · rw [Function.update_of_ne hc]
    unfold deques
    congr 1
    funext l
    rw [List.filter_cons_of_neg (by simpa using Ne.symm hc), hfilter]

theorem deques_update (o : Option FreqList) :
    deques (Function.update obj.freqMap b o) assign ns =
      Function.update (deques obj.freqMap assign ns) b
        (o.map fun l => ⟨l.head, l.tail, ns.filter fun n => assign n = b⟩) := by
  funext c
  by_cases hc : c = b
  · subst hc
    simp [deques]
  · simp [deques, Function.update_of_ne hc]

theorem mem_cells {d : Deque Nat} (hd : deques obj.freqMap assign ns b = some d)
    (hn : n ∈ d.cells) : n ∈ ns ∨ ∃ l, obj.freqMap b = some l ∧ (n = l.head ∨ n = l.tail) := by
  cases hb : obj.freqMap b with
  | none => simp [deques, hb] at hd
  | some l =>
    rw [deques_of_some hb] at hd
    cases hd
    rcases List.mem_cons.mp hn with rfl | hn
    · exact Or.inr ⟨l, rfl, Or.inl rfl⟩
    · rcases List.mem_cons.mp hn with rfl | hn
      · exact Or.inr ⟨l, rfl, Or.inr rfl⟩
      · exact Or.inl (List.mem_of_mem_filter hn)

theorem Buckets.cells_live (h : Buckets obj assign ns) {d : Deque Nat}
    (hd : deques obj.freqMap assign ns b = some d) (hn : n ∈ d.cells) : n ∈ obj.live := by
  rcases mem_cells hd hn with hn | ⟨l, hb, rfl | rfl⟩
  · exact h.nodes n hn
  · exact (h.sentinels b l hb).1
  · exact (h.sentinels b l hb).2

/-- A node is in the list of its bucket. -/
theorem Buckets.exists_deque (h : Buckets obj assign ns) (hn : n ∈ ns) :
    ∃ l, obj.freqMap (assign n) = some l ∧
      deques obj.freqMap assign ns (assign n) =
        some ⟨l.head, l.tail, ns.filter fun m => assign m = assign n⟩ ∧
      n ∈ ns.filter fun m => assign m = assign n := by
  obtain ⟨l, hl⟩ := h.covered n hn
  exact ⟨l, hl, deques_of_some hl, List.mem_filter.mpr ⟨hn, by simp⟩⟩

/-- A node is not a sentinel. -/
theorem Buckets.inner (h : Buckets obj assign ns) (hn : n ∈ ns) : Inner obj n := by
  intro b l hb
  obtain ⟨k, hk, hd, hmem⟩ := h.exists_deque hn
  have hcell := Deque.mem_nodes (d := ⟨k.head, k.tail, _⟩) hmem
  by_cases hbn : b = assign n
  · subst hbn
    rw [hb] at hk
    cases hk
    have hnodup := h.family.nodup _ _ hd
    simp only [Deque.cells, List.nodup_cons, List.mem_cons, not_or] at hnodup
    constructor
    · rintro rfl
      exact hnodup.1.2 hmem
    · rintro rfl
      exact hnodup.2.1 hmem
  · have hapart := h.family.apart _ _ _ _ (deques_of_some hb) hd hbn
    constructor
    · rintro rfl
      exact hapart List.mem_cons_self hcell
    · rintro rfl
      exact hapart (List.mem_cons_of_mem _ List.mem_cons_self) hcell

/-! ## Parts of the operations -/

theorem removeNode_spec (h : Buckets obj assign ns) (hn : n ∈ ns) :
    removeNode obj n = .ok (unlink obj n) ∧ Buckets (unlink obj n) assign (ns.erase n) := by
  obtain ⟨l, hl, hd, hmem⟩ := h.exists_deque hn
  have hprev := h.cells_live hd (h.family.prev_mem hd hmem)
  have hnext := h.cells_live hd (h.family.next_mem hd hmem)
  have hne : n ≠ obj.prev n :=
    ((h.family.between _ _ hd).prev_ne (Deque.nodup_firsts (h.family.nodup _ _ hd)) hmem).symm
  have hsame : (unlink obj n).next n = obj.next n := Function.update_of_ne hne _ _
  constructor
  · refine if_neg ?_
    rw [hsame]
    rintro (heq | heq)
    · exact h.nonnull (heq ▸ hprev)
    · exact h.nonnull (heq ▸ hnext)
  · refine ⟨?_, fun m hm => h.covered m (List.mem_of_mem_erase hm), h.sentinels,
      fun m hm => h.nodes m (List.mem_of_mem_erase hm), h.nonnull, h.nodup.erase n⟩
    rw [show (unlink obj n).freqMap = obj.freqMap from rfl, deques_erase h.nodup hl]
    refine h.family.remove hd hmem (fun y => ?_) fun y => ?_
    · simp only [unlink, Function.update_apply]
    · simp only [unlink, Function.update_apply, if_neg hne]

theorem frame_leaveBucket (oldFreq newFreq : Int) :
    Frame obj (leaveBucket obj l oldFreq newFreq) ns := by
  unfold leaveBucket
  split <;> exact ⟨rfl, rfl, rfl, fun _ _ => rfl, fun _ _ => rfl⟩

theorem leaveBucket_freq (oldFreq newFreq : Int) :
    (leaveBucket obj l oldFreq newFreq).freq = obj.freq := by
  unfold leaveBucket
  split <;> rfl

/-- The bucket goes when it is empty. -/
theorem leaveBucket_minFreq (h : Buckets obj assign ns) {oldFreq : Int}
    (hb : obj.freqMap (getHashIndex oldFreq) = some l) (newFreq : Int) :
    (leaveBucket obj l oldFreq newFreq).minFreq =
      if (∀ m ∈ ns, assign m ≠ getHashIndex oldFreq) ∧ obj.minFreq = oldFreq then newFreq
      else obj.minFreq := by
  have hempty := h.family.next_first_eq_iff (deques_of_some hb)
  dsimp only at hempty
  rw [List.filter_eq_nil_iff] at hempty
  have hiff : obj.next l.head = l.tail ↔ ∀ m ∈ ns, assign m ≠ getHashIndex oldFreq := by
    rw [hempty]
    exact forall₂_congr fun m _ => by simp
  unfold leaveBucket
  by_cases hc : obj.next l.head = l.tail
  · rw [if_pos hc]
    by_cases hmin : obj.minFreq = oldFreq
    · exact (if_pos hmin).trans (if_pos ⟨hiff.mp hc, hmin⟩).symm
    · exact (if_neg hmin).trans (if_neg fun hboth => hmin hboth.2).symm
  · rw [if_neg hc, if_neg]
    exact fun hboth => hc (hiff.mpr hboth.1)

theorem buckets_leaveBucket (h : Buckets obj assign ns) {oldFreq : Int}
    (hb : obj.freqMap (getHashIndex oldFreq) = some l) (newFreq : Int) :
    Buckets (leaveBucket obj l oldFreq newFreq) assign ns := by
  unfold leaveBucket
  split
  · rename_i hc
    have hempty := (h.family.next_first_eq_iff (deques_of_some hb)).mp hc
    have hout : ∀ m ∈ ns, assign m ≠ getHashIndex oldFreq := by
      intro m hm heq
      have hmem := List.filter_eq_nil_iff.mp hempty m hm
      simp [heq] at hmem
    have hkeep : ∀ y, y ∈ obj.live → y ≠ l.head → y ≠ l.tail →
        y ∈ (obj.live.erase l.head).erase l.tail := by
      intro y hy hhead htail
      exact (List.mem_erase_of_ne htail).mpr ((List.mem_erase_of_ne hhead).mpr hy)
    have hother : ∀ c k, Function.update obj.freqMap (getHashIndex oldFreq) none c = some k →
        c ≠ getHashIndex oldFreq ∧ obj.freqMap c = some k := by
      intro c k hck
      by_cases hc : c = getHashIndex oldFreq
      · rw [hc, Function.update_self] at hck
        cases hck
      · rw [Function.update_of_ne hc] at hck
        exact ⟨hc, hck⟩
    refine ⟨?_, fun m hm => ?_, fun c k hck => ?_, fun m hm => ?_, fun hnull => ?_, h.nodup⟩
    · dsimp only
      rw [deques_update]
      exact h.family.drop _
    · obtain ⟨k, hk⟩ := h.covered m hm
      exact ⟨k, (Function.update_of_ne (hout m hm) _ _).trans hk⟩
    · obtain ⟨hne, hk⟩ := hother c k hck
      have hapart := h.family.apart _ _ _ _ (deques_of_some hk) (deques_of_some hb) hne
      have hcells : ∀ y, y = k.head ∨ y = k.tail → y ≠ l.head ∧ y ≠ l.tail := by
        intro y hy
        have hmem : y ∈ Deque.cells ⟨k.head, k.tail, ns.filter fun n => assign n = c⟩ := by
          rcases hy with rfl | rfl <;> simp [Deque.cells]
        constructor <;> rintro rfl <;> exact hapart hmem (by simp [Deque.cells])
      obtain ⟨hh, ht⟩ := hcells k.head (Or.inl rfl)
      obtain ⟨hh', ht'⟩ := hcells k.tail (Or.inr rfl)
      exact ⟨hkeep _ (h.sentinels c k hk).1 hh ht, hkeep _ (h.sentinels c k hk).2 hh' ht'⟩
    · obtain ⟨hh, ht⟩ := h.inner hm _ l hb
      exact hkeep m (h.nodes m hm) hh ht
    · exact h.nonnull (List.mem_of_mem_erase (List.mem_of_mem_erase hnull))
  · exact h

/-- A new node has nothing to do with the others. -/
theorem buckets_createNode (h : Buckets obj assign ns) (hn : n ∉ obj.live) (hnull : n ≠ null)
    (key val freq : Int) : Buckets (createNode obj n key val freq) assign ns := by
  have hcells : ∀ c d, deques obj.freqMap assign ns c = some d → ∀ y ∈ d.cells, y ≠ n := by
    rintro c d hd y hy rfl
    exact hn (h.cells_live hd hy)
  refine ⟨⟨fun c d hd => ?_, h.family.nodup, h.family.apart⟩, h.covered, fun c k hck => ?_,
    fun m hm => List.mem_cons_of_mem _ (h.nodes m hm), fun hmem => ?_, h.nodup⟩
  · refine (h.family.between c d hd).congr (fun y hy => ?_) fun y hy => ?_
    · exact Function.update_of_ne (hcells c d hd y (Deque.mem_firsts hy)) _ _
    · exact Function.update_of_ne (hcells c d hd y (Deque.mem_seconds hy)) _ _
  · exact ⟨List.mem_cons_of_mem _ (h.sentinels c k hck).1,
      List.mem_cons_of_mem _ (h.sentinels c k hck).2⟩
  · rcases List.mem_cons.mp hmem with heq | hmem
    · exact hnull heq.symm
    · exact h.nonnull hmem

/-- `bucketAt` changes nothing but the free list and `freq_map`. -/
theorem frame_bucketAt (malloc : Malloc) (hns : ∀ m ∈ ns, m ∈ obj.live) :
    Frame obj (bucketAt obj b malloc).1 ns ∧ (bucketAt obj b malloc).1.minFreq = obj.minFreq ∧
      ∀ m ∈ ns, (bucketAt obj b malloc).1.freq m = obj.freq m := by
  have hhead : ∀ m ∈ ns, m ≠ malloc.alloc obj.live := by
    rintro m hm rfl
    exact malloc.alloc_not_mem _ (hns _ hm)
  have htail : ∀ m ∈ ns, m ≠ malloc.alloc (malloc.alloc obj.live :: obj.live) := by
    rintro m hm rfl
    exact malloc.alloc_not_mem _ (List.mem_cons_of_mem _ (hns _ hm))
  unfold bucketAt
  split
  · exact ⟨⟨rfl, rfl, rfl, fun _ _ => rfl, fun _ _ => rfl⟩, rfl, fun _ _ => rfl⟩
  · refine ⟨⟨rfl, rfl, rfl, fun m hm => ?_, fun m hm => ?_⟩, rfl, fun m hm => ?_⟩ <;>
      exact (Function.update_of_ne (htail m hm) _ _).trans (Function.update_of_ne (hhead m hm) _ _)

theorem bucketAt_spec (h : Buckets obj assign ns) (b : Nat) (malloc : Malloc) :
    Buckets (bucketAt obj b malloc).1 assign ns ∧
      (bucketAt obj b malloc).1.freqMap b = some (bucketAt obj b malloc).2 ∧
      ∀ m ∈ obj.live, m ∈ (bucketAt obj b malloc).1.live ∧
        (Inner obj m → Inner (bucketAt obj b malloc).1 m) := by
  unfold bucketAt
  cases hb : obj.freqMap b with
  | some l => exact ⟨h, hb, fun m hm => ⟨hm, id⟩⟩
  | none =>
    have hheadout := malloc.alloc_not_mem obj.live
    have htailout := malloc.alloc_not_mem (malloc.alloc obj.live :: obj.live)
    have hne : malloc.alloc obj.live ≠ malloc.alloc (malloc.alloc obj.live :: obj.live) :=
      fun heq => htailout (heq ▸ List.mem_cons_self)
    have hnodes := buckets_createNode (buckets_createNode h hheadout (malloc.alloc_ne_null _) 0 0 0)
      htailout (malloc.alloc_ne_null _) 0 0 0
    have hempty : (ns.filter fun m => assign m = b) = [] := by
      refine List.filter_eq_nil_iff.mpr fun m hm heq => ?_
      obtain ⟨l, hl⟩ := h.covered m hm
      rw [of_decide_eq_true heq, hb] at hl
      cases hl
    refine ⟨⟨?_, fun m hm => ?_, fun c k hck => ?_, hnodes.nodes, hnodes.nonnull, h.nodup⟩,
      Function.update_self .., fun m hm => ⟨?_, fun hinner c k hck => ?_⟩⟩
    · dsimp only
      rw [deques_update, Option.map_some, hempty]
      refine hnodes.family.create hne ?_ ?_ ?_ ?_ ?_ ?_ b
      · intro c d hd hmem
        exact hheadout (h.cells_live hd hmem)
      · intro c d hd hmem
        exact htailout (List.mem_cons_of_mem _ (h.cells_live hd hmem))
      · exact Function.update_self ..
      · exact Function.update_self ..
      · intro y hy _
        exact Function.update_of_ne hy _ _
      · intro y _ hy
        exact Function.update_of_ne hy _ _
    · by_cases hc : assign m = b
      · refine ⟨(createFreqList obj malloc).2, ?_⟩
        rw [hc]
        exact Function.update_self ..
      · obtain ⟨l, hl⟩ := h.covered m hm
        exact ⟨l, (Function.update_of_ne hc _ _).trans hl⟩
    · by_cases hc : c = b
      · subst hc
        dsimp only at hck
        rw [Function.update_self] at hck
        cases hck
        exact ⟨List.mem_cons_of_mem _ List.mem_cons_self, List.mem_cons_self⟩
      · dsimp only at hck
        rw [Function.update_of_ne hc] at hck
        exact hnodes.sentinels c k hck
    · exact List.mem_cons_of_mem _ (List.mem_cons_of_mem _ hm)
    · by_cases hc : c = b
      · subst hc
        dsimp only at hck
        rw [Function.update_self] at hck
        cases hck
        constructor
        · rintro rfl
          exact hheadout hm
        · rintro rfl
          exact htailout (List.mem_cons_of_mem _ hm)
      · dsimp only at hck
        rw [Function.update_of_ne hc] at hck
        exact hinner c k hck

theorem buckets_addNodeToHead (h : Buckets obj assign ns) (hb : obj.freqMap b = some l)
    (hn : n ∉ ns) (hinner : Inner obj n) (hlive : n ∈ obj.live) :
    Buckets (addNodeToHead obj l n) (Function.update assign n b) (n :: ns) := by
  have hhead : n ≠ l.head := (hinner b l hb).1
  have hout : ∀ c d, deques obj.freqMap assign ns c = some d → n ∉ d.cells := by
    intro c d hd hmem
    rcases mem_cells hd hmem with hmem | ⟨k, hk, heq | heq⟩
    · exact hn hmem
    · exact (hinner c k hk).1 heq
    · exact (hinner c k hk).2 heq
  refine ⟨?_, fun m hm => ?_, h.sentinels, fun m hm => ?_, h.nonnull,
    List.nodup_cons.mpr ⟨hn, h.nodup⟩⟩
  · rw [show (addNodeToHead obj l n).freqMap = obj.freqMap from rfl, deques_cons hn hb]
    refine h.family.insert (deques_of_some hb) hout (fun y => ?_) fun y => ?_
    · simp only [addNodeToHead, Function.update_apply]
    · simp only [addNodeToHead, Function.update_apply, if_neg hhead.symm]
  · by_cases hmn : m = n
    · exact ⟨l, by rw [hmn, Function.update_self]; exact hb⟩
    · rw [Function.update_of_ne hmn]
      exact h.covered m ((List.mem_cons.mp hm).resolve_left hmn)
  · rcases List.mem_cons.mp hm with rfl | hm
    · exact hlive
    · exact h.nodes m hm

/-- A node that is in no bucket is put into one. -/
theorem enterBucket_spec (h : Buckets obj assign ns) (hn : n ∉ ns) (hinner : Inner obj n)
    (hlive : n ∈ obj.live) (b : Nat) (malloc : Malloc) :
    Buckets (enterBucket obj b n malloc) (Function.update assign n b) (n :: ns) := by
  obtain ⟨hat, hsome, hkeep⟩ := bucketAt_spec h b malloc
  obtain ⟨hlive', hinner'⟩ := hkeep n hlive
  exact buckets_addNodeToHead hat hsome hn (hinner' hinner) hlive'

theorem frame_enterBucket (malloc : Malloc) (hns : ∀ m ∈ ns, m ∈ obj.live) :
    Frame obj (enterBucket obj b n malloc) ns ∧ (enterBucket obj b n malloc).minFreq = obj.minFreq ∧
      ∀ m ∈ ns, (enterBucket obj b n malloc).freq m = obj.freq m := by
  obtain ⟨hframe, hmin, hfreq⟩ := frame_bucketAt (b := b) malloc hns
  exact ⟨⟨hframe.capacity, hframe.size, hframe.keyMap, hframe.key, hframe.val⟩, hmin, hfreq⟩

/-! ## A use of a node -/

/-- The bucket of a node. -/
def bucketIndex (obj : LFUCache) (n : Nat) : Nat := getHashIndex (obj.freq n)

theorem Frame.trans {obj'' : LFUCache} (h : Frame obj obj' ns) (h' : Frame obj' obj'' ns) :
    Frame obj obj'' ns where
  capacity := h'.capacity.trans h.capacity
  size := h'.size.trans h.size
  keyMap := h'.keyMap.trans h.keyMap
  key := fun n hn => (h'.key n hn).trans (h.key n hn)
  val := fun n hn => (h'.val n hn).trans (h.val n hn)

theorem Buckets.congr {assign' : Nat → Nat} (h : Buckets obj assign ns)
    (hassign : ∀ m ∈ ns, assign' m = assign m) : Buckets obj assign' ns := by
  refine ⟨?_, fun m hm => hassign m hm ▸ h.covered m hm, h.sentinels, h.nodes, h.nonnull, h.nodup⟩
  have hsame : deques obj.freqMap assign' ns = deques obj.freqMap assign ns := by
    funext b
    unfold deques
    congr 1
    funext l
    congr 1
    refine List.filter_congr fun m hm => ?_
    rw [hassign m hm]
  rw [hsame]
  exact h.family

theorem inner_leaveBucket (h : Inner obj n) (oldFreq newFreq : Int) :
    Inner (leaveBucket obj l oldFreq newFreq) n := by
  unfold leaveBucket
  split
  · intro c k hck
    dsimp only at hck
    by_cases hc : c = getHashIndex oldFreq
    · rw [hc, Function.update_self] at hck
      cases hck
    · rw [Function.update_of_ne hc] at hck
      exact h c k hck
  · exact h

/-- `increaseFreq` moves the node to the next bucket; `minFreq` moves on with
the last node that has it. -/
theorem increaseFreq_spec (h : Buckets obj (bucketIndex obj) ns) (hn : n ∈ ns)
    (hmax : obj.freq n ≠ intMax) (malloc : Malloc) :
    ∃ obj', increaseFreq obj n malloc = .ok obj' ∧
      Buckets obj' (bucketIndex obj') (n :: ns.erase n) ∧ Frame obj obj' ns ∧
      obj'.freq n = obj.freq n + 1 ∧ (∀ m ∈ ns, m ≠ n → obj'.freq m = obj.freq m) ∧
      obj'.minFreq =
        if (∀ m ∈ ns.erase n, bucketIndex obj m ≠ bucketIndex obj n) ∧ obj.minFreq = obj.freq n
        then obj.freq n + 1 else obj.minFreq := by
  obtain ⟨l, hl⟩ := h.covered n hn
  obtain ⟨hremove, hbuckets⟩ := removeNode_spec h hn
  have hnot : n ∉ ns.erase n := h.nodup.not_mem_erase
  -- the old bucket
  generalize hleft : leaveBucket (unlink obj n) l (obj.freq n) (obj.freq n + 1) = left
  have hleave : Buckets left (bucketIndex obj) (ns.erase n) :=
    hleft ▸ buckets_leaveBucket hbuckets hl (obj.freq n + 1)
  have hmin := leaveBucket_minFreq hbuckets hl (obj.freq n + 1)
  have hframe : Frame obj left ns :=
    hleft ▸ (show Frame obj (unlink obj n) ns from ⟨rfl, rfl, rfl, fun _ _ => rfl, fun _ _ => rfl⟩).trans
      (frame_leaveBucket _ _)
  have hfreq : left.freq = obj.freq := hleft ▸ leaveBucket_freq _ _
  have hinner : Inner left n :=
    hleft ▸ inner_leaveBucket (show Inner (unlink obj n) n from h.inner hn) _ _
  have hlive : ∀ m ∈ ns, m ∈ left.live := by
    intro m hm
    rw [← hleft]
    unfold leaveBucket
    split
    · refine (List.mem_erase_of_ne ?_).mpr ((List.mem_erase_of_ne ?_).mpr (h.nodes m hm))
      · exact (h.inner hm _ l hl).2
      · exact (h.inner hm _ l hl).1
    · exact h.nodes m hm
  rw [hleft] at hmin
  -- the new bucket
  have henter := enterBucket_spec hleave hnot hinner (hlive n hn) (getHashIndex (obj.freq n + 1)) malloc
  obtain ⟨hframe', hmin', hfreq'⟩ :=
    frame_enterBucket (n := n) (b := getHashIndex (obj.freq n + 1)) malloc hlive
  refine ⟨joinBucket left n (obj.freq n + 1) malloc, ?_, ?_, ?_, ?_, fun m hm hmn => ?_, ?_⟩
  · unfold increaseFreq
    rw [if_neg hmax, hremove]
    dsimp only
    rw [show obj.freqMap (getHashIndex (obj.freq n)) = some l from hl]
    dsimp only
    rw [hleft]
  · have hjoin : Buckets (joinBucket left n (obj.freq n + 1) malloc)
        (Function.update (bucketIndex obj) n (getHashIndex (obj.freq n + 1))) (n :: ns.erase n) :=
      ⟨henter.family, henter.covered, henter.sentinels, henter.nodes, henter.nonnull, henter.nodup⟩
    refine hjoin.congr fun m hm => ?_
    unfold bucketIndex joinBucket
    dsimp only
    by_cases hmn : m = n
    · rw [hmn, Function.update_self, Function.update_self]
    · have hmem := List.mem_of_mem_erase ((List.mem_cons.mp hm).resolve_left hmn)
      rw [Function.update_of_ne hmn, Function.update_of_ne hmn]
      exact congrArg getHashIndex ((hfreq' m hmem).trans (congrFun hfreq m))
  · exact ⟨hframe'.capacity.trans hframe.capacity, hframe'.size.trans hframe.size,
      hframe'.keyMap.trans hframe.keyMap, fun m hm => (hframe'.key m hm).trans (hframe.key m hm),
      fun m hm => (hframe'.val m hm).trans (hframe.val m hm)⟩
  · exact Function.update_self ..
  · refine (Function.update_of_ne hmn _ _).trans ?_
    exact (hfreq' m hm).trans (congrFun hfreq m)
  · exact hmin'.trans hmin

end Training.Lfu
