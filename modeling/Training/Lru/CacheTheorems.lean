/-
Training.Lru.CacheTheorems — the cache is its reference.

The entries of the reference are a list of keys and values, the one used
last in front. An entry that is read or written goes to the front, and where
a new key is one too many for the capacity, the entry at the end is the
victim.

The nodes between the sentinels are a list (`Chain`), and the table has
exactly their keys (`Inv`). The keys and values along that list are the
entries of the reference, and each operation does to them what the
reference does (`related_step`), so a run of operations returns the
same values and removes the same keys (`operations_refine`).
-/
import Mathlib.Tactic.Common
import Training.Lib.Doubly
import Training.Lib.Machine
import Training.Lru.Cache

namespace Training.Lru.Reference

universe u v

variable {κ : Type u} {β : Type v} [DecidableEq κ]

/-- The entries without the one of `key`. -/
def without (key : κ) (entries : List (κ × β)) : List (κ × β) := entries.filter fun e => e.1 ≠ key

def find (key : κ) (entries : List (κ × β)) : Option β :=
  (entries.find? fun e => e.1 = key).map Prod.snd

/-- The entries after a read, and what it returns; `missing` says that the
key is not there. -/
def get (missing : β) (key : κ) (entries : List (κ × β)) : List (κ × β) × β :=
  match find key entries with
  | none => (entries, missing)
  | some value => ((key, value) :: without key entries, value)

/-- The entries after a write, and the key of the victim. -/
def put (capacity : Int) (key : κ) (value : β) (entries : List (κ × β)) :
    List (κ × β) × Option κ :=
  match find key entries with
  | some _ => ((key, value) :: without key entries, none)
  | none =>
      let entries := (key, value) :: entries
      if capacity < entries.length then (entries.dropLast, entries.getLast?.map Prod.fst)
      else (entries, none)

inductive Op (κ : Type u) (β : Type v)
  | get (key : κ)
  | put (key : κ) (value : β)

inductive Answer (κ : Type u) (β : Type v)
  | value (v : β)
  | victim (key : Option κ)

def step (missing : β) (capacity : Int) (entries : List (κ × β)) : Op κ β → List (κ × β)
  | .get key => (get missing key entries).1
  | .put key value => (put capacity key value entries).1

def answer (missing : β) (capacity : Int) (entries : List (κ × β)) : Op κ β → Answer κ β
  | .get key => .value (get missing key entries).2
  | .put key value => .victim (put capacity key value entries).2

end Training.Lru.Reference

namespace Training.Lru

open Training.Lib Training.Lib.Doubly

variable {obj : LRUCache} {xs : List Nat} {n : Nat} {key : Key}

/-- The nodes of the list, the one used last in front. -/
structure Chain (obj : LRUCache) (xs : List Nat) : Prop where
  between : Between obj.next obj.prev obj.head obj.tail xs
  nodup : (obj.head :: obj.tail :: xs).Nodup

/-! ## The list -/

theorem Chain.firsts (h : Chain obj xs) : (obj.head :: xs).Nodup :=
  h.nodup.sublist ((List.sublist_cons_self _ _).cons_cons _)

theorem Chain.seconds (h : Chain obj xs) : (xs ++ [obj.tail]).Nodup :=
  (List.perm_append_singleton _ xs).nodup_iff.mpr (List.nodup_cons.mp h.nodup).2

theorem Chain.nodes (h : Chain obj xs) : xs.Nodup := (List.nodup_cons.mp h.firsts).2

theorem chain_addToHead (h : Chain obj xs) (hn : n ∉ obj.head :: obj.tail :: xs) :
    Chain (addToHead obj n) (n :: xs) := by
  obtain ⟨hhead, htail, hxs⟩ : n ≠ obj.head ∧ n ≠ obj.tail ∧ n ∉ xs := by simpa using hn
  have hfirst : n ≠ obj.next obj.head := by
    rintro rfl
    have hmem := h.between.next_mem List.mem_cons_self
    simp [hxs, htail] at hmem
  refine ⟨h.between.insert h.seconds ?_ ?_ ?_ (fun y hy => ?_) fun y hy => ?_, ?_⟩
  · simp [addToHead]
  · simp [addToHead, Function.update_of_ne hhead]
  · simp [addToHead, Function.update_of_ne hhead.symm, Function.update_of_ne hfirst]
  · have hyn : y ≠ n := fun heq => hxs (heq ▸ hy)
    have hyh : y ≠ obj.head := fun heq => (List.nodup_cons.mp h.firsts).1 (heq ▸ hy)
    simp [addToHead, Function.update_of_ne hyn, Function.update_of_ne hyh]
  · have hyn : y ≠ n := by
      rintro rfl
      simp [hxs, htail] at hy
    simp only [addToHead, Function.update_of_ne hhead.symm, Function.update_of_ne hyn,
      Function.update_apply]
  · have hperm : (n :: obj.head :: obj.tail :: xs).Perm (obj.head :: obj.tail :: n :: xs) :=
      (List.Perm.swap _ _ _).trans ((List.Perm.swap _ _ _).cons _)
    exact hperm.nodup_iff.mp (List.nodup_cons.mpr ⟨hn, h.nodup⟩)

theorem chain_removeNode (h : Chain obj xs) (hn : n ∈ xs) : Chain (removeNode obj n) (xs.erase n) := by
  have hne : n ≠ obj.prev n := (h.between.prev_ne h.firsts hn).symm
  refine ⟨h.between.remove hn h.firsts h.seconds (fun y _ => ?_) fun y _ => ?_, ?_⟩
  · simp only [removeNode, Function.update_apply]
  · simp only [removeNode, Function.update_apply, if_neg hne]
  · exact h.nodup.sublist ((List.erase_sublist.cons_cons _).cons_cons _)

theorem not_mem_erase (h : Chain obj xs) (hn : n ∈ xs) : n ∉ obj.head :: obj.tail :: xs.erase n := by
  have hnodup := h.nodup
  simp only [List.nodup_cons, List.mem_cons, not_or] at hnodup
  intro hmem
  rcases List.mem_cons.mp hmem with rfl | hmem
  · exact hnodup.1.2 hn
  · rcases List.mem_cons.mp hmem with rfl | hmem
    · exact hnodup.2.1 hn
    · exact h.nodes.not_mem_erase hmem

theorem chain_moveToHead (h : Chain obj xs) (hn : n ∈ xs) :
    Chain (moveToHead obj n) (n :: xs.erase n) :=
  have hnot := not_mem_erase h hn
  chain_addToHead (chain_removeNode h hn) hnot

/-- The node in front of the tail is the last one. -/
theorem Chain.last (h : Chain obj (n :: xs)) :
    ∃ ys, n :: xs = ys ++ [obj.prev obj.tail] := by
  have hlast := h.between.prev_right
  rw [List.getLast_cons_cons] at hlast
  refine ⟨(n :: xs).dropLast, ?_⟩
  rw [hlast, List.dropLast_append_getLast]

/-! ## The table and the entries -/

/-- What holds between the operations. -/
structure Inv (obj : LRUCache) (xs : List Nat) : Prop where
  chain : Chain obj xs
  table : ∀ k n, n ≠ null → (obj.cache k = n ↔ n ∈ xs ∧ obj.key n = k)
  size : obj.size = xs.length
  live : obj.live.Perm (obj.head :: obj.tail :: xs)
  nonnull : null ∉ obj.live

def entry (obj : LRUCache) (n : Nat) : Key × Int := (obj.key n, obj.value n)

def entries (obj : LRUCache) (xs : List Nat) : List (Key × Int) := xs.map (entry obj)

theorem Inv.ne_null (h : Inv obj xs) (hn : n ∈ xs) : n ≠ null := by
  rintro rfl
  exact h.nonnull (h.live.mem_iff.mpr (List.mem_cons_of_mem _ (List.mem_cons_of_mem _ hn)))

/-- No two nodes have one key. -/
theorem Inv.key_inj (h : Inv obj xs) {m : Nat} (hn : n ∈ xs) (hm : m ∈ xs)
    (hkey : obj.key m = obj.key n) : m = n :=
  ((h.table _ m (h.ne_null hm)).mpr ⟨hm, hkey⟩).symm.trans
    ((h.table _ n (h.ne_null hn)).mpr ⟨hn, rfl⟩)

/-- The table has no node for `key`, and neither have the entries. -/
theorem find_none (h : Inv obj xs) (hkey : obj.cache key = null) :
    Reference.find key (entries obj xs) = none := by
  unfold Reference.find entries
  rw [Option.map_eq_none_iff, List.find?_eq_none]
  intro e he
  obtain ⟨n, hn, rfl⟩ := List.mem_map.mp he
  have hnull := h.ne_null hn
  have hne : obj.key n ≠ key := by
    rintro rfl
    exact hnull (((h.table _ n hnull).mpr ⟨hn, rfl⟩).symm.trans hkey)
  exact fun heq => hne (of_decide_eq_true heq)

/-- The node in the table has the value of `key`. -/
theorem find_some (h : Inv obj xs) (hn : n ∈ xs) :
    Reference.find (obj.key n) (entries obj xs) = some (obj.value n) := by
  unfold Reference.find entries
  have hfind : xs.find? ((fun e : Key × Int => decide (e.1 = obj.key n)) ∘ entry obj) = some n := by
    cases hf : xs.find? ((fun e : Key × Int => decide (e.1 = obj.key n)) ∘ entry obj) with
    | none => exact absurd (decide_eq_true rfl) (List.find?_eq_none.mp hf n hn)
    | some m =>
      have htrue := List.find?_some hf
      have hkey : obj.key m = obj.key n := of_decide_eq_true htrue
      rw [h.key_inj hn (List.mem_of_find?_eq_some hf) hkey]
  rw [List.find?_map, hfind]
  rfl

/-- The nodes but one are the entries without its key. -/
theorem without_entries (h : Inv obj xs) (hn : n ∈ xs) :
    Reference.without (obj.key n) (entries obj xs) = entries obj (xs.erase n) := by
  unfold Reference.without entries
  rw [List.filter_map, h.chain.nodes.erase_eq_filter]
  congr 1
  refine List.filter_congr fun m hm => ?_
  by_cases hmn : m = n
  · simp [entry, hmn]
  · have hne : obj.key m ≠ obj.key n := fun heq => hmn (h.key_inj hn hm heq)
    simp [entry, hmn, hne]

/-! ## Operations -/

/-- A node of the list that moves to its front, with any value. -/
theorem inv_moveToHead (h : Inv obj xs) (hn : n ∈ xs) (value : Nat → Int) :
    Inv (moveToHead { obj with value } n) (n :: xs.erase n) where
  chain :=
    have hchain : Chain { obj with value } xs := ⟨h.chain.between, h.chain.nodup⟩
    chain_moveToHead hchain hn
  table := fun k m hm => by
    rw [← (List.perm_cons_erase hn).mem_iff]
    exact h.table k m hm
  size := h.size.trans (congrArg _ (List.perm_cons_erase hn).length_eq)
  live := h.live.trans (((List.perm_cons_erase hn).cons _).cons _)
  nonnull := h.nonnull

/-- The end of the list leaves it and the table. -/
theorem inv_evict (h : Inv obj (n :: xs)) :
    ∃ ys, n :: xs = ys ++ [obj.prev obj.tail] ∧ Inv (evict obj).1 ys := by
  obtain ⟨ys, hys⟩ := h.chain.last
  refine ⟨ys, hys, ?_⟩
  rw [hys] at h
  have hlast : obj.prev obj.tail ∈ ys ++ [obj.prev obj.tail] := by simp
  have hnot : obj.prev obj.tail ∉ ys := by
    have hnodup := h.chain.nodes
    rw [(List.perm_append_singleton _ ys).nodup_iff] at hnodup
    exact (List.nodup_cons.mp hnodup).1
  have hchain := chain_removeNode h.chain hlast
  rw [List.erase_append_right _ hnot, List.erase_cons_head, List.append_nil] at hchain
  refine ⟨⟨hchain.between, hchain.nodup⟩, fun k m hm => ?_, ?_, ?_, fun hmem => ?_⟩
  · show Function.update obj.cache _ null k = m ↔ m ∈ ys ∧ obj.key m = k
    rw [Function.update_apply]
    split
    · rename_i hk
      refine iff_of_false hm.symm fun hmem => hnot ?_
      rw [← h.key_inj hlast (List.mem_append_left _ hmem.1) (hmem.2.trans hk)]
      exact hmem.1
    · rename_i hk
      rw [h.table k m hm, List.mem_append, List.mem_singleton]
      constructor
      · rintro ⟨hmem | rfl, hkey⟩
        · exact ⟨hmem, hkey⟩
        · exact absurd hkey.symm hk
      · rintro ⟨hmem, hkey⟩
        exact ⟨Or.inl hmem, hkey⟩
  · show obj.size - 1 = ys.length
    rw [h.size, List.length_append]
    simp
  · refine (h.live.erase (obj.prev obj.tail)).trans ?_
    have hperm : (obj.head :: obj.tail :: (ys ++ [obj.prev obj.tail])).Perm
        (obj.prev obj.tail :: obj.head :: obj.tail :: ys) :=
      List.perm_append_singleton _ (obj.head :: obj.tail :: ys)
    refine (hperm.erase _).trans ?_
    rw [List.erase_cons_head]
    exact List.Perm.refl _
  · exact h.nonnull (List.mem_of_mem_erase hmem)

/-- A new node in front of the list. -/
theorem inv_insert (h : Inv obj xs) (hkey : obj.cache key = null) (hn : n ≠ null)
    (hlive : n ∉ obj.live) (value : Int) : Inv (insert obj key value n) (n :: xs) := by
  have hmem : n ∉ obj.head :: obj.tail :: xs := fun hmem => hlive (h.live.mem_iff.mpr hmem)
  have hxs : n ∉ xs := fun hm => hmem (List.mem_cons_of_mem _ (List.mem_cons_of_mem _ hm))
  -- the new node is not one of the list
  have hchain : Chain (createNode obj n key value) xs := by
    refine ⟨h.chain.between.congr (fun y hy => ?_) fun y hy => ?_, h.chain.nodup⟩
    · refine Function.update_of_ne ?_ _ _
      rintro rfl
      refine hmem ?_
      rcases List.mem_cons.mp hy with rfl | hy
      · exact List.mem_cons_self
      · exact absurd hy hxs
    · refine Function.update_of_ne ?_ _ _
      rintro rfl
      refine hmem (List.mem_cons_of_mem _ ?_)
      rcases List.mem_append.mp hy with hy | hy
      · exact absurd hy hxs
      · exact List.mem_singleton.mp hy ▸ List.mem_cons_self
  have hchain' : Chain { createNode obj n key value with
      cache := Function.update obj.cache key n } xs := ⟨hchain.between, hchain.nodup⟩
  have hadd := chain_addToHead hchain' hmem
  refine ⟨⟨hadd.between, hadd.nodup⟩, fun k m hm => ?_, ?_, ?_, fun hnull => ?_⟩
  · show Function.update obj.cache key n k = m ↔ m ∈ n :: xs ∧ Function.update obj.key n key m = k
    rw [Function.update_apply, Function.update_apply]
    by_cases hk : k = key
    · subst hk
      rw [if_pos rfl]
      constructor
      · rintro rfl
        exact ⟨List.mem_cons_self, if_pos rfl⟩
      · rintro ⟨hmem, hkm⟩
        rcases List.mem_cons.mp hmem with rfl | hmem
        · rfl
        · have hne : m ≠ n := fun heq => hxs (heq ▸ hmem)
          rw [if_neg hne] at hkm
          exact absurd (((h.table k m hm).mpr ⟨hmem, hkm⟩).symm.trans hkey) hm
    · rw [if_neg hk, h.table k m hm]
      constructor
      · rintro ⟨hmem, hkm⟩
        have hne : m ≠ n := fun heq => hxs (heq ▸ hmem)
        exact ⟨List.mem_cons_of_mem _ hmem, (if_neg hne).trans hkm⟩
      · rintro ⟨hmem, hkm⟩
        by_cases hmn : m = n
        · rw [if_pos hmn] at hkm
          exact absurd hkm.symm hk
        · rw [if_neg hmn] at hkm
          exact ⟨(List.mem_cons.mp hmem).resolve_left hmn, hkm⟩
  · show obj.size + 1 = _
    rw [h.size, List.length_cons]
    rfl
  · show (n :: obj.live).Perm _
    refine (h.live.cons n).trans ?_
    exact (List.Perm.swap _ _ _).trans ((List.Perm.swap _ _ _).cons _)
  · rcases List.mem_cons.mp hnull with heq | hnull
    · exact hn heq.symm
    · exact h.nonnull hnull

/-! ## The reference -/

def Event.op : Event → Reference.Op Key Int
  | .get key => .get key
  | .put key value _ => .put key value

/-- What a caller of the operation sees. -/
def answer (obj : LRUCache) : Event → Reference.Answer Key Int
  | .get key => .value (get obj key).2
  | .put key value node => .victim (put obj key value node).2

/-- The entries of the reference are the ones along the list. -/
def Related (capacity : Int) (obj : LRUCache) (es : List (Key × Int)) : Prop :=
  obj.capacity = capacity ∧ ∃ xs, Inv obj xs ∧ entries obj xs = es

variable {capacity value : Int} {es : List (Key × Int)}

theorem related_get (h : Related capacity obj es) (key : Key) :
    Related capacity (get obj key).1 (Reference.get (-1) key es).1 ∧
      (get obj key).2 = (Reference.get (-1) key es).2 := by
  obtain ⟨hcap, xs, hinv, rfl⟩ := h
  unfold get Reference.get
  by_cases hkey : obj.cache key = null
  · rw [if_pos hkey, find_none hinv hkey]
    exact ⟨⟨hcap, xs, hinv, rfl⟩, rfl⟩
  · obtain ⟨hn, hk⟩ := (hinv.table key _ hkey).mp rfl
    have hfind := find_some hinv hn
    have hwithout := without_entries hinv hn
    rw [hk] at hfind hwithout
    rw [if_neg hkey, hfind]
    refine ⟨⟨hcap, _, inv_moveToHead hinv hn obj.value, ?_⟩, rfl⟩
    dsimp only
    rw [hwithout]
    exact congrArg₂ List.cons (Prod.ext hk rfl) rfl

theorem related_put (h : Related capacity obj es) (key : Key) (value : Int) {node : Nat}
    (hnode : node ≠ null) (hlive : node ∉ obj.live) :
    Related capacity (put obj key value node).1 (Reference.put capacity key value es).1 ∧
      (put obj key value node).2 = (Reference.put capacity key value es).2 := by
  obtain ⟨hcap, xs, hinv, rfl⟩ := h
  unfold put Reference.put
  by_cases hkey : obj.cache key = null
  · rw [if_neg (fun hne => hne hkey), find_none hinv hkey]
    have hxs : node ∉ xs := fun hm => hlive (hinv.live.mem_iff.mpr (by simp [hm]))
    have hnew := inv_insert hinv hkey hnode hlive value
    have hentries : entries (insert obj key value node) (node :: xs) =
        (key, value) :: entries obj xs := by
      refine congrArg₂ List.cons ?_ (List.map_congr_left fun m hm => ?_)
      · simp [entry, insert, addToHead, createNode]
      · have hne : m ≠ node := fun heq => hxs (heq ▸ hm)
        simp [entry, insert, addToHead, createNode, Function.update_of_ne hne]
    have hlen : ((key, value) :: entries obj xs).length = (node :: xs).length := by simp [entries]
    have hiff : (insert obj key value node).size > (insert obj key value node).capacity ↔
        capacity < (node :: xs).length := by
      rw [hnew.size, ← hcap]
      rfl
    dsimp only
    rw [hlen]
    by_cases hfull : capacity < (node :: xs).length
    · obtain ⟨ys, hys, hevict⟩ := inv_evict hnew
      have hsplit : entries (insert obj key value node) (node :: xs) =
          entries (evict (insert obj key value node)).1 ys ++
            [entry (insert obj key value node)
              ((insert obj key value node).prev (insert obj key value node).tail)] := by
        rw [hys]
        exact List.map_append
      rw [if_pos (hiff.mpr hfull), if_pos hfull, ← hentries, hsplit, List.dropLast_concat,
        List.getLast?_concat]
      exact ⟨⟨hcap, ys, hevict, rfl⟩, rfl⟩
    · rw [if_neg fun hgt => hfull (hiff.mp hgt), if_neg hfull]
      exact ⟨⟨hcap, _, hnew, hentries⟩, rfl⟩
  · obtain ⟨hn, hk⟩ := (hinv.table key _ hkey).mp rfl
    have hfind := find_some hinv hn
    have hwithout := without_entries hinv hn
    rw [hk] at hfind hwithout
    rw [if_pos hkey, hfind]
    have hmove := inv_moveToHead hinv hn (Function.update obj.value (obj.cache key) value)
    refine ⟨⟨hcap, _, hmove, ?_⟩, rfl⟩
    dsimp only
    rw [hwithout]
    refine congrArg₂ List.cons ?_ (List.map_congr_left fun m hm => ?_)
    · refine Prod.ext hk ?_
      exact Function.update_self ..
    · refine Prod.ext rfl (Function.update_of_ne ?_ _ _)
      rintro rfl
      exact hinv.chain.nodes.not_mem_erase hm

theorem related_step (e : Event) (h : Related capacity obj es) (hg : Granted obj e) :
    Related capacity (step obj e) (Reference.step (-1) capacity es e.op) ∧
      answer obj e = Reference.answer (-1) capacity es e.op := by
  cases e with
  | get key =>
    obtain ⟨hrel, hval⟩ := related_get h key
    exact ⟨hrel, congrArg _ hval⟩
  | put key value node =>
    obtain ⟨hrel, hval⟩ := related_put h key value hg.1 hg.2
    exact ⟨hrel, congrArg _ hval⟩

theorem inv_createLru (capacity : Int) {head tail : Nat} (hhead : head ≠ null) (htail : tail ≠ null)
    (hne : head ≠ tail) (key : Nat → Key) (value : Nat → Int) (prev next : Nat → Nat) :
    Inv (createLru capacity head tail key value prev next) [] where
  chain :=
    { between := ⟨by simp [createLru, createNode], by simp [createLru, createNode]⟩
      nodup := by simpa [createLru, createNode] using hne }
  table := fun k n hn => by simpa [createLru, createNode] using hn.symm
  size := rfl
  live := List.Perm.swap _ _ _
  nonnull := by simp [createLru, createNode, hhead.symm, htail.symm]

/-- Reads return what the reference returns, the same keys are removed, and
the list and the table have the entries of the reference. -/
theorem operations_refine (capacity : Int) {head tail : Nat} (hhead : head ≠ null)
    (htail : tail ≠ null) (hne : head ≠ tail) (key : Nat → Key) (value : Nat → Int)
    (prev next : Nat → Nat) {events : List Event}
    (hgranted : Along step Granted (createLru capacity head tail key value prev next) events) :
    let obj := createLru capacity head tail key value prev next
    let es := run (Reference.step (-1) capacity) [] (events.map Event.op)
    trace step answer obj events =
        trace (Reference.step (-1) capacity) (Reference.answer (-1) capacity) []
          (events.map Event.op) ∧
      (∀ key, (run step obj events).cache key ≠ null ↔ key ∈ es.map Prod.fst) ∧
      ∃ xs, Inv (run step obj events) xs ∧ entries (run step obj events) xs = es := by
  intro obj es
  have h0 : Related capacity obj [] :=
    ⟨rfl, [], inv_createLru capacity hhead htail hne key value prev next, rfl⟩
  have hstep : ∀ obj es e, Related capacity obj es → Granted obj e →
      Related capacity (step obj e) (Reference.step (-1) capacity es e.op) :=
    fun _ _ e h hg => (related_step e h hg).1
  obtain ⟨-, xs, hinv, hes⟩ := run_related hstep hgranted h0
  refine ⟨trace_related hstep (fun _ _ e h hg => (related_step e h hg).2) hgranted h0, fun k => ?_,
    xs, hinv, hes⟩
  have hmem : k ∈ es.map Prod.fst ↔ ∃ n ∈ xs, (run step obj events).key n = k := by
    rw [show es = entries (run step obj events) xs from hes.symm, entries, List.map_map]
    exact List.mem_map
  rw [hmem]
  constructor
  · intro hk
    exact ⟨_, (hinv.table k _ hk).mp rfl⟩
  · rintro ⟨n, hn, rfl⟩
    have hnull := hinv.ne_null hn
    rwa [(hinv.table _ n hnull).mpr ⟨hn, rfl⟩]

/-- The key 2 is removed for the key 3 and its node is used again, the key 3
for the key 4. -/
theorem operations_refine_evictions :
    trace step answer (createLru 2 1 2 (fun _ => 0) (fun _ => 0) (fun _ => 0) (fun _ => 0))
        [.put 1 10 3, .put 2 20 4, .get 1, .put 3 30 5, .get 2, .put 1 11 4, .put 4 40 4, .get 3,
          .get 1] =
      trace (Reference.step (-1) 2) (Reference.answer (-1) 2) []
        [.put 1 10, .put 2 20, .get 1, .put 3 30, .get 2, .put 1 11, .put 4 40, .get 3, .get 1] := by
  have hgranted : Along step Granted
      (createLru 2 1 2 (fun _ => 0) (fun _ => 0) (fun _ => 0) (fun _ => 0))
      [.put 1 10 3, .put 2 20 4, .get 1, .put 3 30 5, .get 2, .put 1 11 4, .put 4 40 4, .get 3,
        .get 1] :=
    ⟨⟨by decide, by decide⟩, ⟨by decide, by decide⟩, trivial, ⟨by decide, by decide⟩, trivial,
      ⟨by decide, by decide⟩, ⟨by decide, by decide⟩, trivial, trivial, trivial⟩
  exact (operations_refine 2 (by decide) (by decide) (by decide) _ _ _ _ hgranted).1

end Training.Lru
