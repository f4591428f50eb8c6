/-
Training.MemoryPool.ChunkTheorems — the chunks of a memory.

`mm.Holds h cs` says that the chunks `cs` tile the memory, that their
headers in the heap describe them, that the two lists hold the free and
the used ones, each once, and that the accounts add up. `mm.Good h cs`
says more: the footers lead back (`footer`) and no two free chunks are
neighbours (`merged`). Between the calls it is `Good` that holds; while
chunks are merged it is `Holds`.
-/
import Training.Lib.Tiling
import Training.MemoryPool.LinkTheorems

namespace Training.MemoryPool

open Training.Lib.Memory Training.Lib.Tiling

variable {h h' : Heap} {mm : Memory} {cs ds pre post : List Chunk} {c d : Chunk}
  {a e n m total fuel : Nat} {S : List Nat}

/-- What `is_free` is for the chunk. -/
def isFreeFlag (c : Chunk) : Nat := if c.free then 1 else 0

/-- The bytes of a chunk that the program may use. -/
def progSize (n : Nat) : Nat := n - (chunkHeader + chunkEnd)

structure Memory.Holds (h : Heap) (mm : Memory) (cs : List Chunk) : Prop where
  tiles : Tiles mm.start cs (mm.start + mm.mempoolSize)
  low : 0 < mm.start
  high : mm.start + mm.mempoolSize ≤ 9223372036854775808
  size : ∀ c ∈ cs, chunkHeader ≤ c.size
  allocMem_eq : ∀ c ∈ cs, h.get .allocMem c.addr = c.size
  isFree_eq : ∀ c ∈ cs, h.get .isFree c.addr = isFreeFlag c
  free : ∃ xs, h.Lists mm.freeList xs ∧ xs.Perm ((freeOnes cs).map Chunk.addr)
  used : ∃ xs, h.Lists mm.allocList xs ∧ xs.Perm ((usedOnes cs).map Chunk.addr)
  allocMem : mm.allocMem = account (fun n => n) cs
  allocProgMem : mm.allocProgMem = account progSize cs

structure Memory.Good (h : Heap) (mm : Memory) (cs : List Chunk) : Prop extends mm.Holds h cs where
  ne_nil : cs ≠ []
  footer : ∀ c ∈ cs, ∀ d ∈ cs, c.stop = d.addr → h.footer d.addr = c.addr
  merged : ∀ c ∈ cs, ∀ d ∈ cs, c.stop = d.addr → ¬ (c.free = true ∧ d.free = true)
  large : (∀ c ∈ cs, chunkHeader + chunkEnd < c.size) ∨ ∃ c, cs = [c] ∧ c.free = true

/-! ## Tilings and headers -/

theorem headers_of_tiles (ht : Tiles a cs e) (hsize : ∀ c ∈ cs, chunkHeader ≤ c.size) (ha : 0 < a)
    (he : e ≤ 9223372036854775808) : Headers (cs.map Chunk.addr) where
  apart := by
    intro x hx y hy hne
    obtain ⟨c, hc, rfl⟩ := List.mem_map.mp hx
    obtain ⟨d, hd, rfl⟩ := List.mem_map.mp hy
    have hapart := ht.apart hc hd fun heq => hne (congrArg Chunk.addr heq)
    have hcsize := hsize c hc
    have hdsize := hsize d hd
    unfold Chunk.stop at hapart
    unfold Apart
    omega
  ne_zero := by
    intro x hx
    obtain ⟨c, hc, rfl⟩ := List.mem_map.mp hx
    have hbounds := ht.bounds hc
    omega
  lt := by
    intro x hx
    obtain ⟨c, hc, rfl⟩ := List.mem_map.mp hx
    have hbounds := ht.bounds hc
    unfold Chunk.stop at hbounds
    unfold memSizeT
    omega

theorem inside_of_tiles (ht : Tiles a cs e) (hsize : ∀ c ∈ cs, chunkHeader ≤ c.size) :
    ∀ x ∈ cs.map Chunk.addr, a ≤ x ∧ x + chunkHeader ≤ e := by
  intro x hx
  obtain ⟨c, hc, rfl⟩ := List.mem_map.mp hx
  have hbounds := ht.bounds hc
  have hcsize := hsize c hc
  unfold Chunk.stop at hbounds
  omega

/-- The footer of a chunk is no part of a header. -/
theorem footer_apart (ht : Tiles a cs e) (hsize : ∀ c ∈ cs, chunkHeader ≤ c.size) (hc : c ∈ cs)
    (hlarge : chunkHeader + chunkEnd ≤ c.size) :
    ∀ x ∈ cs.map Chunk.addr, x + chunkHeader ≤ c.stop - chunkEnd ∨ c.stop ≤ x := by
  intro x hx
  obtain ⟨d, hd, rfl⟩ := List.mem_map.mp hx
  by_cases hcd : c = d
  · subst hcd
    unfold Chunk.stop
    omega
  · have hapart := ht.apart hc hd hcd
    have hdsize := hsize d hd
    unfold Chunk.stop at hapart ⊢
    omega

theorem stop_ge (hlarge : chunkHeader ≤ c.size) : chunkEnd ≤ c.stop := by
  unfold Chunk.stop
  unfold chunkHeader at hlarge
  unfold chunkEnd
  omega

theorem Memory.Holds.headers (hh : mm.Holds h cs) : Headers (cs.map Chunk.addr) :=
  headers_of_tiles hh.tiles hh.size hh.low hh.high

theorem Memory.Holds.sized (hh : mm.Holds h cs) : ∀ c ∈ cs, 0 < c.size := fun c hc =>
  Nat.lt_of_lt_of_le (by decide) (hh.size c hc)

/-- The lists have headers of chunks. -/
theorem mem_of_free {xs : List Nat} (hxs : xs.Perm ((freeOnes cs).map Chunk.addr)) :
    ∀ x ∈ xs, x ∈ cs.map Chunk.addr := by
  intro x hx
  obtain ⟨c, hc, rfl⟩ := List.mem_map.mp (hxs.mem_iff.mp hx)
  exact List.mem_map_of_mem (mem_freeOnes.mp hc).1

theorem mem_of_used {xs : List Nat} (hxs : xs.Perm ((usedOnes cs).map Chunk.addr)) :
    ∀ x ∈ xs, x ∈ cs.map Chunk.addr := by
  intro x hx
  obtain ⟨c, hc, rfl⟩ := List.mem_map.mp (hxs.mem_iff.mp hx)
  exact List.mem_map_of_mem (mem_usedOnes.mp hc).1

/-- No chunk is in both lists. -/
theorem Memory.Holds.disjoint (hh : mm.Holds h cs) {xs ys : List Nat}
    (hxs : xs.Perm ((freeOnes cs).map Chunk.addr)) (hys : ys.Perm ((usedOnes cs).map Chunk.addr)) :
    ∀ y ∈ ys, y ∉ xs := by
  intro y hy hyx
  obtain ⟨c, hc, hcy⟩ := List.mem_map.mp (hys.mem_iff.mp hy)
  obtain ⟨d, hd, hdy⟩ := List.mem_map.mp (hxs.mem_iff.mp hyx)
  obtain ⟨hc, hcfree⟩ := mem_usedOnes.mp hc
  obtain ⟨hd, hdfree⟩ := mem_freeOnes.mp hd
  have heq := hh.tiles.eq_of_addr hh.sized hc hd (hcy.trans hdy.symm)
  rw [heq, hdfree] at hcfree
  cases hcfree

/-! ## Frames -/

/-- Stores outside the memory do not change it. -/
theorem Memory.Good.frame (hg : mm.Good h cs) (hsame : SameOutside a n h h')
    (hout : mm.start + mm.mempoolSize ≤ a ∨ a + n ≤ mm.start) : mm.Good h' cs := by
  have hin := inside_of_tiles hg.tiles hg.size
  have hget : ∀ f, ∀ x ∈ cs.map Chunk.addr, h'.get f x = h.get f x := by
    intro f x hx
    have hx := hin x hx
    exact hsame.get (by omega)
  obtain ⟨xs, hxs, hfree⟩ := hg.free
  obtain ⟨ys, hys, hused⟩ := hg.used
  refine { hg with
    allocMem_eq := fun c hc => ?_
    isFree_eq := fun c hc => ?_
    free := ⟨xs, hxs.congr (fun y hy => ?_) fun y hy => ?_, hfree⟩
    used := ⟨ys, hys.congr (fun y hy => ?_) fun y hy => ?_, hused⟩
    footer := fun c hc d hd hcd => ?_ }
  · rw [hget _ _ (List.mem_map_of_mem hc), hg.allocMem_eq c hc]
  · rw [hget _ _ (List.mem_map_of_mem hc), hg.isFree_eq c hc]
  · exact hget _ _ (mem_of_free hfree y hy)
  · exact hget _ _ (mem_of_free hfree y hy)
  · exact hget _ _ (mem_of_used hused y hy)
  · exact hget _ _ (mem_of_used hused y hy)
  · have hbounds := hg.tiles.bounds hc
    have hdbounds := hg.tiles.bounds hd
    have hsize := hg.size c hc
    have hdsize := hg.sized d hd
    have hend : c.addr + chunkEnd ≤ d.addr := by
      unfold Chunk.stop at hcd
      unfold chunkHeader at hsize
      unfold chunkEnd
      omega
    unfold Chunk.stop at hdbounds
    rw [hsame.footer (by omega) (by omega)]
    exact hg.footer c hc d hd hcd

/-! ## A memory that has been set up -/

theorem get_init (hm : m < memSizeT) :
    (h.init a m).get .allocMem a = m ∧ (h.init a m).get .isFree a = 1 ∧
      (h.init a m).get .prev a = 0 ∧ (h.init a m).get .next a = 0 := by
  unfold Heap.init
  refine ⟨?_, ?_, ?_, ?_⟩
  · rw [get_set_ne (by decide), get_set_ne (by decide), get_set_self (by exact hm)]
  · rw [get_set_ne (by decide), get_set_ne (by decide), get_set_ne (by decide),
      get_set_self (by decide)]
  · rw [get_set_ne (by decide), get_set_self (by decide)]
  · rw [get_set_self (by decide)]

theorem listed_singleton {head : Nat} (hhead : head ≠ 0) (hprev : h.get .prev head = 0)
    (hnext : h.get .next head = 0) : h.Lists head [head] := by
  refine ⟨List.nodup_cons.mpr ⟨fun hmem => hhead (List.mem_singleton.mp hmem).symm,
    List.nodup_singleton head⟩, head, ?_, ?_, ?_, ?_⟩
  · rfl
  · rw [Lib.NullLists.link_of_ne hhead, hprev]
  · rw [Lib.NullLists.link_of_ne hhead, hnext]
  · rfl

theorem Memory.good_init (mm : Memory) (hlow : 0 < mm.start)
    (hhigh : mm.start + m ≤ 9223372036854775808) (hm : chunkHeader ≤ m) :
    (mm.init m).Good (h.init mm.start m) [⟨mm.start, m, true⟩] := by
  obtain ⟨hallocMem, hisFree, hprev, hnext⟩ :=
    get_init (h := h) (a := mm.start) (m := m) (by unfold memSizeT; omega)
  have hself : (⟨mm.start, m, true⟩ : Chunk).stop ≠ mm.start := by
    unfold Chunk.stop
    unfold chunkHeader at hm
    dsimp only
    omega
  exact {
    tiles := ⟨rfl, rfl⟩
    low := hlow
    high := hhigh
    size := List.forall_mem_singleton.mpr hm
    allocMem_eq := List.forall_mem_singleton.mpr hallocMem
    isFree_eq := List.forall_mem_singleton.mpr hisFree
    free := ⟨[mm.start], listed_singleton (Nat.ne_of_gt hlow) hprev hnext, .refl _⟩
    used := ⟨[], Lib.NullLists.listed_nil, .refl _⟩
    allocMem := rfl
    allocProgMem := rfl
    ne_nil := List.cons_ne_nil _ _
    footer := List.forall_mem_singleton.mpr (List.forall_mem_singleton.mpr fun heq =>
      absurd heq hself)
    merged := List.forall_mem_singleton.mpr (List.forall_mem_singleton.mpr fun heq =>
      absurd heq hself)
    large := Or.inr ⟨_, rfl, rfl⟩ }

theorem sameOutside_init (hm : chunkHeader ≤ m) : SameOutside a m h (h.init a m) := by
  unfold Heap.init
  have hrefl := SameOutside.refl a m h
  exact (((hrefl.set (Nat.le_refl a) (by omega)).set (Nat.le_refl a) (by omega)).set
    (Nat.le_refl a) (by omega)).set (Nat.le_refl a) (by omega)

/-! ## The search -/

/-- The loop over the free list ends, with the first chunk that is large
enough. -/
theorem firstFit_spec {head : Nat} {xs : List Nat} (hl : Lib.NullLists.Ahead (h.get .next) head xs)
    (hfuel : xs.length ≤ fuel) :
    (∃ x ∈ xs, total ≤ h.get .allocMem x ∧ firstFit h total fuel head = some x) ∨
      (∀ x ∈ xs, h.get .allocMem x < total) ∧ firstFit h total fuel head = some 0 := by
  induction xs generalizing head fuel with
  | nil =>
    have hhead : head = 0 := hl
    refine Or.inr ⟨fun x hx => absurd hx List.not_mem_nil, ?_⟩
    cases fuel <;> rw [firstFit, if_pos hhead]
  | cons x xs ih =>
    obtain ⟨rfl, hx, hrest⟩ := hl
    obtain ⟨fuel, rfl⟩ : ∃ k, fuel = k + 1 := ⟨fuel - 1, by rw [List.length_cons] at hfuel; omega⟩
    rw [firstFit, if_neg hx]
    by_cases hfit : total ≤ h.get .allocMem head
    · exact Or.inl ⟨head, List.mem_cons_self, hfit, if_pos hfit⟩
    · rw [if_neg hfit]
      have hlen : xs.length ≤ fuel := by
        rw [List.length_cons] at hfuel
        omega
      rcases ih hrest hlen with ⟨y, hy, hle, hsome⟩ | ⟨hnone, hzero⟩
      · exact Or.inl ⟨y, List.mem_cons_of_mem _ hy, hle, hsome⟩
      · exact Or.inr ⟨List.forall_mem_cons.mpr ⟨Nat.lt_of_not_le hfit, hnone⟩, hzero⟩

/-- The search in one memory: a free chunk that is large enough, or none
is. -/
theorem Memory.Holds.firstFit (hh : mm.Holds h cs) (hfuel : mm.mempoolSize ≤ fuel) (total : Nat) :
    (∃ c ∈ cs, c.free = true ∧ total ≤ c.size ∧
        firstFit h total fuel mm.freeList = some c.addr) ∨
      (∀ c ∈ cs, c.free = true → c.size < total) ∧ firstFit h total fuel mm.freeList = some 0 := by
  obtain ⟨xs, hxs, hfree⟩ := hh.free
  have hlen : xs.length ≤ fuel := by
    have hcount := hh.tiles.length_le hh.sized
    have hfilter : (freeOnes cs).length ≤ cs.length := List.length_filter_le _ _
    rw [hfree.length_eq, List.length_map]
    omega
  rcases firstFit_spec hxs.ahead hlen with ⟨x, hx, hle, hsome⟩ | ⟨hnone, hzero⟩
  · obtain ⟨c, hc, rfl⟩ := List.mem_map.mp (hfree.mem_iff.mp hx)
    obtain ⟨hc, hcfree⟩ := mem_freeOnes.mp hc
    rw [hh.allocMem_eq c hc] at hle
    exact Or.inl ⟨c, hc, hcfree, hle, hsome⟩
  · refine Or.inr ⟨fun c hc hcfree => ?_, hzero⟩
    rw [← hh.allocMem_eq c hc]
    exact hnone _ (hfree.mem_iff.mpr (List.mem_map_of_mem (mem_freeOnes.mpr ⟨hc, hcfree⟩)))

end Training.MemoryPool
