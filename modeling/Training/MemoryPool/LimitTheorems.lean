/-
Training.MemoryPool.LimitTheorems — the memories of the pool and the limit.

`Pool.Memories` says how the memories of a pool lie and what they add up
to; it looks at the records only, so no store into the heap disturbs it.
A call of `MemoryPoolAlloc` takes a chunk from a memory of the pool, or
from one it gets for the request, or leaves the pool as it is
(`AllocCase`, `memoryPoolAlloc_case`). What the limit leaves room for fits
into the memory that is added (`Pool.Memories.fits`), so the request is
served right after an extension and the search is made at most twice
(`retry_bounded`).

The limit is another matter: what is tested against it is the size of the
request, what is added is a whole memory. `getTotalMemory` stays below the
limit exactly in the runs without a step that does that
(`limit_iff_within`).
-/
import Mathlib.Algebra.Order.BigOperators.Group.List
import Mathlib.Algebra.Order.Ring.Nat
import Training.Lib.Spans
import Training.MemoryPool.HeapTheorems

namespace Training.MemoryPool

open Training.Lib

variable {h : Heap} {mm mm' : Memory} {mp mp' : Pool} {l : List Memory} {s : State}
  {total m a c p wantsize : Nat} {mallocs : List Nat}

/-! ## One memory -/

/-- The first address of a memory and the bytes it has. -/
def Memory.span (mm : Memory) : Nat × Nat := (mm.start, mm.mempoolSize)

theorem span_taken (mm : Memory) (freeList allocList size : Nat) :
    (mm.taken freeList allocList size).span = mm.span := rfl

theorem span_released (mm : Memory) (freeList allocList size : Nat) :
    (mm.released freeList allocList size).span = mm.span := rfl

@[simp] theorem span_takeChunk : (takeChunk h mm total c).2.span = mm.span :=
  span_taken mm _ _ _

@[simp] theorem span_releaseChunk : (releaseChunk h mm c).2.span = mm.span :=
  span_released mm _ _ _

theorem span_freeList (mm : Memory) (free : Nat) :
    Memory.span { mm with freeList := free } = mm.span := rfl

theorem allocMem_init (hm : m < memSizeT) : (h.init a m).get .allocMem a = m := by
  unfold Heap.init
  rw [get_set_ne (by decide), get_set_ne (by decide)]
  exact get_set_self hm

theorem firstFit_cons {fuel free : Nat} (hfree : free ≠ 0) (hfit : total ≤ h.get .allocMem free) :
    firstFit h total (fuel + 1) free = some free := by
  rw [firstFit, if_neg hfree, if_pos hfit]

/-! ## Allocation -/

/-- The chunk that was found, and the memory it was found in. -/
theorem allocFrom_found {found : Found} (hr : allocFrom h m total l = some (some found)) :
    ∃ l₁ mm l₂ c, l = l₁ ++ mm :: l₂ ∧ c ≠ 0 ∧ firstFit h total m mm.freeList = some c ∧
      found = ⟨(takeChunk h mm total c).1, l₁ ++ (takeChunk h mm total c).2 :: l₂,
        c + chunkHeader⟩ := by
  induction l generalizing found with
  | nil => cases hr
  | cons mm rest ih =>
    -- the memory is passed over
    have hothers : ((allocFrom h m total rest).map fun found =>
        found.map fun found => { found with mlist := mm :: found.mlist }) = some (some found) →
        ∃ l₁ mm' l₂ c, mm :: rest = l₁ ++ mm' :: l₂ ∧ c ≠ 0 ∧
          firstFit h total m mm'.freeList = some c ∧
          found = ⟨(takeChunk h mm' total c).1, l₁ ++ (takeChunk h mm' total c).2 :: l₂,
            c + chunkHeader⟩ := by
      intro hmap
      obtain ⟨others, hsome, hfound⟩ := Option.map_eq_some_iff.mp hmap
      obtain ⟨other, rfl, rfl⟩ := Option.map_eq_some_iff.mp hfound
      obtain ⟨l₁, mm', l₂, c, rfl, hc, hfit, rfl⟩ := ih hsome
      exact ⟨mm :: l₁, mm', l₂, c, rfl, hc, hfit, rfl⟩
    rw [allocFrom] at hr
    split at hr
    · exact hothers hr
    · split at hr
      · cases hr
      · exact hothers hr
      · rename_i c hne hfit
        cases hr
        exact ⟨[], mm, rest, c, rfl, hne, hfit, rfl⟩

/-- No memory has a free chunk for the request. -/
def Exhausted (h : Heap) (m total : Nat) (l : List Memory) : Prop :=
  ∀ mm ∈ l, sub m mm.allocMem < total ∨ firstFit h total m mm.freeList = some 0

theorem allocFrom_missed_iff : allocFrom h m total l = some none ↔ Exhausted h m total l := by
  induction l with
  | nil => exact iff_of_true rfl (by simp [Exhausted])
  | cons mm rest ih =>
    have hothers : ((allocFrom h m total rest).map fun found =>
        found.map fun found => { found with mlist := mm :: found.mlist }) = some none ↔
        Exhausted h m total rest := by
      rw [← ih]
      cases allocFrom h m total rest with
      | none => simp
      | some found => simp
    have hcons : Exhausted h m total (mm :: rest) ↔
        (sub m mm.allocMem < total ∨ firstFit h total m mm.freeList = some 0) ∧
          Exhausted h m total rest := List.forall_mem_cons
    rw [allocFrom, hcons]
    split
    case isTrue hsmall => rw [hothers, and_iff_right (Or.inl hsmall)]
    case isFalse hsmall =>
      rw [or_iff_right hsmall]
      split
      · rename_i hfit
        simp [hfit]
      · rename_i hfit
        rw [hothers, and_iff_right hfit]
      · rename_i c hne hfit
        refine iff_of_false (by simp) fun hzero => hne ?_
        rw [hfit] at hzero
        exact Option.some.inj hzero.1

/-- A memory that has just been set up serves the request. -/
theorem allocFrom_new {n : Nat} (hstart : mm.start ≠ 0) (hm : m < memSizeT) (hpos : 0 < m)
    (htotal : total ≤ n) (hle : n ≤ m) :
    allocFrom (h.init mm.start n) m total (mm.init n :: l) =
      some (some ⟨(takeChunk (h.init mm.start n) (mm.init n) total mm.start).1,
        (takeChunk (h.init mm.start n) (mm.init n) total mm.start).2 :: l,
        mm.start + chunkHeader⟩) := by
  obtain ⟨fuel, rfl⟩ : ∃ fuel, m = fuel + 1 := ⟨m - 1, by omega⟩
  have hroom : ¬ sub (fuel + 1) 0 < total := by
    unfold sub
    rw [Nat.sub_zero, Nat.add_mod_left, Nat.mod_eq_of_lt hm]
    omega
  have hfit : firstFit (h.init mm.start n) total (fuel + 1) mm.start = some mm.start :=
    firstFit_cons hstart (by rw [allocMem_init (by omega)]; exact htotal)
  rw [allocFrom]
  simp only [Memory.init, if_neg hroom, hfit]

/-- What `findFreeChunk` and `MemoryPoolAlloc` can do: take a chunk, extend
the pool and take the chunk there, refuse, or not come back. -/
inductive AllocCase (total : Nat) (mallocs : List Nat) (h : Heap) (mp : Pool) :
    Option (Heap × Pool × Nat) → Prop
  | taken (l₁ : List Memory) (mm : Memory) (l₂ : List Memory) (c : Nat)
      (le : total ≤ mp.mempoolSize) (mlist : mp.mlist = l₁ ++ mm :: l₂) (ne : c ≠ 0)
      (fit : firstFit h total mp.mempoolSize mm.freeList = some c)
      (found : ¬ Exhausted h mp.mempoolSize total mp.mlist) :
      AllocCase total mallocs h mp (some ((takeChunk h mm total c).1,
        { mp with mlist := l₁ ++ (takeChunk h mm total c).2 :: l₂ }, c + chunkHeader))
  | extended (a : Nat) (le : total ≤ mp.mempoolSize) (first : mallocs.head? = some a) (ne : a ≠ 0)
      (missed : Exhausted h mp.mempoolSize total mp.mlist)
      (autoExtend : mp.autoExtend = true)
      (limit : add mp.allocMempoolSize total ≤ mp.maxMempoolSize) :
      AllocCase total mallocs h mp (some
        ((takeChunk (h.init (a + memoryHeader) mp.addMemSz) (mp.newMemory a) total
            (a + memoryHeader)).1,
          { mp.extended a with
            mlist := (takeChunk (h.init (a + memoryHeader) mp.addMemSz) (mp.newMemory a) total
              (a + memoryHeader)).2 :: mp.mlist },
          a + memoryHeader + chunkHeader))
  | refused (same : total ≤ mp.mempoolSize → Exhausted h mp.mempoolSize total mp.mlist →
      mallocs.head?.getD 0 ≠ 0 → mp.autoExtend = true →
      ¬ add mp.allocMempoolSize total ≤ mp.maxMempoolSize) :
      AllocCase total mallocs h mp (some (h, mp, 0))
  | stuck (search : allocFrom h mp.mempoolSize total mp.mlist = none) :
      AllocCase total mallocs h mp none

theorem findFreeChunk_of_found {found : Found}
    (hr : allocFrom h mp.mempoolSize total mp.mlist = some (some found)) :
    findFreeChunk total mallocs h mp =
      some (found.heap, { mp with mlist := found.mlist }, found.ptr) := by
  rw [findFreeChunk.eq_def, hr]

theorem passes_of_found {found : Found}
    (hr : allocFrom h mp.mempoolSize total mp.mlist = some (some found)) :
    passes total mallocs h mp = 1 := by
  rw [passes.eq_def, hr]

theorem extend_some {r : Heap × Pool} (hr : extend h mp total a = some r) :
    mp.autoExtend = true ∧ add mp.allocMempoolSize total ≤ mp.maxMempoolSize ∧ a ≠ 0 ∧
      r = (h.init (a + memoryHeader) mp.addMemSz, mp.extended a) := by
  unfold extend at hr
  split at hr
  · rename_i hauto
    split at hr
    · cases hr
    · rename_i hlimit
      split at hr
      · cases hr
      · rename_i ha
        exact ⟨hauto, Nat.le_of_not_lt hlimit, ha, (Option.some.inj hr).symm⟩
  · cases hr

theorem Pool.addMemSz_eq (hle : mp.mempoolSize ≤ mp.maxMempoolSize)
    (hmax : mp.maxMempoolSize < memSizeT) :
    mp.addMemSz = min mp.mempoolSize (mp.maxMempoolSize - mp.mempoolSize) := by
  have hsub : sub mp.maxMempoolSize mp.mempoolSize = mp.maxMempoolSize - mp.mempoolSize := by
    unfold sub
    rw [Nat.add_sub_assoc hle, Nat.add_mod_left, Nat.mod_eq_of_lt (by omega)]
  unfold Pool.addMemSz
  rw [hsub]
  dsimp only
  split <;> omega

/-! ## The memories -/

def Pool.spans (mp : Pool) : List (Nat × Nat) := mp.mlist.map Memory.span

/-- The memories lie apart in the lower half of the address space, and
`alloc_mempool_size` is what they add up to. -/
structure Pool.Memories (mp : Pool) : Prop where
  header : chunkHeader ≤ mp.mempoolSize
  le : mp.mempoolSize ≤ mp.maxMempoolSize
  max : mp.maxMempoolSize < memSizeT
  total : mp.allocMempoolSize = (mp.spans.map Prod.snd).sum
  apart : mp.spans.Pairwise Spans.Apart
  above : ∀ x ∈ mp.spans, memoryHeader < x.1
  below : ∀ x ∈ mp.spans, x.1 + x.2 ≤ 9223372036854775808
  size : ∀ x ∈ mp.spans, x.2 = mp.mempoolSize ∨ x.2 = mp.addMemSz
  first : ∃ x ∈ mp.spans, x.2 = mp.mempoolSize
  single : mp.autoExtend = false → mp.spans.length = 1

/-- The memories of the pool may change what they have in their lists. -/
theorem Pool.Memories.congr (hmem : mp.Memories)
    (hspans : Pool.spans { mp with mlist := l } = mp.spans) :
    Pool.Memories { mp with mlist := l } where
  header := hmem.header
  le := hmem.le
  max := hmem.max
  total := by rw [hspans]; exact hmem.total
  apart := by rw [hspans]; exact hmem.apart
  above := by rw [hspans]; exact hmem.above
  below := by rw [hspans]; exact hmem.below
  size := by rw [hspans]; exact hmem.size
  first := by rw [hspans]; exact hmem.first
  single := by rw [hspans]; exact hmem.single

theorem Pool.Memories.addMemSz_le (hmem : mp.Memories) : mp.addMemSz ≤ mp.mempoolSize := by
  rw [Pool.addMemSz_eq hmem.le hmem.max]
  exact Nat.min_le_left _ _

theorem Pool.Memories.mempoolSize_le (hmem : mp.Memories) : mp.mempoolSize ≤ mp.allocMempoolSize := by
  obtain ⟨x, hx, hsize⟩ := hmem.first
  rw [hmem.total, ← hsize]
  exact List.single_le_sum (fun _ _ => Nat.zero_le _) _ (List.mem_map_of_mem hx)

theorem Pool.Memories.allocMempoolSize_le (hmem : mp.Memories) :
    mp.allocMempoolSize ≤ 9223372036854775808 - memoryHeader := by
  rw [hmem.total]
  exact Spans.sum_le_of_apart hmem.apart (fun x hx => Nat.le_of_lt (hmem.above x hx)) hmem.below

/-- What the limit leaves room for fits into the memory that is added. -/
theorem Pool.Memories.fits (hmem : mp.Memories) (hle : total ≤ mp.mempoolSize)
    (hlimit : add mp.allocMempoolSize total ≤ mp.maxMempoolSize) : total ≤ mp.addMemSz := by
  have hbase := hmem.mempoolSize_le
  have hbound := hmem.allocMempoolSize_le
  have hsum : add mp.allocMempoolSize total = mp.allocMempoolSize + total :=
    Nat.mod_eq_of_lt (by unfold memSizeT; unfold memoryHeader at hbound; omega)
  rw [Pool.addMemSz_eq hmem.le hmem.max]
  omega

/-- After an extension the request is served from the new memory. -/
theorem Pool.Memories.allocFrom_extend (hmem : mp.Memories) (hle : total ≤ mp.mempoolSize)
    (hlimit : add mp.allocMempoolSize total ≤ mp.maxMempoolSize) :
    allocFrom (h.init (a + memoryHeader) mp.addMemSz) mp.mempoolSize total (mp.extended a).mlist =
      some (some ⟨(takeChunk (h.init (a + memoryHeader) mp.addMemSz) (mp.newMemory a) total
          (a + memoryHeader)).1,
        (takeChunk (h.init (a + memoryHeader) mp.addMemSz) (mp.newMemory a) total
          (a + memoryHeader)).2 :: mp.mlist,
        a + memoryHeader + chunkHeader⟩) := by
  have hstart : a + memoryHeader ≠ 0 := by unfold memoryHeader; omega
  have hpos : 0 < mp.mempoolSize := Nat.lt_of_lt_of_le (by decide) hmem.header
  exact allocFrom_new hstart (Nat.lt_of_le_of_lt hmem.le hmem.max) hpos (hmem.fits hle hlimit)
    hmem.addMemSz_le

theorem findFreeChunk_case (hmem : mp.Memories) (hle : total ≤ mp.mempoolSize) :
    AllocCase total mallocs h mp (findFreeChunk total mallocs h mp) := by
  rw [findFreeChunk.eq_def]
  split
  · exact .stuck ‹_›
  · rename_i found hfound
    obtain ⟨l₁, mm, l₂, c, hmlist, hc, hfit, hr⟩ := allocFrom_found hfound
    cases hr
    refine .taken l₁ mm l₂ c hle hmlist hc hfit fun hmissed => ?_
    rw [allocFrom_missed_iff.mpr hmissed] at hfound
    cases hfound
  · rename_i hmissed
    have hexhausted := allocFrom_missed_iff.mp hmissed
    split
    · exact .refused fun _ _ hfirst => absurd rfl hfirst
    · rename_i a mallocs
      split
      · rename_i hrefused
        refine .refused fun _ _ ha hauto hlimit => ?_
        have hne : a ≠ 0 := ha
        rw [extend, if_pos hauto, if_neg (Nat.not_lt.mpr hlimit), if_neg hne] at hrefused
        cases hrefused
      · rename_i h' mp' hextend
        obtain ⟨hauto, hlimit, ha, hr⟩ := extend_some hextend
        cases hr
        rw [findFreeChunk_of_found (hmem.allocFrom_extend hle hlimit)]
        exact .extended a hle rfl ha hexhausted hauto hlimit

theorem memoryPoolAlloc_case (hmem : mp.Memories) (hwant : wantsize ≠ 0) :
    AllocCase (totalNeededSize wantsize) mallocs h mp (memoryPoolAlloc h mp wantsize mallocs) := by
  unfold memoryPoolAlloc
  rw [if_neg hwant]
  split
  · rename_i hlarge
    exact .refused fun hle => absurd hle (Nat.not_le.mpr hlarge)
  · rename_i hle
    exact findFreeChunk_case hmem (Nat.le_of_not_lt hle)

/-! ## Steps -/

/-- The new memory lies apart from the others. -/
theorem Pool.Memories.extended (hmem : mp.Memories) (ha : a ≠ 0) (hauto : mp.autoExtend = true)
    (hplaced : Placed a (memoryHeader + mp.addMemSz))
    (hclear : ∀ mm ∈ mp.mlist, mm.Clear a (memoryHeader + mp.addMemSz)) :
    (mp.extended a).Memories := by
  have hle := hmem.addMemSz_le
  have hbase := hmem.mempoolSize_le
  have hbound := hmem.allocMempoolSize_le
  have hround : (memoryHeader + mp.addMemSz) % memSizeT = memoryHeader + mp.addMemSz :=
    Nat.mod_eq_of_lt (by unfold memSizeT memoryHeader; omega)
  have hspans : (mp.extended a).spans = (a + memoryHeader, mp.addMemSz) :: mp.spans := rfl
  unfold Placed at hplaced
  rw [hround] at hplaced
  refine ⟨hmem.header, hmem.le, hmem.max, ?_, ?_, ?_, ?_, ?_, ?_, ?_⟩
  · rw [hspans, List.map_cons, List.sum_cons, ← hmem.total]
    show add mp.allocMempoolSize mp.addMemSz = _
    unfold add
    rw [Nat.mod_eq_of_lt (by unfold memSizeT; omega), Nat.add_comm]
  · rw [hspans]
    refine List.pairwise_cons.mpr ⟨fun x hx => ?_, hmem.apart⟩
    obtain ⟨mm, hmm, rfl⟩ := List.mem_map.mp hx
    have hc := hclear mm hmm
    have habove := hmem.above _ hx
    unfold Memory.Clear at hc
    rw [hround] at hc
    unfold Spans.Apart
    simp only [Memory.span] at habove ⊢
    omega
  · rw [hspans]
    exact List.forall_mem_cons.mpr ⟨by dsimp only; omega, hmem.above⟩
  · rw [hspans]
    exact List.forall_mem_cons.mpr ⟨by dsimp only; omega, hmem.below⟩
  · rw [hspans]
    exact List.forall_mem_cons.mpr ⟨Or.inr rfl, hmem.size⟩
  · obtain ⟨x, hx, hsize⟩ := hmem.first
    exact ⟨x, List.mem_cons_of_mem _ hx, hsize⟩
  · intro hno
    exact absurd (hauto.symm.trans hno) (by decide)

/-- The memory of a chunk that changes hands. -/
theorem spans_replace (hspan : mm'.span = mm.span) (l₁ l₂ : List Memory) :
    (l₁ ++ mm' :: l₂).map Memory.span = (l₁ ++ mm :: l₂).map Memory.span := by
  rw [List.map_append, List.map_append, List.map_cons, List.map_cons, hspan]

/-- A chunk that is released and merged stays in its memory. -/
theorem memoryPoolFree_pool {r : Heap × Pool × List Nat} (hr : memoryPoolFree h mp p = some r) :
    ∃ l, r.2.1 = { mp with mlist := l } ∧ l.map Memory.span = mp.spans := by
  unfold memoryPoolFree at hr
  split at hr
  · cases hr
    exact ⟨mp.mlist, rfl, rfl⟩
  · split at hr
    · cases hr
    · rename_i i hi
      split at hr
      · cases hr
      · rename_i mm hmm
        obtain ⟨merged, hmerged, rfl⟩ := Option.map_eq_some_iff.mp hr
        refine ⟨_, rfl, ?_⟩
        obtain ⟨hlt, rfl⟩ := List.getElem?_eq_some_iff.mp hmm
        rw [List.map_set, span_freeList, span_releaseChunk, Pool.spans]
        have hi' : i < (mp.mlist.map Memory.span).length := by rwa [List.length_map]
        have hself := List.set_getElem_self hi'
        rwa [List.getElem_map] at hself

theorem memoryPoolAlloc_zero : memoryPoolAlloc h mp 0 mallocs = some (h, mp, 0) := if_pos rfl

theorem alloc_memories (hmem : s.pool.Memories) (hg : s.Granted (.alloc wantsize mallocs)) :
    (s.alloc wantsize mallocs).pool.Memories := by
  by_cases hwant : wantsize = 0
  · subst hwant
    rw [State.alloc, memoryPoolAlloc_zero]
    exact hmem
  · have hcase : AllocCase (totalNeededSize wantsize) mallocs s.heap s.pool
        (memoryPoolAlloc s.heap s.pool wantsize mallocs) := memoryPoolAlloc_case hmem hwant
    unfold State.alloc
    generalize memoryPoolAlloc s.heap s.pool wantsize mallocs = r at hcase
    cases hcase with
    | taken l₁ mm l₂ c hle hmlist hc hfit _ =>
      refine hmem.congr ?_
      rw [Pool.spans, Pool.spans, hmlist]
      exact spans_replace span_takeChunk l₁ l₂
    | extended a hle hfirst ha hmissed hauto hlimit =>
      obtain ⟨hplaced, hclear⟩ := hg.2 a (List.mem_of_mem_head? hfirst) ha
      refine (hmem.extended ha hauto hplaced hclear).congr ?_
      exact spans_replace span_takeChunk [] s.pool.mlist
    | refused => exact hmem
    | stuck => exact hmem

theorem step_memories (hmem : s.pool.Memories) (e : Event) (hg : s.Granted e) :
    (step s e).pool.Memories := by
  unfold step
  split
  · exact hmem
  · cases e with
    | alloc wantsize mallocs => exact alloc_memories hmem hg
    | free p =>
      show (s.free p).pool.Memories
      unfold State.free
      cases hr : memoryPoolFree s.heap s.pool p with
      | none => exact hmem
      | some r =>
        obtain ⟨l, hpool, hspans⟩ := memoryPoolFree_pool hr
        show r.2.1.Memories
        rw [hpool]
        exact hmem.congr hspans
    | clear =>
      refine hmem.congr ?_
      rw [Pool.spans, Pool.spans, List.map_map]
      exact List.map_congr_left fun mm _ => rfl

/-- The pool that `MemoryPoolInit` makes. -/
def newPool (maxMempoolSize mempoolSize a : Nat) (junk : Bool) : Pool where
  lastId := 1
  autoExtend := if mempoolSize < maxMempoolSize then true else junk
  mempoolSize := mempoolSize
  maxMempoolSize := maxMempoolSize
  allocMempoolSize := mempoolSize
  mlist := [Memory.init ⟨a + memoryHeader, 0, 0, 0, 0, 0, 0⟩ mempoolSize]

theorem memoryPoolInit_some {maxMempoolSize mempoolSize mpPtr : Nat} {junk : Bool}
    {r : Heap × Pool} (hr : memoryPoolInit h maxMempoolSize mempoolSize mpPtr a junk = some r) :
    mempoolSize ≤ maxMempoolSize ∧ a ≠ 0 ∧
      memoryHeader + chunkHeader ≤ (memoryHeader + mempoolSize) % memSizeT ∧
      r = (h.init (a + memoryHeader) mempoolSize, newPool maxMempoolSize mempoolSize a junk) := by
  unfold memoryPoolInit at hr
  split at hr
  · cases hr
  · rename_i hle
    split at hr
    · cases hr
    · split at hr
      · cases hr
      · rename_i ha
        split at hr
        · cases hr
        · rename_i hheader
          exact ⟨Nat.le_of_not_lt hle, ha, Nat.le_of_not_lt hheader, (Option.some.inj hr).symm⟩

/-- How a run starts: one memory, which is one free chunk. -/
theorem Created.start (hs : Created s) :
    ∃ (h : Heap) (maxMempoolSize mempoolSize a : Nat) (junk : Bool),
      s.heap = h.init (a + memoryHeader) mempoolSize ∧
      s.pool = newPool maxMempoolSize mempoolSize a junk ∧ mempoolSize ≤ maxMempoolSize ∧
      maxMempoolSize < memSizeT ∧ chunkHeader ≤ mempoolSize ∧ a ≠ 0 ∧
      a + memoryHeader + mempoolSize ≤ 9223372036854775808 := by
  obtain ⟨h, maxMempoolSize, mempoolSize, mpPtr, a, junk, hmade, hmax, hplaced⟩ := hs.made
  obtain ⟨hle, ha, hheader, hr⟩ := memoryPoolInit_some hmade
  have hround : (memoryHeader + mempoolSize) % memSizeT = memoryHeader + mempoolSize := by
    unfold memSizeT memoryHeader chunkHeader at *
    omega
  unfold Placed at hplaced
  rw [hround] at hheader hplaced
  exact ⟨h, maxMempoolSize, mempoolSize, a, junk, congrArg Prod.fst hr, congrArg Prod.snd hr, hle,
    hmax, by omega, ha, by omega⟩

theorem Created.memories (hs : Created s) : s.pool.Memories := by
  obtain ⟨h, maxMempoolSize, mempoolSize, a, junk, -, hpool, hle, hmax, hheader, ha, hbound⟩ :=
    hs.start
  have hspans : (newPool maxMempoolSize mempoolSize a junk).spans =
      [(a + memoryHeader, mempoolSize)] := rfl
  rw [hpool]
  refine ⟨hheader, hle, hmax, ?_, ?_, ?_, ?_, ?_, ⟨_, List.mem_singleton_self _, rfl⟩, fun _ => rfl⟩
  · rw [hspans]
    rfl
  · rw [hspans]
    exact List.pairwise_singleton _ _
  · rw [hspans]
    exact List.forall_mem_singleton.mpr (by dsimp only; omega)
  · rw [hspans]
    exact List.forall_mem_singleton.mpr hbound
  · rw [hspans]
    exact List.forall_mem_singleton.mpr (Or.inl rfl)

theorem run_memories (hs : Created s) (es : List Event) (hg : Along step State.Granted s es) :
    (run step s es).pool.Memories :=
  run_invariant (I := fun s => s.pool.Memories) (fun _ e hmem hg => step_memories hmem e hg) hg
    hs.memories

/-! ## The retry -/

/-- A search that follows an extension is the last. -/
theorem Pool.Memories.passes_le (hmem : mp.Memories) (hle : total ≤ mp.mempoolSize) :
    passes total mallocs h mp ≤ 2 := by
  rw [passes.eq_def]
  split
  · decide
  · decide
  · split
    · decide
    · rename_i a mallocs
      split
      · decide
      · rename_i h' mp' hextend
        obtain ⟨-, hlimit, -, hr⟩ := extend_some hextend
        cases hr
        rw [passes_of_found (hmem.allocFrom_extend hle hlimit)]

/-- `malloc` is asked once. -/
theorem Pool.Memories.findFreeChunk_take (hmem : mp.Memories) (hle : total ≤ mp.mempoolSize) :
    findFreeChunk total mallocs h mp = findFreeChunk total (mallocs.take 1) h mp := by
  cases mallocs with
  | nil => rfl
  | cons a mallocs =>
    rw [List.take_succ_cons, List.take_zero, findFreeChunk, findFreeChunk]
    split
    · rfl
    · rfl
    · cases hextend : extend h mp total a with
      | none => rfl
      | some r =>
        obtain ⟨-, hlimit, -, rfl⟩ := extend_some hextend
        dsimp only
        rw [findFreeChunk_of_found (hmem.allocFrom_extend hle hlimit),
          findFreeChunk_of_found (hmem.allocFrom_extend hle hlimit)]

/-- In every pool that a run reaches, a request that gets as far as
`FIND_FREE_CHUNK` passes it at most twice: it asks `malloc` once, and what
`malloc` gives serves it. -/
theorem retry_bounded (hs : Created s) (es : List Event) (hg : Along step State.Granted s es)
    (wantsize : Nat) (mallocs : List Nat)
    (hle : totalNeededSize wantsize ≤ (run step s es).pool.mempoolSize) :
    passes (totalNeededSize wantsize) mallocs (run step s es).heap (run step s es).pool ≤ 2 ∧
      memoryPoolAlloc (run step s es).heap (run step s es).pool wantsize mallocs =
        memoryPoolAlloc (run step s es).heap (run step s es).pool wantsize (mallocs.take 1) ∧
      ∀ a h mp, extend (run step s es).heap (run step s es).pool (totalNeededSize wantsize) a =
          some (h, mp) →
        ∃ found, allocFrom h mp.mempoolSize (totalNeededSize wantsize) mp.mlist = some (some found) ∧
          found.ptr = a + memoryHeader + chunkHeader := by
  have hmem := run_memories hs es hg
  refine ⟨hmem.passes_le hle, ?_, fun a h mp hextend => ?_⟩
  · unfold memoryPoolAlloc
    rw [hmem.findFreeChunk_take hle]
  · obtain ⟨-, hlimit, -, hr⟩ := extend_some hextend
    cases hr
    exact ⟨_, hmem.allocFrom_extend hle hlimit, rfl⟩

/-- A pool with one memory of 128 bytes at 1064 and room for another one. -/
def smallPool (maxMempoolSize : Nat) : State where
  heap := Heap.init (fun _ => 0) (1000 + memoryHeader) 128
  pool := newPool maxMempoolSize 128 1000 true

theorem created_smallPool (h : 128 < m) (hm : m < memSizeT) : Created (smallPool m) where
  made := by
    refine ⟨fun _ => 0, m, 128, 8, 1000, true, ?_, hm, by decide⟩
    unfold memoryPoolInit
    rw [if_neg (Nat.not_lt.mpr (Nat.le_of_lt h)), if_neg (by decide), if_neg (by decide),
      if_neg (by decide)]
    rfl
  live := rfl
  running := rfl

theorem retry_bounded_extended :
    totalNeededSize 80 ≤ (run step (smallPool 256) [.alloc 80 []]).pool.mempoolSize ∧
      passes (totalNeededSize 80) [5000] (run step (smallPool 256) [.alloc 80 []]).heap
        (run step (smallPool 256) [.alloc 80 []]).pool ≤ 2 := by
  have hle : totalNeededSize 80 ≤ (run step (smallPool 256) [.alloc 80 []]).pool.mempoolSize := by
    decide +kernel
  have hg : Along step State.Granted (smallPool 256) [.alloc 80 []] :=
    ⟨⟨by decide, by simp⟩, trivial⟩
  exact ⟨hle, (retry_bounded (created_smallPool (by decide) (by decide)) _ hg 80 [5000] hle).1⟩

example : passes (totalNeededSize 80) [5000] (run step (smallPool 256) [.alloc 80 []]).heap
    (run step (smallPool 256) [.alloc 80 []]).pool = 2 := by decide +kernel

/-! ## The limit -/

/-- A request that no chunk serves and that the limit lets through does not
take the pool beyond the limit. -/
def State.WithinLimit (s : State) : Event → Prop
  | .alloc wantsize mallocs =>
      s.stuck = false → wantsize ≠ 0 → totalNeededSize wantsize ≤ s.pool.mempoolSize →
        Exhausted s.heap s.pool.mempoolSize (totalNeededSize wantsize) s.pool.mlist →
        mallocs.head?.getD 0 ≠ 0 → s.pool.autoExtend = true →
        s.pool.allocMempoolSize + totalNeededSize wantsize ≤ s.pool.maxMempoolSize →
          s.pool.allocMempoolSize + s.pool.addMemSz ≤ s.pool.maxMempoolSize
  | _ => True

theorem Pool.Memories.add_eq (hmem : mp.Memories) (hle : total ≤ mp.mempoolSize) :
    add mp.allocMempoolSize total = mp.allocMempoolSize + total := by
  have hbase := hmem.mempoolSize_le
  have hbound := hmem.allocMempoolSize_le
  exact Nat.mod_eq_of_lt (by unfold memSizeT; unfold memoryHeader at hbound; omega)

def State.Limited (s : State) : Prop := getTotalMemory s.pool ≤ s.pool.maxMempoolSize

theorem alloc_limited_iff (hmem : s.pool.Memories) (hlimited : s.Limited)
    (hrunning : s.stuck = false) :
    (s.alloc wantsize mallocs).Limited ↔ s.WithinLimit (.alloc wantsize mallocs) := by
  by_cases hwant : wantsize = 0
  · subst hwant
    rw [State.alloc, memoryPoolAlloc_zero]
    exact iff_of_true hlimited fun _ hne => absurd rfl hne
  · have hcase : AllocCase (totalNeededSize wantsize) mallocs s.heap s.pool
        (memoryPoolAlloc s.heap s.pool wantsize mallocs) := memoryPoolAlloc_case hmem hwant
    unfold State.alloc
    generalize memoryPoolAlloc s.heap s.pool wantsize mallocs = r at hcase
    cases hcase with
    | taken l₁ mm l₂ c hle hmlist hc hfit hfound =>
      exact iff_of_true hlimited fun _ _ _ hmissed => absurd hmissed hfound
    | extended a hle hfirst ha hmissed hauto hlimit =>
      have hsum : (s.pool.extended a).allocMempoolSize =
          s.pool.allocMempoolSize + s.pool.addMemSz := hmem.add_eq hmem.addMemSz_le
      have hhead : mallocs.head?.getD 0 ≠ 0 := by
        rw [hfirst]
        exact ha
      rw [hmem.add_eq hle] at hlimit
      show (s.pool.extended a).allocMempoolSize ≤ s.pool.maxMempoolSize ↔ _
      rw [hsum]
      exact ⟨fun hroom _ _ _ _ _ _ _ => hroom,
        fun hwithin => hwithin hrunning hwant hle hmissed hhead hauto hlimit⟩
    | refused hsame =>
      refine iff_of_true hlimited fun _ _ hle hmissed hhead hauto hlimit => ?_
      rw [← hmem.add_eq hle] at hlimit
      exact absurd hlimit (hsame hle hmissed hhead hauto)
    | stuck hsearch =>
      refine iff_of_true hlimited fun _ _ _ hmissed => ?_
      rw [allocFrom_missed_iff.mpr hmissed] at hsearch
      cases hsearch

theorem step_limited_iff (hmem : s.pool.Memories) (hlimited : s.Limited) (e : Event) :
    (step s e).Limited ↔ s.WithinLimit e := by
  unfold step
  cases hstuck : s.stuck with
  | true =>
    refine iff_of_true hlimited ?_
    cases e with
    | alloc wantsize mallocs =>
      intro hrunning
      exact absurd (hstuck.symm.trans hrunning) (by decide)
    | free p => trivial
    | clear => trivial
  | false =>
    rw [if_neg Bool.false_ne_true]
    cases e with
    | alloc wantsize mallocs => exact alloc_limited_iff hmem hlimited hstuck
    | free p =>
      refine iff_of_true ?_ trivial
      show (s.free p).Limited
      unfold State.free
      cases hr : memoryPoolFree s.heap s.pool p with
      | none => exact hlimited
      | some r =>
        obtain ⟨l, hpool, -⟩ := memoryPoolFree_pool hr
        show getTotalMemory r.2.1 ≤ r.2.1.maxMempoolSize
        rw [hpool]
        exact hlimited
    | clear => exact iff_of_true hlimited trivial

/-- A run keeps the memory limit exactly when no step of it adds a memory
that does not fit below it. -/
theorem limit_iff_within (hs : Created s) (es : List Event)
    (hg : Along step State.Granted s es) :
    Throughout step State.Limited s es ↔ Along step State.WithinLimit s es := by
  have hstart : s.Limited := by
    obtain ⟨h, maxMempoolSize, mempoolSize, a, junk, -, hpool, hle, -⟩ := hs.start
    rw [State.Limited, hpool]
    exact hle
  refine throughout_iff_along_of_guard (I := fun s => s.pool.Memories) (fun s e hmem hg hlimited => ?_)
    hg hs.memories hstart
  exact ⟨step_memories hmem e hg, step_limited_iff hmem hlimited e⟩

/-- Two requests of 80 bytes fill a memory each, and one of 20 bytes takes
a third memory. -/
def threeMemories : List Event := [.alloc 80 [], .alloc 80 [5000], .alloc 20 [9000]]

theorem granted_threeMemories : Along step State.Granted (smallPool 320) threeMemories := by
  refine ⟨⟨by decide, by simp⟩, ⟨by decide, ?_⟩, ⟨by decide, ?_⟩, trivial⟩
  · intro a ha hne
    rw [List.mem_singleton.mp ha]
    decide +kernel
  · intro a ha hne
    rw [List.mem_singleton.mp ha]
    decide +kernel

theorem limit_iff_within_three :
    Throughout step State.Limited (smallPool 320) threeMemories ↔
      Along step State.WithinLimit (smallPool 320) threeMemories :=
  limit_iff_within (created_smallPool (by decide) (by decide)) _ granted_threeMemories

/-- The third request, of 64 bytes, is below the limit; the memory that is
added for it is not. -/
theorem limit_exceeded :
    Created (smallPool 320) ∧ Along step State.Granted (smallPool 320) threeMemories ∧
      getTotalMemory (run step (smallPool 320) threeMemories).pool = 384 ∧
      ¬ Throughout step State.Limited (smallPool 320) threeMemories := by
  have htotal : getTotalMemory (run step (smallPool 320) threeMemories).pool = 384 := by
    decide +kernel
  have hmax : (run step (smallPool 320) threeMemories).pool.maxMempoolSize = 320 := by
    decide +kernel
  refine ⟨created_smallPool (by decide) (by decide), granted_threeMemories, htotal, fun h => ?_⟩
  have hlast := h.2.2.2
  have hlimited : getTotalMemory (run step (smallPool 320) threeMemories).pool ≤
      (run step (smallPool 320) threeMemories).pool.maxMempoolSize := hlast
  rw [htotal, hmax] at hlimited
  omega

end Training.MemoryPool
