/-
Training.MemoryPool.RunTheorems — the pool over whole runs.

`s.Inv ps` says what the pairs `ps` of memories and chunks have to do with
a state: each memory is good, and the blocks that are live stand in the
chunks that are in use, each in one. A request that does not wrap around
keeps it (`State.Inv.alloc`), and so does a release that is told the right
memory and does not run out of it (`State.Inv.free`).
-/
import Mathlib.Data.List.Forall2
import Training.MemoryPool.MergeTheorems

namespace Training.MemoryPool

open Training.Lib Training.Lib.Memory Training.Lib.Tiling

/-- A memory and its chunks. -/
abbrev Laid := Memory × List Chunk

variable {h h' : Heap} {mm mm' : Memory} {mp : Pool} {cs cs' : List Chunk} {c : Chunk}
  {s : State} {ps front back : List Laid} {a n m p total wantsize : Nat} {mallocs : List Nat}

/-! ## The invariant -/

def usedChunks (ps : List Laid) : List Chunk := ps.flatMap fun p => usedOnes p.2

/-- The block has its chunk, and room in it. -/
structure Stands (b : Block) (c : Chunk) : Prop where
  ptr : b.ptr = c.addr + chunkHeader
  fits : b.wantsize + (chunkHeader + chunkEnd) ≤ c.size

structure State.Inv (s : State) (ps : List Laid) : Prop where
  running : s.stuck = false
  memories : s.pool.Memories
  mlist : s.pool.mlist = ps.map Prod.fst
  good : ∀ p ∈ ps, p.1.Good s.heap p.2
  live : ∃ used, used.Perm (usedChunks ps) ∧ List.Forall₂ Stands s.live used

theorem State.Inv.apart (hi : s.Inv ps) :
    ps.Pairwise fun p q => Spans.Apart p.1.span q.1.span := by
  have hapart := hi.memories.apart
  rw [Pool.spans, hi.mlist, List.map_map] at hapart
  exact List.pairwise_map.mp hapart

/-- A memory of the pool is at most as large as the first one. -/
theorem State.Inv.size_le (hi : s.Inv ps) {p : Laid} (hp : p ∈ ps) :
    p.1.mempoolSize ≤ s.pool.mempoolSize := by
  have hmem : p.1.span ∈ s.pool.spans := by
    rw [Pool.spans, hi.mlist, List.map_map]
    exact List.mem_map_of_mem (f := Memory.span ∘ Prod.fst) hp
  have hle := hi.memories.addMemSz_le
  rcases hi.memories.size _ hmem with heq | heq
  · exact Nat.le_of_eq heq
  · exact Nat.le_trans (Nat.le_of_eq heq) hle

theorem mem_around {x y : Laid} : y ∈ front ++ x :: back ↔ y = x ∨ y ∈ front ++ back := by
  rw [List.mem_append, List.mem_append, List.mem_cons]
  tauto

/-- One memory is written to. -/
theorem good_replace {x x' : Laid}
    (hapart : (front ++ x :: back).Pairwise fun p q => Spans.Apart p.1.span q.1.span)
    (hgood : ∀ p ∈ front ++ x :: back, p.1.Good h p.2)
    (hsame : SameOutside x.1.start x.1.mempoolSize h h') (hnew : x'.1.Good h' x'.2) :
    ∀ p ∈ front ++ x' :: back, p.1.Good h' p.2 := by
  intro p hp
  rcases mem_around.mp hp with rfl | hp'
  · exact hnew
  · refine (hgood p (mem_around.mpr (Or.inr hp'))).frame hsame ?_
    obtain ⟨-, hback, hcross⟩ := List.pairwise_append.mp hapart
    rcases List.mem_append.mp hp' with hp' | hp'
    · exact hcross p hp' x List.mem_cons_self
    · exact ((List.pairwise_cons.mp hback).1 p hp').symm

theorem usedChunks_around (x : Laid) :
    (usedChunks (front ++ x :: back)).Perm (usedOnes x.2 ++ usedChunks (front ++ back)) := by
  unfold usedChunks
  rw [List.flatMap_append, List.flatMap_cons, List.flatMap_append, ← List.append_assoc,
    ← List.append_assoc]
  exact List.Perm.append_right _ List.perm_append_comm

/-! ## Requests -/

/-- A request that does not wrap around gets a chunk with room for it. -/
theorem totalNeededSize_ge (hw : wantsize + 47 < memSizeT) :
    wantsize + (chunkHeader + chunkEnd) ≤ totalNeededSize wantsize := by
  have hfirst : add wantsize (chunkHeader + chunkEnd) = wantsize + (chunkHeader + chunkEnd) :=
    add_eq (by unfold chunkHeader chunkEnd; omega)
  unfold totalNeededSize mpAlignSize
  rw [hfirst, add_eq (by unfold chunkHeader chunkEnd; omega)]
  unfold chunkHeader chunkEnd
  omega

/-- A chunk is handed out. -/
theorem State.Inv.take {t : State} (hi : s.Inv (front ++ (mm, cs) :: back)) (hc : c ∈ cs)
    (hfree : c.free = true) (hwant : 0 < wantsize)
    (hfits : wantsize + (chunkHeader + chunkEnd) ≤ total) (hle : total ≤ c.size)
    (hheap : t.heap = (takeChunk s.heap mm total c.addr).1) (hmem : t.pool.Memories)
    (hmlist : t.pool.mlist =
      front.map Prod.fst ++ (takeChunk s.heap mm total c.addr).2 :: back.map Prod.fst)
    (hlive : t.live = ⟨c.addr + chunkHeader, wantsize⟩ :: s.live) (hrunning : t.stuck = false) :
    ∃ ps, t.Inv ps := by
  obtain ⟨cs', n, hgood, hn, hused, hsame⟩ :=
    (hi.good (mm, cs) (mem_around.mpr (Or.inl rfl))).takeChunk hc hfree (by omega) hle
  refine ⟨front ++ ((takeChunk s.heap mm total c.addr).2, cs') :: back, hrunning, hmem, ?_, ?_, ?_⟩
  · rw [hmlist, List.map_append, List.map_cons]
  · rw [hheap]
    exact good_replace hi.apart hi.good hsame hgood
  · obtain ⟨used, hperm, hstands⟩ := hi.live
    refine ⟨⟨c.addr, n, false⟩ :: used, ?_, hlive ▸ .cons ⟨rfl, Nat.le_trans hfits hn⟩ hstands⟩
    have hold : used.Perm (usedOnes cs ++ usedChunks (front ++ back)) :=
      hperm.trans (usedChunks_around (mm, cs))
    have hnew : (usedOnes cs' ++ usedChunks (front ++ back)).Perm
        (⟨c.addr, n, false⟩ :: (usedOnes cs ++ usedChunks (front ++ back))) :=
      hused.append_right _
    exact (hold.cons _).trans (hnew.symm.trans (usedChunks_around (_, cs')).symm)

/-- The search comes back. -/
theorem State.Inv.allocFrom_ne_none (hi : s.Inv ps) :
    allocFrom s.heap s.pool.mempoolSize total s.pool.mlist ≠ none := by
  rw [hi.mlist]
  have hall : ∀ p ∈ ps, firstFit s.heap total s.pool.mempoolSize p.1.freeList ≠ none := by
    intro p hp hnone
    rcases (hi.good p hp).toHolds.firstFit (hi.size_le hp) total with
      ⟨c, -, -, -, hsome⟩ | ⟨-, hsome⟩
    · rw [hnone] at hsome
      cases hsome
    · rw [hnone] at hsome
      cases hsome
  clear hi
  induction ps with
  | nil => simp [allocFrom]
  | cons p ps ih =>
    have hrest := ih fun q hq => hall q (List.mem_cons_of_mem _ hq)
    have hfirst := hall p List.mem_cons_self
    rw [List.map_cons, allocFrom]
    split
    · simpa using hrest
    · split
      · exact absurd ‹_› hfirst
      · simpa using hrest
      · simp

/-- Where the chunk that was found lies. -/
theorem State.Inv.found (hi : s.Inv ps) {l₁ l₂ : List Memory}
    (hmlist : s.pool.mlist = l₁ ++ mm :: l₂)
    (hfit : firstFit s.heap total s.pool.mempoolSize mm.freeList = some a) (ha : a ≠ 0) :
    ∃ front cs back c, ps = front ++ (mm, cs) :: back ∧ l₁ = front.map Prod.fst ∧
      l₂ = back.map Prod.fst ∧ c ∈ cs ∧ c.free = true ∧ total ≤ c.size ∧ a = c.addr := by
  have hps := hi.mlist.symm.trans hmlist
  obtain ⟨front, rest, rfl, rfl, hrest⟩ := List.map_eq_append_iff.mp hps
  obtain ⟨⟨mm', cs⟩, back, rfl, rfl, rfl⟩ := List.map_eq_cons_iff.mp hrest
  have hp : (mm', cs) ∈ front ++ (mm', cs) :: back := mem_around.mpr (Or.inl rfl)
  rcases (hi.good _ hp).toHolds.firstFit (hi.size_le hp) total with
    ⟨c, hc, hcfree, hle, hsome⟩ | ⟨-, hzero⟩
  · have heq : some a = some c.addr := hfit.symm.trans hsome
    exact ⟨front, cs, back, c, rfl, rfl, rfl, hc, hcfree, hle, Option.some.inj heq⟩
  · have heq : some a = some 0 := hfit.symm.trans hzero
    exact absurd (Option.some.inj heq) ha

/-- The pool has a new memory. -/
theorem State.Inv.extend {t : State} (hi : s.Inv ps) (hmem : (s.pool.extended a).Memories)
    (hheader : chunkHeader ≤ s.pool.addMemSz)
    (hheap : t.heap = s.heap.init (a + memoryHeader) s.pool.addMemSz)
    (hpool : t.pool = s.pool.extended a) (hlive : t.live = s.live) (hrunning : t.stuck = false) :
    t.Inv ((s.pool.newMemory a, [⟨a + memoryHeader, s.pool.addMemSz, true⟩]) :: ps) := by
  have hspans : (s.pool.extended a).spans = (a + memoryHeader, s.pool.addMemSz) :: s.pool.spans :=
    rfl
  have hapart := hmem.apart
  have hbelow := hmem.below
  rw [hspans] at hapart hbelow
  refine ⟨hrunning, hpool ▸ hmem, ?_, ?_, ?_⟩
  · rw [hpool, List.map_cons, ← hi.mlist]
    rfl
  · rw [hheap]
    refine List.forall_mem_cons.mpr ⟨?_, fun p hp => ?_⟩
    · exact Memory.good_init ⟨a + memoryHeader, s.pool.lastId, 0, 0, 0, 0, 0⟩
        (by unfold memoryHeader; dsimp only; omega) (hbelow _ List.mem_cons_self) hheader
    · refine (hi.good p hp).frame (sameOutside_init hheader) ?_
      have hp' : p.1.span ∈ s.pool.spans := by
        rw [Pool.spans, hi.mlist, List.map_map]
        exact List.mem_map_of_mem (f := Memory.span ∘ Prod.fst) hp
      exact ((List.pairwise_cons.mp hapart).1 _ hp').symm
  · obtain ⟨used, hperm, hstands⟩ := hi.live
    exact ⟨used, hperm, hlive ▸ hstands⟩

theorem State.Inv.alloc (hi : s.Inv ps) (hg : s.Granted (.alloc wantsize mallocs))
    (hw : wantsize + 47 < memSizeT) : ∃ ps', (s.alloc wantsize mallocs).Inv ps' := by
  by_cases hwant : wantsize = 0
  · subst hwant
    rw [State.alloc, memoryPoolAlloc_zero]
    exact ⟨ps, hi⟩
  · have hpos : 0 < wantsize := Nat.pos_of_ne_zero hwant
    have hne : ∀ x, x + chunkHeader ≠ 0 := fun x => by unfold chunkHeader; omega
    have hge := totalNeededSize_ge hw
    have hmem := alloc_memories hi.memories hg
    have hcase : AllocCase (totalNeededSize wantsize) mallocs s.heap s.pool
        (memoryPoolAlloc s.heap s.pool wantsize mallocs) := memoryPoolAlloc_case hi.memories hwant
    unfold State.alloc at hmem ⊢
    generalize memoryPoolAlloc s.heap s.pool wantsize mallocs = r at hcase hmem
    cases hcase with
    | taken l₁ mm l₂ a hle hmlist ha hfit _ =>
      obtain ⟨front, cs, back, c, rfl, rfl, rfl, hc, hcfree, hle', rfl⟩ := hi.found hmlist hfit ha
      refine hi.take hc hcfree hpos hge hle' rfl hmem rfl ?_ hi.running
      dsimp only
      rw [if_neg (hne _)]
    | extended a hle hfirst ha _ hauto hlimit =>
      obtain ⟨hplaced, hclear⟩ := hg.2 a (List.mem_of_mem_head? hfirst) ha
      have hmem' := hi.memories.extended ha hauto hplaced hclear
      have hfits := hi.memories.fits hle hlimit
      have hi' : State.Inv { s with
          heap := s.heap.init (a + memoryHeader) s.pool.addMemSz, pool := s.pool.extended a }
          ([] ++ (s.pool.newMemory a, [⟨a + memoryHeader, s.pool.addMemSz, true⟩]) :: ps) :=
        hi.extend hmem' (by omega) rfl rfl rfl hi.running
      have hmlist : (takeChunk (s.heap.init (a + memoryHeader) s.pool.addMemSz)
          (s.pool.newMemory a) (totalNeededSize wantsize) (a + memoryHeader)).2 :: s.pool.mlist =
          (takeChunk (s.heap.init (a + memoryHeader) s.pool.addMemSz) (s.pool.newMemory a)
            (totalNeededSize wantsize) (a + memoryHeader)).2 :: ps.map Prod.fst := by
        rw [hi.mlist]
      refine hi'.take List.mem_cons_self rfl hpos hge hfits rfl hmem hmlist ?_ hi.running
      dsimp only
      rw [if_neg (hne _)]
    | refused => exact ⟨ps, hi⟩
    | stuck hsearch => exact absurd hsearch hi.allocFrom_ne_none

/-! ## Blocks and chunks -/

theorem State.Inv.nodup_used (hi : s.Inv ps) : ((usedChunks ps).map Chunk.addr).Nodup := by
  unfold usedChunks
  rw [List.map_flatMap, List.nodup_flatMap]
  refine ⟨fun p hp => ?_, hi.apart.imp_of_mem fun {p q} hp hq hpq x hxp hxq => ?_⟩
  · have hg := hi.good p hp
    exact (hg.tiles.nodup_addr hg.sized).sublist (List.filter_sublist.map _)
  · obtain ⟨c, hc, rfl⟩ := List.mem_map.mp hxp
    obtain ⟨d, hd, hdc⟩ := List.mem_map.mp hxq
    have hcbounds := (hi.good p hp).tiles.bounds (mem_usedOnes.mp hc).1
    have hdbounds := (hi.good q hq).tiles.bounds (mem_usedOnes.mp hd).1
    have hcpos := (hi.good p hp).sized c (mem_usedOnes.mp hc).1
    have hdpos := (hi.good q hq).sized d (mem_usedOnes.mp hd).1
    unfold Chunk.stop at hcbounds hdbounds
    unfold Spans.Apart Memory.span at hpq
    dsimp only at hpq
    omega

/-- An address lies in one memory only. -/
theorem State.Inv.memory_unique (hi : s.Inv ps) {p q : Laid} (hp : p ∈ ps) (hq : q ∈ ps) {x : Nat}
    (hxp : p.1.start ≤ x ∧ x < p.1.start + p.1.mempoolSize)
    (hxq : q.1.start ≤ x ∧ x < q.1.start + q.1.mempoolSize) : p = q := by
  by_contra hne
  have hsymm : Std.Symm fun p q : Laid => Spans.Apart p.1.span q.1.span := ⟨fun _ _ h => h.symm⟩
  have hapart := hi.apart.forall hp hq hne
  unfold Spans.Apart Memory.span at hapart
  dsimp only at hapart
  omega

theorem exists_related {α β : Type*} {R : α → β → Prop} {xs : List α} {ys : List β} {x : α}
    (h : List.Forall₂ R xs ys) (hx : x ∈ xs) : ∃ y ∈ ys, R x y := by
  induction h with
  | nil => cases hx
  | cons hxy _ ih =>
    rcases List.mem_cons.mp hx with rfl | hx
    · exact ⟨_, List.mem_cons_self, hxy⟩
    · obtain ⟨y, hy, hxy⟩ := ih hx
      exact ⟨y, List.mem_cons_of_mem _ hy, hxy⟩

/-- Where a block stands. -/
theorem State.Inv.exists_chunk (hi : s.Inv ps) {b : Block} (hb : b ∈ s.live) :
    ∃ p ∈ ps, ∃ c ∈ p.2, c.free = false ∧ Stands b c := by
  obtain ⟨used, hperm, hstands⟩ := hi.live
  obtain ⟨c, hc, hbc⟩ := exists_related hstands hb
  obtain ⟨p, hp, hcp⟩ := List.mem_flatMap.mp (hperm.mem_iff.mp hc)
  exact ⟨p, hp, c, (mem_usedOnes.mp hcp).1, (mem_usedOnes.mp hcp).2, hbc⟩

/-- A chunk in use has its block. -/
theorem State.Inv.exists_block (hi : s.Inv ps) {p : Laid} (hp : p ∈ ps) (hc : c ∈ p.2)
    (hused : c.free = false) : ∃ b ∈ s.live, Stands b c := by
  obtain ⟨used, hperm, hstands⟩ := hi.live
  have hflip : List.Forall₂ (fun c b => Stands b c) used s.live := hstands.flip
  refine exists_related hflip (hperm.mem_iff.mpr ?_)
  exact List.mem_flatMap.mpr ⟨p, hp, mem_usedOnes.mpr ⟨hc, hused⟩⟩

/-- A block lies in the memory of its chunk. -/
theorem Stands.inside {b : Block} (hbc : Stands b c) (hg : mm.Good h cs) (hc : c ∈ cs) :
    mm.start + chunkHeader ≤ b.ptr ∧
      b.ptr + b.wantsize + chunkEnd ≤ mm.start + mm.mempoolSize := by
  have hbounds := hg.tiles.bounds hc
  have hptr := hbc.ptr
  have hfits := hbc.fits
  unfold Chunk.stop at hbounds
  omega

/-! ## Releases -/

/-- `p` is in the memory `mm` and, by the size of the first memory, in none
that comes before it in the list. Unless `mm` is as large as the first
memory, a live block lies behind `p` in it. -/
structure State.ReleasesFrom (s : State) (p : Nat) (l₁ : List Memory) (mm : Memory)
    (l₂ : List Memory) : Prop where
  mlist : s.pool.mlist = l₁ ++ mm :: l₂
  inside : mm.start ≤ p ∧ p < mm.start + mm.mempoolSize
  first : ∀ mm' ∈ l₁, ¬ (mm'.start ≤ p ∧ p < mm'.start + s.pool.mempoolSize)
  behind : mm.mempoolSize = s.pool.mempoolSize ∨
    ∃ b ∈ s.live, p < b.ptr ∧ b.ptr < mm.start + mm.mempoolSize

def State.Releases (s : State) (p : Nat) : Prop := ∃ l₁ mm l₂, s.ReleasesFrom p l₁ mm l₂

/-- The memory is found. -/
theorem findMemoryList_eq {l₁ l₂ : List Memory} (hmlist : mp.mlist = l₁ ++ mm :: l₂)
    (hin : mm.start ≤ p ∧ p < mm.start + mp.mempoolSize)
    (hfirst : ∀ mm' ∈ l₁, ¬ (mm'.start ≤ p ∧ p < mm'.start + mp.mempoolSize)) :
    findMemoryList mp p = some l₁.length := by
  have hnone : (l₁.findIdx? fun mm' => decide (mm'.start ≤ p ∧ p < mm'.start + mp.mempoolSize)) =
      none := List.findIdx?_eq_none_iff.mpr fun mm' hmm' => decide_eq_false (hfirst mm' hmm')
  rw [findMemoryList, hmlist, List.findIdx?_append, hnone, List.findIdx?_cons,
    if_pos (decide_eq_true hin)]
  simp

theorem ownerOf_eq {l₁ l₂ : List Memory} (hmlist : mp.mlist = l₁ ++ mm :: l₂)
    (hin : mm.start ≤ p ∧ p < mm.start + mp.mempoolSize)
    (hfirst : ∀ mm' ∈ l₁, ¬ (mm'.start ≤ p ∧ p < mm'.start + mp.mempoolSize))
    (hsingle : mp.autoExtend = false → mp.mlist.length = 1) : ownerOf mp p = some l₁.length := by
  unfold ownerOf
  split
  · exact findMemoryList_eq hmlist hin hfirst
  · rename_i hauto
    have hone := hsingle (Bool.eq_false_iff.mpr hauto)
    rw [hmlist, List.length_append, List.length_cons] at hone
    have hzero : l₁.length = 0 := by omega
    rw [hzero]

theorem State.Inv.ownerOf_eq (hi : s.Inv ps) {l₁ l₂ : List Memory}
    (hmlist : s.pool.mlist = l₁ ++ mm :: l₂)
    (hin : mm.start ≤ p ∧ p < mm.start + s.pool.mempoolSize)
    (hfirst : ∀ mm' ∈ l₁, ¬ (mm'.start ≤ p ∧ p < mm'.start + s.pool.mempoolSize)) :
    ownerOf s.pool p = some l₁.length := by
  refine MemoryPool.ownerOf_eq hmlist hin hfirst fun hauto => ?_
  have hsingle := hi.memories.single hauto
  rwa [Pool.spans, List.length_map] at hsingle

/-- The call, where the chunk is at `x` in the memory `mm`. -/
theorem memoryPoolFree_eq {l₁ l₂ : List Memory} {x : Nat} (hmlist : mp.mlist = l₁ ++ mm :: l₂)
    (howner : ownerOf mp p = some l₁.length) (hp : p = x + chunkHeader) :
    memoryPoolFree h mp p =
      (mergeFreeChunk (releaseChunk h mm x).1 mp.mempoolSize (releaseChunk h mm x).2 x).map fun r =>
        (r.heap,
          { mp with mlist := l₁ ++ { (releaseChunk h mm x).2 with freeList := r.freeList } :: l₂ },
          r.reads) := by
  have hne : p ≠ 0 := by
    rw [hp]
    unfold chunkHeader
    omega
  have hget : mp.mlist[l₁.length]? = some mm := by simp [hmlist]
  have hset : ∀ x, mp.mlist.set l₁.length x = l₁ ++ x :: l₂ := by simp [hmlist]
  have hck : p - chunkHeader = x := by omega
  unfold memoryPoolFree
  rw [if_neg hne, howner]
  dsimp only
  rw [hget]
  simp only [hset, hck]

/-- What a release does to the state. -/
structure Released (s : State) (p : Nat) (mm : Memory) (front : List Laid) (cs : List Chunk)
    (back : List Laid) (pre : List Chunk) (c : Chunk) (post : List Chunk) (r : Merged)
    (cs' : List Chunk) : Prop where
  chunks : cs = pre ++ c :: post
  used : c.free = false
  ptr : p = c.addr + chunkHeader
  call : memoryPoolFree s.heap s.pool p = some (r.heap, { s.pool with
    mlist := front.map Prod.fst ++
      { (releaseChunk s.heap mm c.addr).2 with freeList := r.freeList } :: back.map Prod.fst },
    r.reads)
  good : Memory.Good r.heap { (releaseChunk s.heap mm c.addr).2 with freeList := r.freeList } cs'
  rest : usedOnes cs' = usedOnes pre ++ usedOnes post
  same : SameOutside mm.start mm.mempoolSize s.heap r.heap
  reads : mm.Reads r.reads

theorem State.Inv.released (hi : s.Inv ps) {b : Block} (hb : b ∈ s.live) {l₁ l₂ : List Memory}
    (hrel : s.ReleasesFrom b.ptr l₁ mm l₂) :
    ∃ front cs back pre c post r cs', ps = front ++ (mm, cs) :: back ∧ l₁ = front.map Prod.fst ∧
      Released s b.ptr mm front cs back pre c post r cs' := by
  obtain ⟨front, rest, rfl, rfl, hrest⟩ :=
    List.map_eq_append_iff.mp (hi.mlist.symm.trans hrel.mlist)
  obtain ⟨⟨mm', cs⟩, back, rfl, rfl, rfl⟩ := List.map_eq_cons_iff.mp hrest
  have hp : (mm', cs) ∈ front ++ (mm', cs) :: back := mem_around.mpr (Or.inl rfl)
  have hg := hi.good _ hp
  have hle := hi.size_le hp
  have hinside := hrel.inside
  -- the chunk of a live block in this memory
  have hchunk : ∀ b ∈ s.live, mm'.start ≤ b.ptr ∧ b.ptr < mm'.start + mm'.mempoolSize →
      ∃ c ∈ cs, c.free = false ∧ Stands b c := by
    intro b hb hin
    obtain ⟨q, hq, c, hc, hused, hbc⟩ := hi.exists_chunk hb
    have hbc' := hbc.inside (hi.good q hq) hc
    have heq := hi.memory_unique hq hp (x := b.ptr) (by unfold chunkEnd at hbc'; omega) hin
    subst heq
    exact ⟨c, hc, hused, hbc⟩
  obtain ⟨c, hc, hused, hbc⟩ := hchunk b hb hinside
  obtain ⟨pre, post, rfl⟩ := List.append_of_mem hc
  have hbehind : mm'.mempoolSize = s.pool.mempoolSize ∨ ∃ d ∈ post, d.free = false := by
    refine hrel.behind.imp_right ?_
    rintro ⟨b', hb', hlt, hin⟩
    obtain ⟨d, hd, hdused, hbd⟩ := hchunk b' hb' ⟨Nat.le_trans hinside.1 (Nat.le_of_lt hlt), hin⟩
    have hptr := hbc.ptr
    have hptr' := hbd.ptr
    refine ⟨d, ?_, hdused⟩
    rcases mem_middle.mp hd with rfl | hd
    · omega
    · refine (List.mem_append.mp hd).resolve_left fun hd => ?_
      have hbefore := hg.tiles.before hd
      unfold Chunk.stop at hbefore
      omega
  obtain ⟨r, cs', hmerge, hgood, hrestused, hsame, hreads⟩ := hg.merge hused hle hbehind
  refine ⟨front, _, back, pre, c, post, r, cs', rfl, rfl, rfl, hused, hbc.ptr, ?_, hgood,
    hrestused, hsame, hreads⟩
  have howner := hi.ownerOf_eq hrel.mlist ⟨hinside.1, by omega⟩ hrel.first
  rw [memoryPoolFree_eq hrel.mlist howner hbc.ptr, hmerge, Option.map_some]

theorem State.Inv.free (hi : s.Inv ps) (hg : s.Granted (.free p)) (hrel : s.Releases p) :
    ∃ ps', (s.free p).Inv ps' := by
  obtain ⟨b, hb, rfl⟩ := hg
  obtain ⟨l₁, mm, l₂, hfrom⟩ := hrel
  obtain ⟨front, cs, back, pre, c, post, r, cs', rfl, rfl, hr⟩ := hi.released hb hfrom
  obtain rfl := hr.chunks
  have hcall := hr.call
  have hmem : (s.free b.ptr).pool.Memories := by
    obtain ⟨l, hpool, hspans⟩ := memoryPoolFree_pool hcall
    unfold State.free
    rw [hcall]
    dsimp only at hpool ⊢
    rw [hpool]
    exact hi.memories.congr hspans
  unfold State.free at hmem ⊢
  rw [hcall] at hmem ⊢
  dsimp only at hmem ⊢
  refine ⟨front ++ ({ (releaseChunk s.heap mm c.addr).2 with freeList := r.freeList }, cs') :: back,
    hi.running, hmem, ?_, good_replace hi.apart hi.good hr.same hr.good, ?_⟩
  · rw [List.map_append, List.map_cons]
  · obtain ⟨used, hperm, hstands⟩ := hi.live
    refine ⟨used.filter fun d => d.addr + chunkHeader ≠ b.ptr, ?_, ?_⟩
    · -- the chunk is the only one at its address
      have hall : (usedChunks (front ++ (mm, pre ++ c :: post) :: back)).Perm
          (c :: (usedOnes cs' ++ usedChunks (front ++ back))) := by
        refine (usedChunks_around _).trans ?_
        rw [usedOnes_append, usedOnes_cons_used hr.used, hr.rest]
        exact List.perm_middle.append_right _
      have hnodup := (hall.map Chunk.addr).nodup_iff.mp hi.nodup_used
      have hother : ∀ d ∈ usedOnes cs' ++ usedChunks (front ++ back),
          decide (d.addr + chunkHeader ≠ b.ptr) = true := by
        intro d hd
        refine decide_eq_true fun heq => (List.nodup_cons.mp hnodup).1 ?_
        have hdc : d.addr = c.addr := Nat.add_right_cancel (heq.trans hr.ptr)
        exact List.mem_map.mpr ⟨d, hd, hdc⟩
      have hfilter := (hperm.trans hall).filter fun d => decide (d.addr + chunkHeader ≠ b.ptr)
      rw [List.filter_cons_of_neg (by simp [hr.ptr]), List.filter_eq_self.mpr hother] at hfilter
      exact hfilter.trans (usedChunks_around (_, cs')).symm
    · refine List.rel_filter (fun b' d hbd => ?_) hstands
      simp [hbd.ptr]

/-! ## All memories are set up again -/

theorem Memory.Good.header_le (hg : mm.Good h cs) : chunkHeader ≤ mm.mempoolSize := by
  obtain ⟨c, hc⟩ := List.exists_mem_of_ne_nil cs hg.ne_nil
  have hbounds := hg.tiles.bounds hc
  have hsize := hg.size c hc
  unfold Chunk.stop at hbounds
  omega

/-- Memories that lie apart from `mm` are set up. -/
theorem Memory.Good.foldl_init {l : List Memory} (hg : mm.Good h cs)
    (hall : ∀ mm' ∈ l, Spans.Apart mm.span mm'.span ∧ chunkHeader ≤ mm'.mempoolSize) :
    mm.Good (l.foldl (fun h mm' => h.init mm'.start mm'.mempoolSize) h) cs := by
  induction l generalizing h with
  | nil => exact hg
  | cons mm' l ih =>
    obtain ⟨hapart, hheader⟩ := hall mm' List.mem_cons_self
    exact ih (hg.frame (sameOutside_init hheader) hapart)
      fun x hx => hall x (List.mem_cons_of_mem _ hx)

theorem good_foldl_init {l : List Memory}
    (hapart : l.Pairwise fun mm mm' => Spans.Apart mm.span mm'.span)
    (hall : ∀ mm ∈ l, 0 < mm.start ∧ mm.start + mm.mempoolSize ≤ 9223372036854775808 ∧
      chunkHeader ≤ mm.mempoolSize) : ∀ mm ∈ l, (mm.init mm.mempoolSize).Good
        (l.foldl (fun h mm' => h.init mm'.start mm'.mempoolSize) h)
        [⟨mm.start, mm.mempoolSize, true⟩] := by
  induction l generalizing h with
  | nil => simp
  | cons mm l ih =>
    obtain ⟨hfirst, hrest⟩ := List.pairwise_cons.mp hapart
    obtain ⟨hlow, hhigh, hheader⟩ := hall mm List.mem_cons_self
    have hall' := fun x hx => hall x (List.mem_cons_of_mem _ hx)
    refine List.forall_mem_cons.mpr ⟨?_, ih hrest hall'⟩
    exact (Memory.good_init mm hlow hhigh hheader).foldl_init fun mm' hmm' =>
      ⟨hfirst mm' hmm', (hall' mm' hmm').2.2⟩

theorem State.Inv.clear (hi : s.Inv ps) : s.clear.Inv
    (ps.map fun p => (p.1.init p.1.mempoolSize, [⟨p.1.start, p.1.mempoolSize, true⟩])) := by
  have hmem := step_memories hi.memories .clear trivial
  rw [step, if_neg (by simp [hi.running])] at hmem
  have hapart : (ps.map Prod.fst).Pairwise fun mm mm' => Spans.Apart mm.span mm'.span :=
    List.pairwise_map.mpr hi.apart
  refine ⟨hi.running, hmem, ?_, ?_, [], ?_, .nil⟩
  · show s.pool.mlist.map _ = _
    rw [hi.mlist, List.map_map, List.map_map]
    rfl
  · have hgood := good_foldl_init (h := s.heap) hapart fun mm hmm => by
      obtain ⟨p, hp, rfl⟩ := List.mem_map.mp hmm
      have hg := hi.good p hp
      exact ⟨hg.low, hg.high, hg.header_le⟩
    rw [← hi.mlist] at hgood
    intro p hp
    obtain ⟨q, hq, rfl⟩ := List.mem_map.mp hp
    exact hgood q.1 (hi.mlist ▸ List.mem_map_of_mem hq)
  · have hempty : usedChunks (ps.map fun p =>
        (p.1.init p.1.mempoolSize, [⟨p.1.start, p.1.mempoolSize, true⟩])) = [] := by
      refine List.flatMap_eq_nil_iff.mpr fun p hp => ?_
      obtain ⟨q, -, rfl⟩ := List.mem_map.mp hp
      rfl
    rw [hempty]

/-! ## Runs -/

/-- The size of a request does not wrap around, and a release is told the
right memory and does not run out of it. -/
def State.Sound (s : State) : Event → Prop
  | .alloc wantsize _ => wantsize + 47 < memSizeT
  | .free p => s.Releases p
  | .clear => True

theorem State.Inv.after_step (hi : s.Inv ps) (e : Event) (hg : s.Granted e) (hsound : s.Sound e) :
    ∃ ps', (step s e).Inv ps' := by
  unfold step
  rw [if_neg (by simp [hi.running])]
  cases e with
  | alloc wantsize mallocs => exact hi.alloc hg hsound
  | free p => exact hi.free hg hsound
  | clear => exact ⟨_, hi.clear⟩

theorem Created.inv (hs : Created s) : ∃ ps, s.Inv ps := by
  have hmem := hs.memories
  obtain ⟨h, maxMempoolSize, mempoolSize, a, junk, hheap, hpool, -, -, hheader, -, hhigh⟩ :=
    hs.start
  refine ⟨[(Memory.init ⟨a + memoryHeader, 0, 0, 0, 0, 0, 0⟩ mempoolSize,
    [⟨a + memoryHeader, mempoolSize, true⟩])], hs.running, hmem, ?_, ?_, [], .nil, ?_⟩
  · rw [hpool]
    rfl
  · rw [hheap]
    refine List.forall_mem_singleton.mpr ?_
    exact Memory.good_init ⟨a + memoryHeader, 0, 0, 0, 0, 0, 0⟩
      (by unfold memoryHeader; dsimp only; omega) hhigh hheader
  · rw [hs.live]
    exact .nil

theorem run_inv (hs : Created s) (es : List Event) (hg : Along step State.Granted s es)
    (hsound : Along step State.Sound s es) : ∃ ps, (run step s es).Inv ps :=
  run_invariant (I := fun s => ∃ ps, s.Inv ps) (fun _ e ⟨_, hi⟩ hand => hi.after_step e hand.1 hand.2)
    (hg.and hsound) hs.inv

end Training.MemoryPool
