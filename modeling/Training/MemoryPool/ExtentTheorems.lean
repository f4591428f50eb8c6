/-
Training.MemoryPool.ExtentTheorems — requests and releases stay inside the
memory they belong to, or not.

A request that does not wrap around gets room for all its bytes, and one
that does can not have it (`roomy_iff_noWrap`). A release looks for the
memory with the size of the first one, and merges up to the end that a
memory of this size would have. Where the added memories are smaller, an
address may lie in two such memories, and the merging may run out of the
last chunk: it stays in the right memory exactly when the release is one
of `State.Releases` (`freesInside_iff_releasing`).
-/
import Training.MemoryPool.StructureTheorems

namespace Training.MemoryPool

open Training.Lib Training.Lib.Memory Training.Lib.Tiling

variable {h h' : Heap} {mm : Memory} {mp mp' : Pool} {cs : List Chunk} {c : Chunk} {s : State}
  {ps : List Laid} {p wantsize : Nat} {mallocs : List Nat}

/-! ## What a request gets -/

/-- The chunk in front of whose block the header stands has `wantsize` bytes up
to its footer, and ends in the memory it begins in. -/
def Roomy (h : Heap) (mp : Pool) (p wantsize : Nat) : Prop :=
  ∃ mm ∈ mp.mlist, mm.start + chunkHeader ≤ p ∧
    p + wantsize + chunkEnd ≤ p - chunkHeader + h.get .allocMem (p - chunkHeader) ∧
    p - chunkHeader + h.get .allocMem (p - chunkHeader) ≤ mm.start + mm.mempoolSize

/-- The memories end in the lower half of the address space. -/
theorem noWrap_of_roomy (hmem : mp.Memories) (hroomy : Roomy h mp p wantsize) :
    wantsize + 47 < memSizeT := by
  obtain ⟨mm, hmm, -, hfits, hend⟩ := hroomy
  have hbelow := hmem.below mm.span (List.mem_map_of_mem hmm)
  unfold Memory.span at hbelow
  dsimp only at hbelow
  unfold memSizeT
  omega

/-- A live block has its room. -/
theorem State.Inv.roomy (hi : s.Inv ps) {b : Block} (hb : b ∈ s.live) :
    Roomy s.heap s.pool b.ptr b.wantsize := by
  obtain ⟨q, hq, c, hc, -, hbc⟩ := hi.exists_chunk hb
  have hg := hi.good q hq
  have hptr := hbc.ptr
  have hfits := hbc.fits
  have hbounds := hg.tiles.bounds hc
  unfold Chunk.stop at hbounds
  have hck : b.ptr - chunkHeader = c.addr := by omega
  refine ⟨q.1, ?_, by omega, ?_, ?_⟩
  · rw [hi.mlist]
    exact List.mem_map_of_mem hq
  · rw [hck, hg.allocMem_eq c hc]
    omega
  · rw [hck, hg.allocMem_eq c hc]
    exact hbounds.2

theorem alloc_eq (hcall : memoryPoolAlloc s.heap s.pool wantsize mallocs = some (h', mp', p))
    (hp : p ≠ 0) : s.alloc wantsize mallocs =
      { s with heap := h', pool := mp', live := ⟨p, wantsize⟩ :: s.live } := by
  unfold State.alloc
  rw [hcall]
  dsimp only
  rw [if_neg hp]

/-- In every state of a run, the next pointer has room for what was wanted
exactly when the size that is computed for it does not wrap around. -/
theorem roomy_iff_noWrap (hs : Created s) (es : List Event)
    (hg : Along step State.Granted s es) (hsound : Along step State.Sound s es)
    (hlast : (run step s es).Granted (.alloc wantsize mallocs))
    (hcall : memoryPoolAlloc (run step s es).heap (run step s es).pool wantsize mallocs =
      some (h', mp', p)) (hp : p ≠ 0) :
    Roomy h' mp' p wantsize ↔ wantsize + 47 < memSizeT := by
  obtain ⟨ps, hi⟩ := run_inv hs es hg hsound
  have hnext := alloc_eq hcall hp
  constructor
  · intro hroomy
    have hmem := alloc_memories hi.memories hlast
    rw [hnext] at hmem
    exact noWrap_of_roomy hmem hroomy
  · intro hw
    obtain ⟨ps', hi'⟩ := hi.alloc hlast hw
    rw [hnext] at hi'
    exact hi'.roomy List.mem_cons_self

/-- A block in a second memory. -/
theorem roomy_iff_noWrap_second :
    ∃ h' mp' p, memoryPoolAlloc (run step (smallPool 256) [.alloc 20 []]).heap
        (run step (smallPool 256) [.alloc 20 []]).pool 80 [5000] = some (h', mp', p) ∧
      p = 5096 ∧ (Roomy h' mp' p 80 ↔ 80 + 47 < memSizeT) := by
  have hptr : (memoryPoolAlloc (run step (smallPool 256) [.alloc 20 []]).heap
      (run step (smallPool 256) [.alloc 20 []]).pool 80 [5000]).map (fun r => r.2.2) =
      some 5096 := by decide +kernel
  obtain ⟨⟨h', mp', p⟩, hcall, hp⟩ := Option.map_eq_some_iff.mp hptr
  have hg : Along step State.Granted (smallPool 256) [.alloc 20 []] :=
    ⟨⟨by decide, by simp⟩, trivial⟩
  have hsound : Along step State.Sound (smallPool 256) [.alloc 20 []] :=
    ⟨(by decide : 20 + 47 < memSizeT), trivial⟩
  have hlast : (run step (smallPool 256) [.alloc 20 []]).Granted (.alloc 80 [5000]) := by
    refine ⟨by decide, fun a ha hne => ?_⟩
    rw [List.mem_singleton.mp ha]
    decide +kernel
  have hne : p ≠ 0 := by
    rintro rfl
    cases hp
  exact ⟨h', mp', p, hcall, hp, roomy_iff_noWrap (created_smallPool (by decide) (by decide)) _ hg
    hsound hlast hcall hne⟩

/-- The chunk of no bytes is handed out for all bytes but the last 40. -/
theorem not_roomy_wrapped :
    Created (smallPool 256) ∧ (smallPool 256).Granted (.alloc 18446744073709551575 []) ∧
      ∃ h' mp' p, memoryPoolAlloc (smallPool 256).heap (smallPool 256).pool 18446744073709551575 []
          = some (h', mp', p) ∧ p ≠ 0 ∧ ¬ Roomy h' mp' p 18446744073709551575 := by
  have hs : Created (smallPool 256) := created_smallPool (by decide) (by decide)
  have hg : (smallPool 256).Granted (.alloc 18446744073709551575 []) := ⟨by decide, by simp⟩
  have hptr : (memoryPoolAlloc (smallPool 256).heap (smallPool 256).pool 18446744073709551575
      []).map (fun r => r.2.2) = some 1096 := by decide +kernel
  obtain ⟨⟨h', mp', p⟩, hcall, hp⟩ := Option.map_eq_some_iff.mp hptr
  have hne : p ≠ 0 := by
    rintro rfl
    cases hp
  refine ⟨hs, hg, h', mp', p, hcall, hne, fun hroomy => ?_⟩
  have hmem := alloc_memories hs.memories hg
  rw [alloc_eq hcall hne] at hmem
  exact absurd (noWrap_of_roomy hmem hroomy) (by decide)

/-! ## Where a release merges -/

/-- The memory that is found has the pointer in it, and the merging reads
headers in this memory only and writes nowhere else. -/
def State.FreesInside (s : State) : Event → Prop
  | .free p => ∃ i mm h mp reads, findMemoryList s.pool p = some i ∧ s.pool.mlist[i]? = some mm ∧
      (mm.start ≤ p ∧ p < mm.start + mm.mempoolSize) ∧
      memoryPoolFree s.heap s.pool p = some (h, mp, reads) ∧ mm.Reads reads ∧
      SameOutside mm.start mm.mempoolSize s.heap h
  | _ => True

/-- Releases are told the right memory and do not run out of it. -/
def State.Releasing (s : State) : Event → Prop
  | .free p => s.Releases p
  | _ => True

theorem State.Inv.freesInside (hi : s.Inv ps) {b : Block} (hb : b ∈ s.live)
    (hrel : s.Releases b.ptr) : s.FreesInside (.free b.ptr) := by
  obtain ⟨l₁, mm, l₂, hfrom⟩ := hrel
  obtain ⟨front, cs, back, pre, c, post, r, cs', rfl, rfl, hr⟩ := hi.released hb hfrom
  have hsize := hi.size_le (mem_around.mpr (Or.inl rfl) : (mm, cs) ∈ front ++ (mm, cs) :: back)
  have hinside := hfrom.inside
  dsimp only at hsize
  refine ⟨_, mm, _, _, _, findMemoryList_eq hfrom.mlist ⟨hinside.1, by omega⟩ hfrom.first, ?_,
    hinside, hr.call, hr.reads, hr.same⟩
  rw [hfrom.mlist]
  simp

/-- The memory that is found is the first one that fits. -/
theorem first_of_findMemoryList {i : Nat} (hfind : findMemoryList mp p = some i)
    (hget : mp.mlist[i]? = some mm) : ∃ l₁ l₂, mp.mlist = l₁ ++ mm :: l₂ ∧
      ∀ mm' ∈ l₁, ¬ (mm'.start ≤ p ∧ p < mm'.start + mp.mempoolSize) := by
  obtain ⟨hi, hmm⟩ := List.getElem?_eq_some_iff.mp hget
  obtain ⟨_, _, hfirst⟩ := List.findIdx?_eq_some_iff_getElem.mp hfind
  refine ⟨mp.mlist.take i, mp.mlist.drop (i + 1), ?_, ?_⟩
  · rw [← hmm, ← List.drop_eq_getElem_cons hi, List.take_append_drop]
  · intro mm' hmm' hin
    obtain ⟨j, hj, rfl⟩ := List.mem_take_iff_getElem.mp hmm'
    exact absurd (decide_eq_true hin) (hfirst j (by omega))

theorem State.Inv.releases_of_freesInside (hi : s.Inv ps) {b : Block} (hb : b ∈ s.live)
    (hinside : s.FreesInside (.free b.ptr)) : s.Releases b.ptr := by
  obtain ⟨i, mm, h, mp, reads, hfind, hget, hin, hcall, hreads, -⟩ := hinside
  obtain ⟨l₁, l₂, hmlist, hfirst⟩ := first_of_findMemoryList hfind hget
  refine ⟨l₁, mm, l₂, hmlist, hin, hfirst, ?_⟩
  -- the chunk of the block
  obtain ⟨⟨mm', cs⟩, hq, c, hc, hused, hbc⟩ := hi.exists_chunk hb
  have hmm : mm ∈ ps.map Prod.fst := by
    rw [← hi.mlist, hmlist]
    exact List.mem_append_right _ List.mem_cons_self
  obtain ⟨q, hqps, rfl⟩ := List.mem_map.mp hmm
  have hbin := hbc.inside (hi.good _ hq) hc
  obtain rfl := hi.memory_unique hqps hq hin (by unfold chunkEnd at hbin; omega)
  have hg := hi.good _ hq
  obtain ⟨pre, post, rfl⟩ := List.append_of_mem hc
  by_contra hne
  obtain ⟨hsize, hnone⟩ := not_or.mp hne
  have hlt : mm'.mempoolSize < s.pool.mempoolSize := Nat.lt_of_le_of_ne (hi.size_le hq) hsize
  have hfree : ∀ d ∈ post, d.free = true := by
    intro d hd
    by_contra hdused
    have hdmem : d ∈ pre ++ c :: post := mem_middle.mpr (Or.inr (List.mem_append_right _ hd))
    obtain ⟨b', hb', hbd⟩ := hi.exists_block hq hdmem (by simpa using hdused)
    refine hnone ⟨b', hb', ?_, ?_⟩
    · have hle := hg.tiles.behind hd
      have hptr := hbc.ptr
      have hptr' := hbd.ptr
      have hpos := hg.sized c hc
      unfold Chunk.stop at hle
      omega
    · have hend := hbd.inside hg hdmem
      unfold chunkEnd at hend
      dsimp only at hend ⊢
      omega
  -- the call of the merging
  have howner := hi.ownerOf_eq hmlist ⟨hin.1, Nat.lt_trans hin.2 (Nat.add_lt_add_left hlt _)⟩ hfirst
  rw [memoryPoolFree_eq hmlist howner hbc.ptr] at hcall
  obtain ⟨r, hmerge, hr⟩ := Option.map_eq_some_iff.mp hcall
  obtain rfl : r.reads = reads := congrArg (fun x => x.2.2) hr
  exact hg.merge_beyond hused hlt hfree hmerge hreads

/-- In every run without wrap-around, no release reads a header outside its
own memory exactly when all of them are told the right memory and do not run
out of it. -/
theorem freesInside_iff_releasing (hs : Created s) (es : List Event)
    (hg : Along step State.Granted s es) (hw : Along step State.NoWrap s es) :
    Along step State.FreesInside s es ↔ Along step State.Releasing s es := by
  refine along_iff_along (I := fun s => ∃ ps, s.Inv ps) ?_ (hg.and hw) hs.inv
  rintro s e ⟨ps, hi⟩ ⟨hgranted, hnoWrap⟩
  cases e with
  | alloc wantsize mallocs => exact ⟨Iff.rfl, fun _ => hi.after_step _ hgranted hnoWrap⟩
  | free p =>
    obtain ⟨b, hb, rfl⟩ := hgranted
    exact ⟨⟨hi.releases_of_freesInside hb, hi.freesInside hb⟩,
      fun hrel => hi.after_step _ ⟨b, hb, rfl⟩ hrel⟩
  | clear => exact ⟨Iff.rfl, fun _ => hi.after_step _ hgranted trivial⟩

/-- The first memory has 128 bytes, and the second one 72. Each is full. -/
def fullMemories : List Event := [.alloc 80 [], .alloc 24 [5000]]

theorem granted_fullMemories (hp : p = 1096 ∨ p = 5096) :
    Along step State.Granted (smallPool 200) (fullMemories ++ [.free p]) := by
  have hlive : (run step (smallPool 200) fullMemories).live = [⟨5096, 24⟩, ⟨1096, 80⟩] := by
    decide +kernel
  refine ⟨⟨by decide, by simp⟩, ⟨by decide, ?_⟩, ?_, trivial⟩
  · intro a ha hne
    rw [List.mem_singleton.mp ha]
    decide +kernel
  · show ∃ b ∈ (run step (smallPool 200) fullMemories).live, b.ptr = p
    rw [hlive]
    rcases hp with rfl | rfl
    · exact ⟨_, List.mem_cons_of_mem _ List.mem_cons_self, rfl⟩
    · exact ⟨_, List.mem_cons_self, rfl⟩

theorem freesInside_iff_releasing_full :
    Along step State.FreesInside (smallPool 200) (fullMemories ++ [.free 1096]) ↔
      Along step State.Releasing (smallPool 200) (fullMemories ++ [.free 1096]) := by
  have hw : Along step State.NoWrap (smallPool 200) (fullMemories ++ [.free 1096]) :=
    ⟨(by decide : 80 + 47 < memSizeT), (by decide : 24 + 47 < memSizeT), trivial, trivial⟩
  exact freesInside_iff_releasing (created_smallPool (by decide) (by decide)) _
    (granted_fullMemories (Or.inl rfl)) hw

/-- The chunk is the last one of the second memory, and the merging goes on to
the header behind it. -/
theorem not_freesInside_last :
    Created (smallPool 200) ∧
      (smallPool 200).pool.mempoolSize < (smallPool 200).pool.maxMempoolSize ∧
      (smallPool 200).pool.maxMempoolSize < 2 * (smallPool 200).pool.mempoolSize ∧
      Along step State.Granted (smallPool 200) (fullMemories ++ [.free 5096]) ∧
      ¬ Along step State.FreesInside (smallPool 200) (fullMemories ++ [.free 5096]) := by
  refine ⟨created_smallPool (by decide) (by decide), by decide, by decide,
    granted_fullMemories (Or.inr rfl), fun h => ?_⟩
  obtain ⟨i, mm, h', mp', reads, hfind, hget, -, hcall, hreads, -⟩ :
    (run step (smallPool 200) fullMemories).FreesInside (.free 5096) := h.2.2.1
  have hfirst : findMemoryList (run step (smallPool 200) fullMemories).pool 5096 = some 0 := by
    decide +kernel
  have hspan : (run step (smallPool 200) fullMemories).pool.mlist[0]?.map Memory.span =
      some (5064, 72) := by decide +kernel
  have hlist : (memoryPoolFree (run step (smallPool 200) fullMemories).heap
      (run step (smallPool 200) fullMemories).pool 5096).map (fun r => r.2.2) =
      some [5064, 5136] := by decide +kernel
  obtain rfl : 0 = i := Option.some.inj (hfirst.symm.trans hfind)
  rw [hget] at hspan
  rw [hcall] at hlist
  obtain rfl : reads = [5064, 5136] := Option.some.inj hlist
  have hmm : mm.span = (5064, 72) := Option.some.inj hspan
  have hstart : mm.start = 5064 := congrArg Prod.fst hmm
  have hsize : mm.mempoolSize = 72 := congrArg Prod.snd hmm
  have hend := (hreads 5136 (by simp)).2
  unfold chunkHeader at hend
  omega

end Training.MemoryPool
