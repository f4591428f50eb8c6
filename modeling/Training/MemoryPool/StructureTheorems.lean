/-
Training.MemoryPool.StructureTheorems — what the pool looks like in every
run.

In a pool whose memories are all of one size a release always finds the
right memory (`State.Inv.releases`), so all that a request has to do is
not to wrap around. Then the chunks of each memory are as they should be
in every state of a run, and the releases of all live blocks, in any
order, leave one free chunk in each memory (`structured_of_noWrap`). The
size of a request is rounded up after the header and the footer have been
added, and this too may wrap around (`not_structured_wrapped`).
-/
import Training.MemoryPool.RunTheorems

namespace Training.MemoryPool

open Training.Lib Training.Lib.Memory Training.Lib.Tiling

variable {h : Heap} {mm : Memory} {cs : List Chunk} {c : Chunk} {s : State} {ps : List Laid}
  {a e wantsize : Nat}

/-! ## The structure -/

/-- The chunks tile the memory, the lists have the free and the used ones,
each once, the footers lead back, no two free chunks are neighbours, and the
accounts add up. -/
structure Memory.Structured (h : Heap) (mm : Memory) (cs : List Chunk) : Prop where
  tiles : Tiles mm.start cs (mm.start + mm.mempoolSize)
  header : ∀ c ∈ cs, h.get .allocMem c.addr = c.size ∧ h.get .isFree c.addr = isFreeFlag c
  free : ∃ xs, h.Lists mm.freeList xs ∧ xs.Perm ((freeOnes cs).map Chunk.addr)
  used : ∃ xs, h.Lists mm.allocList xs ∧ xs.Perm ((usedOnes cs).map Chunk.addr)
  footer : ∀ c ∈ cs, ∀ d ∈ cs, c.stop = d.addr → h.footer d.addr = c.addr
  merged : ∀ c ∈ cs, ∀ d ∈ cs, c.stop = d.addr → ¬ (c.free = true ∧ d.free = true)
  allocMem : mm.allocMem = account (fun n => n) cs
  allocProgMem : mm.allocProgMem = account progSize cs

/-- Each memory has its structure, and the live blocks are those of the chunks
in use and lie apart. -/
structure State.Structured (s : State) (ps : List Laid) : Prop where
  running : s.stuck = false
  mlist : s.pool.mlist = ps.map Prod.fst
  memory : ∀ p ∈ ps, p.1.Structured s.heap p.2
  live : (s.live.map Block.ptr).Perm ((usedChunks ps).map fun c => c.addr + chunkHeader)
  apart : s.live.Pairwise fun b b' => b.ptr + b.wantsize ≤ b'.ptr ∨ b'.ptr + b'.wantsize ≤ b.ptr

/-- No block is live, and each memory is one free chunk. -/
def State.Emptied (s : State) : Prop :=
  ∃ ps, s.Structured ps ∧ ∀ p ∈ ps, p.2 = [⟨p.1.start, p.1.mempoolSize, true⟩]

theorem Memory.Good.structured (hg : mm.Good h cs) : mm.Structured h cs where
  tiles := hg.tiles
  header c hc := ⟨hg.allocMem_eq c hc, hg.isFree_eq c hc⟩
  free := hg.free
  used := hg.used
  footer := hg.footer
  merged := hg.merged
  allocMem := hg.allocMem
  allocProgMem := hg.allocProgMem

theorem map_ptr_of_stands {live : List Block} {used : List Chunk}
    (h : List.Forall₂ Stands live used) :
    live.map Block.ptr = used.map fun c => c.addr + chunkHeader := by
  induction h with
  | nil => rfl
  | cons hbc _ ih => rw [List.map_cons, List.map_cons, hbc.ptr, ih]

theorem State.Inv.live_perm (hi : s.Inv ps) :
    (s.live.map Block.ptr).Perm ((usedChunks ps).map fun c => c.addr + chunkHeader) := by
  obtain ⟨used, hperm, hstands⟩ := hi.live
  rw [map_ptr_of_stands hstands]
  exact hperm.map _

theorem State.Inv.nodup_ptr (hi : s.Inv ps) : (s.live.map Block.ptr).Nodup := by
  refine hi.live_perm.nodup_iff.mpr ?_
  have hnodup := hi.nodup_used.map (f := fun x => x + chunkHeader) fun _ _ h =>
    Nat.add_right_cancel h
  rwa [List.map_map] at hnodup

/-- Blocks with different pointers stand in different chunks. -/
theorem State.Inv.blocks_apart (hi : s.Inv ps) :
    s.live.Pairwise fun b b' => b.ptr + b.wantsize ≤ b'.ptr ∨ b'.ptr + b'.wantsize ≤ b.ptr := by
  refine (List.pairwise_map.mp hi.nodup_ptr).imp_of_mem fun {b b'} hb hb' hne => ?_
  obtain ⟨p, hp, c, hc, -, hbc⟩ := hi.exists_chunk hb
  obtain ⟨q, hq, d, hd, -, hbd⟩ := hi.exists_chunk hb'
  have hptr := hbc.ptr
  have hptr' := hbd.ptr
  have hfits := hbc.fits
  have hfits' := hbd.fits
  have hcd : p = q → c.stop ≤ d.addr ∨ d.stop ≤ c.addr := by
    rintro rfl
    refine (hi.good p hp).tiles.apart hc hd ?_
    rintro rfl
    exact hne (hptr.trans hptr'.symm)
  by_cases hpq : p = q
  · have hapart := hcd hpq
    unfold Chunk.stop at hapart
    omega
  · have hsymm : Std.Symm fun p q : Laid => Spans.Apart p.1.span q.1.span := ⟨fun _ _ h => h.symm⟩
    have hapart := hi.apart.forall hp hq hpq
    have hcin := (hi.good p hp).tiles.bounds hc
    have hdin := (hi.good q hq).tiles.bounds hd
    unfold Chunk.stop at hcin hdin
    unfold Spans.Apart Memory.span at hapart
    dsimp only at hapart
    omega

theorem State.Inv.structured (hi : s.Inv ps) : s.Structured ps where
  running := hi.running
  mlist := hi.mlist
  memory p hp := (hi.good p hp).structured
  live := hi.live_perm
  apart := hi.blocks_apart

/-- A memory without chunks in use is one free chunk. -/
theorem Memory.Good.eq_singleton (hg : mm.Good h cs) (hused : usedOnes cs = []) :
    cs = [⟨mm.start, mm.mempoolSize, true⟩] := by
  have hfree : ∀ c ∈ cs, c.free = true := by
    intro c hc
    by_contra hne
    have hmem := mem_usedOnes.mpr ⟨hc, by simpa using hne⟩
    rw [hused] at hmem
    cases hmem
  match cs, hg with
  | [], hg => exact absurd rfl hg.ne_nil
  | [c], hg =>
    obtain ⟨haddr, hstop⟩ := hg.tiles
    have hc := hfree c List.mem_cons_self
    obtain ⟨addr, size, free⟩ := c
    have hend : addr + size = mm.start + mm.mempoolSize := hstop
    dsimp only at haddr hc
    subst haddr hc
    rw [Nat.add_left_cancel hend]
  | c :: d :: rest, hg =>
    have hlink : c.stop = d.addr := hg.tiles.2.1.symm
    have hd : d ∈ c :: d :: rest := List.mem_cons_of_mem _ List.mem_cons_self
    exact absurd ⟨hfree c List.mem_cons_self, hfree d hd⟩
      (hg.merged c List.mem_cons_self d hd hlink)

theorem State.Inv.emptied (hi : s.Inv ps) (hlive : s.live = []) : s.Emptied := by
  refine ⟨ps, hi.structured, fun p hp => (hi.good p hp).eq_singleton ?_⟩
  have hnil := hi.live_perm.symm
  rw [hlive, List.map_nil, List.perm_nil, List.map_eq_nil_iff] at hnil
  exact List.flatMap_eq_nil_iff.mp hnil p hp

/-! ## Memories of one size -/

/-- The memories that are added are as large as the first one, or none can be. -/
def Pool.OneSize (mp : Pool) : Prop :=
  mp.maxMempoolSize = mp.mempoolSize ∨ 2 * mp.mempoolSize ≤ mp.maxMempoolSize

theorem State.Inv.size_eq (hi : s.Inv ps) (hone : s.pool.OneSize) {p : Laid} (hp : p ∈ ps) :
    p.1.mempoolSize = s.pool.mempoolSize := by
  have hmem : p.1.span ∈ s.pool.spans := by
    rw [Pool.spans, hi.mlist, List.map_map]
    exact List.mem_map_of_mem (f := Memory.span ∘ Prod.fst) hp
  have hheader := (hi.good p hp).header_le
  rcases hi.memories.size _ hmem with heq | heq
  · exact heq
  · have hsize : p.1.mempoolSize = s.pool.addMemSz := heq
    rw [Pool.addMemSz_eq hi.memories.le hi.memories.max] at hsize
    unfold chunkHeader at hheader
    unfold Pool.OneSize at hone
    omega

/-- Every release is told the right memory and stays in it. -/
theorem State.Inv.releases (hi : s.Inv ps) (hone : s.pool.OneSize) {b : Block} (hb : b ∈ s.live) :
    s.Releases b.ptr := by
  obtain ⟨p, hp, c, hc, -, hbc⟩ := hi.exists_chunk hb
  have hin := hbc.inside (hi.good p hp) hc
  unfold chunkHeader chunkEnd at hin
  obtain ⟨front, back, rfl⟩ := List.append_of_mem hp
  refine ⟨front.map Prod.fst, p.1, back.map Prod.fst, ?_, ⟨by omega, by omega⟩, ?_,
    Or.inl (hi.size_eq hone hp)⟩
  · rw [hi.mlist, List.map_append, List.map_cons]
  · intro mm hmm hnominal
    obtain ⟨q, hq, rfl⟩ := List.mem_map.mp hmm
    have hapart := (List.pairwise_append.mp hi.apart).2.2 q hq p List.mem_cons_self
    rw [← hi.size_eq hone (List.mem_append_left _ hq)] at hnominal
    unfold Spans.Apart Memory.span at hapart
    dsimp only at hapart
    omega

/-- The sizes of the pool are not changed. -/
theorem step_sizes (hmem : s.pool.Memories) (e : Event) :
    (step s e).pool.mempoolSize = s.pool.mempoolSize ∧
      (step s e).pool.maxMempoolSize = s.pool.maxMempoolSize := by
  unfold step
  split
  · exact ⟨rfl, rfl⟩
  · cases e with
    | alloc wantsize mallocs =>
      show (s.alloc wantsize mallocs).pool.mempoolSize = _ ∧
        (s.alloc wantsize mallocs).pool.maxMempoolSize = _
      by_cases hwant : wantsize = 0
      · subst hwant
        rw [State.alloc, memoryPoolAlloc_zero]
        exact ⟨rfl, rfl⟩
      · have hcase : AllocCase (totalNeededSize wantsize) mallocs s.heap s.pool
            (memoryPoolAlloc s.heap s.pool wantsize mallocs) := memoryPoolAlloc_case hmem hwant
        unfold State.alloc
        generalize memoryPoolAlloc s.heap s.pool wantsize mallocs = r at hcase
        cases hcase with
        | taken => exact ⟨rfl, rfl⟩
        | extended => exact ⟨rfl, rfl⟩
        | refused => exact ⟨rfl, rfl⟩
        | stuck => exact ⟨rfl, rfl⟩
    | free p =>
      show (s.free p).pool.mempoolSize = _ ∧ (s.free p).pool.maxMempoolSize = _
      unfold State.free
      cases hr : memoryPoolFree s.heap s.pool p with
      | none => exact ⟨rfl, rfl⟩
      | some r =>
        obtain ⟨l, hpool, -⟩ := memoryPoolFree_pool hr
        dsimp only
        rw [hpool]
        exact ⟨rfl, rfl⟩
    | clear => exact ⟨rfl, rfl⟩

/-- The size of a request does not wrap around. -/
def State.NoWrap (_ : State) : Event → Prop
  | .alloc wantsize _ => wantsize + 47 < memSizeT
  | _ => True

/-- What a run along `NoWrap` keeps. -/
def State.Regular (s : State) : Prop := (∃ ps, s.Inv ps) ∧ s.pool.OneSize

theorem State.Regular.after_step (h : s.Regular) (e : Event) (hg : s.Granted e) (hw : s.NoWrap e) :
    (step s e).Regular := by
  obtain ⟨⟨ps, hi⟩, hone⟩ := h
  obtain ⟨hsize, hmax⟩ := step_sizes hi.memories e
  refine ⟨hi.after_step e hg ?_, ?_⟩
  · cases e with
    | alloc wantsize mallocs => exact hw
    | free p =>
      obtain ⟨b, hb, rfl⟩ := hg
      exact hi.releases hone hb
    | clear => trivial
  · unfold Pool.OneSize
    rw [hsize, hmax]
    exact hone

theorem run_regular (hs : Created s) (hone : s.pool.OneSize) (es : List Event)
    (hg : Along step State.Granted s es) (hw : Along step State.NoWrap s es) :
    (run step s es).Regular :=
  run_invariant (I := State.Regular) (fun _ e h hand => h.after_step e hand.1 hand.2) (hg.and hw)
    ⟨hs.inv, hone⟩

/-! ## All blocks are released -/

/-- What is live after a release. -/
theorem State.Inv.live_free (hi : s.Inv ps) {b : Block} (hb : b ∈ s.live)
    (hrel : s.Releases b.ptr) :
    (step s (.free b.ptr)).live = s.live.filter fun b' => b'.ptr ≠ b.ptr := by
  obtain ⟨l₁, mm, l₂, hfrom⟩ := hrel
  obtain ⟨front, cs, back, pre, c, post, r, cs', -, -, hr⟩ := hi.released hb hfrom
  have hcall := hr.call
  unfold step
  rw [if_neg (by simp [hi.running])]
  show (s.free b.ptr).live = _
  unfold State.free
  rw [hcall]

theorem State.Regular.frees (h : s.Regular) {ptrs : List Nat}
    (hperm : ptrs.Perm (s.live.map Block.ptr)) :
    (run step s (ptrs.map Event.free)).Regular ∧ (run step s (ptrs.map Event.free)).live = [] := by
  induction ptrs generalizing s with
  | nil => exact ⟨h, by simpa using List.nil_perm.mp hperm⟩
  | cons p ptrs ih =>
    obtain ⟨⟨ps, hi⟩, hone⟩ := h
    obtain ⟨b, hb, rfl⟩ := List.mem_map.mp (hperm.mem_iff.mp List.mem_cons_self)
    have hlive := hi.live_free hb (hi.releases hone hb)
    have hnext : (step s (.free b.ptr)).Regular :=
      State.Regular.after_step ⟨⟨ps, hi⟩, hone⟩ (.free b.ptr) ⟨b, hb, rfl⟩ trivial
    have hnodup := hperm.nodup_iff.mpr hi.nodup_ptr
    have hrest : ptrs.Perm ((step s (.free b.ptr)).live.map Block.ptr) := by
      have hother : ∀ q ∈ ptrs, decide (q ≠ b.ptr) = true := by
        intro q hq
        refine decide_eq_true ?_
        rintro rfl
        exact (List.nodup_cons.mp hnodup).1 hq
      have hfilter := hperm.filter fun q => decide (q ≠ b.ptr)
      rw [List.filter_cons_of_neg (by simp), List.filter_eq_self.mpr hother,
        List.filter_map] at hfilter
      rw [hlive]
      exact hfilter
    exact ih hnext hrest

/-! ## Every run -/

/-- In every run whose requests do not wrap around the chunks tile the
memories and the two lists have them, in every state; and once all blocks
are released, in any order, each memory is one free chunk again. -/
theorem structured_of_noWrap (hs : Created s) (hone : s.pool.OneSize) (es : List Event)
    (hg : Along step State.Granted s es) (hw : Along step State.NoWrap s es) :
    (∃ ps, (run step s es).Structured ps) ∧
      ∀ ptrs : List Nat, ptrs.Perm ((run step s es).live.map Block.ptr) →
        (run step (run step s es) (ptrs.map Event.free)).Emptied := by
  have h := run_regular hs hone es hg hw
  obtain ⟨ps, hi⟩ := h.1
  refine ⟨⟨ps, hi.structured⟩, fun ptrs hperm => ?_⟩
  obtain ⟨⟨⟨ps', hi'⟩, -⟩, hlive⟩ := h.frees hperm
  exact hi'.emptied hlive

/-- A chunk in the first memory, one in a second memory, and the first one is
released. -/
def twoMemories : List Event := [.alloc 20 [], .alloc 80 [5000], .free 1096]

theorem structured_of_noWrap_two :
    (∃ ps, (run step (smallPool 256) twoMemories).Structured ps) ∧
      ∀ ptrs : List Nat, ptrs.Perm ((run step (smallPool 256) twoMemories).live.map Block.ptr) →
        (run step (run step (smallPool 256) twoMemories) (ptrs.map Event.free)).Emptied := by
  have hlive : (run step (smallPool 256) [.alloc 20 [], .alloc 80 [5000]]).live =
      [⟨5096, 80⟩, ⟨1096, 20⟩] := by decide +kernel
  have hg : Along step State.Granted (smallPool 256) twoMemories := by
    refine ⟨⟨by decide, by simp⟩, ⟨by decide, ?_⟩, ⟨⟨1096, 20⟩, ?_, rfl⟩, trivial⟩
    · intro a ha hne
      rw [List.mem_singleton.mp ha]
      decide +kernel
    · exact hlive.symm ▸ List.mem_cons_of_mem _ List.mem_cons_self
  have hw : Along step State.NoWrap (smallPool 256) twoMemories :=
    ⟨(by decide : 20 + 47 < memSizeT), (by decide : 80 + 47 < memSizeT), trivial, trivial⟩
  exact structured_of_noWrap (created_smallPool (by decide) (by decide)) (Or.inr (by decide)) _ hg hw

/-- Chunks that do not get on do not tile a memory. -/
theorem eq_of_tiles_zero (hzero : h.get .allocMem a = 0) (ht : Tiles a cs e)
    (hheader : ∀ c ∈ cs, h.get .allocMem c.addr = c.size) : a = e := by
  induction cs with
  | nil => exact ht
  | cons c cs ih =>
    obtain ⟨haddr, hrest⟩ := ht
    have hsize := hheader c List.mem_cons_self
    rw [haddr, hzero] at hsize
    have hstop : c.stop = a := by rw [Chunk.stop, haddr, ← hsize, Nat.add_zero]
    exact ih (hstop ▸ hrest) fun d hd => hheader d (List.mem_cons_of_mem _ hd)

/-- With header and footer the request is seven bytes below 2^64, and it is
rounded up to a chunk of no bytes. -/
theorem not_structured_wrapped :
    Created (smallPool 256) ∧ (smallPool 256).pool.OneSize ∧
      Along step State.Granted (smallPool 256) [.alloc 18446744073709551575 []] ∧
      18446744073709551575 + (chunkHeader + chunkEnd) < memSizeT ∧
      ¬ ∃ ps, (run step (smallPool 256) [.alloc 18446744073709551575 []]).Structured ps := by
  refine ⟨created_smallPool (by decide) (by decide), Or.inr (by decide),
    ⟨⟨by decide, by simp⟩, trivial⟩, by decide, ?_⟩
  rintro ⟨ps, hs⟩
  have hspans : (run step (smallPool 256) [.alloc 18446744073709551575 []]).pool.mlist.map
      Memory.span = [(1064, 128)] := by decide +kernel
  have hzero : (run step (smallPool 256) [.alloc 18446744073709551575 []]).heap.get .allocMem
      1064 = 0 := by decide +kernel
  rw [hs.mlist, List.map_map] at hspans
  obtain ⟨p, ps, rfl, hspan, -⟩ := List.map_eq_cons_iff.mp hspans
  have hp := hs.memory p List.mem_cons_self
  have hstart : p.1.start = 1064 := congrArg Prod.fst hspan
  have hsize : p.1.mempoolSize = 128 := congrArg Prod.snd hspan
  have htiles := hp.tiles
  rw [hstart, hsize] at htiles
  have heq := eq_of_tiles_zero hzero htiles fun c hc => (hp.header c hc).1
  omega

end Training.MemoryPool
