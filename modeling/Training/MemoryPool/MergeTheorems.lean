/-
Training.MemoryPool.MergeTheorems — a chunk is released and merged.

A chunk that is released is free between neighbours that may be free too
(`Memory.Good.releaseChunk`). The walk back stops at it or at the chunk in
front of it (`walkBack_spec`), since two free chunks were no neighbours
before. From there the free chunks behind are taken in one after the
other: `Merging` is what holds of the memory meanwhile, and `absorb_spec`
goes through the chunks behind. The footer of what has come together is
written last, and the memory is good again (`Memory.Good.merge`).
-/
import Training.MemoryPool.AllocTheorems

namespace Training.MemoryPool

open Training.Lib.Memory Training.Lib.Tiling

variable {h h' : Heap} {mm : Memory} {cs ds pre post : List Chunk} {c d q : Chunk}
  {a b e n m total fuel : Nat} {S xs : List Nat}

/-! ## Release -/

theorem released_eq (h : Heap) (mm : Memory) (x : Nat) : releaseChunk h mm x =
    ((dlinklistInsFrt (dlinklistDel h mm.allocList x).1 mm.freeList x).set .isFree x 1,
      mm.released x (dlinklistDel h mm.allocList x).2
        (((dlinklistInsFrt (dlinklistDel h mm.allocList x).1 mm.freeList x).set .isFree x 1).get
          .allocMem x)) := rfl

theorem sub_account (hle : n ≤ m) (hm : m < memSizeT) (heq : m = a + n) : sub m n = a := by
  rw [sub_eq hle hm]
  omega

/-- The chunk is in the other list, with the other flag. -/
theorem Memory.Good.releaseChunk (hg : mm.Good h (pre ++ c :: post)) (hused : c.free = false)
    (hh' : h' = (MemoryPool.releaseChunk h mm c.addr).1) :
    (MemoryPool.releaseChunk h mm c.addr).2.Holds h' (pre ++ { c with free := true } :: post) ∧
      Edits ((pre ++ c :: post).map Chunk.addr) h h' := by
  have hc : c ∈ pre ++ c :: post := mem_middle.mpr (Or.inl rfl)
  have hall := hg.all_large hc fun hfree => absurd (hused.symm.trans hfree) Bool.false_ne_true
  have hS := hg.headers
  obtain ⟨xs, hxs, hxfree⟩ := hg.free
  obtain ⟨ys, hys, hyused⟩ := hg.used
  have hcS : c.addr ∈ (pre ++ c :: post).map Chunk.addr := List.mem_map_of_mem hc
  have hcy : c.addr ∈ ys := hyused.mem_iff.mpr (List.mem_map_of_mem (mem_usedOnes.mpr ⟨hc, hused⟩))
  have hdisj := hg.disjoint hxfree hyused
  rw [released_eq] at hh' ⊢
  dsimp only at hh' ⊢
  have hmoved : Moved h h' ((pre ++ c :: post).map Chunk.addr) c.addr 1
      (dlinklistDel h mm.allocList c.addr).2 ys xs := by
    rw [hh']
    exact moved_insFrt_set hS hys hxs hcy (mem_of_used hyused) (mem_of_free hxfree)
      (fun x hx hy => hdisj x hy hx) (by decide)
  have hsize : h'.get .allocMem c.addr = c.size := by
    rw [hmoved.allocMem _ hcS, hg.allocMem_eq c hc]
  have hused' : usedOnes (pre ++ { c with free := true } :: post) =
      usedOnes pre ++ usedOnes post := by
    rw [usedOnes_append, usedOnes_cons_free rfl]
  have hfree' : freeOnes (pre ++ { c with free := true } :: post) =
      freeOnes pre ++ { c with free := true } :: freeOnes post := by
    rw [freeOnes_append, freeOnes_cons_free rfl]
  have hhigh := hg.high
  have hsum : ∀ f : Nat → Nat, account f (pre ++ c :: post) =
      account f (pre ++ { c with free := true } :: post) + f c.size := fun f =>
    account_relabel f pre post rfl hused
  refine ⟨?_, hmoved.edits⟩
  rw [← hh', hsize]
  refine hg.toHolds.relabel rfl rfl (span_released mm _ _ _) hmoved.allocMem hmoved.isFree
    ?_ ?_ ?_ ?_
  · rw [hfree', List.map_append, List.map_cons]
    refine ⟨c.addr :: xs, hmoved.joined, ?_⟩
    rw [freeOnes_append, freeOnes_cons_used hused, List.map_append] at hxfree
    exact (hxfree.cons _).trans List.perm_middle.symm
  · rw [hused', List.map_append]
    refine ⟨ys.erase c.addr, hmoved.left, perm_erase_middle ?_⟩
    rwa [usedOnes_append, usedOnes_cons_used hused, List.map_append, List.map_cons] at hyused
  · have hle := hg.tiles.account_le (f := fun n => n) fun n => Nat.le_refl n
    have heq := hsum fun n => n
    show sub mm.allocMem c.size = _
    rw [hg.allocMem]
    exact sub_account (by omega) (by unfold memSizeT; omega) heq
  · have hle := hg.tiles.account_le progSize_le
    have heq := hsum progSize
    have hbounds := (hg.tiles.bounds hc).2
    unfold Chunk.stop at hbounds
    show sub mm.allocProgMem (sub (sub c.size chunkHeader) chunkEnd) = _
    rw [prog_eq (Nat.le_of_lt (hall c hc)) (by unfold memSizeT; omega), hg.allocProgMem]
    exact sub_account (by omega) (by unfold memSizeT; omega) heq

/-! ## Free chunks behind -/

/-- The chunks while those behind `q` are taken in. Only the footer of `q` may
be wrong. -/
structure Merging (h : Heap) (mm : Memory) (pre : List Chunk) (q : Chunk) (post : List Chunk) :
    Prop extends mm.Holds h (pre ++ q :: post) where
  large : ∀ d ∈ pre ++ q :: post, chunkHeader + chunkEnd < d.size
  isFree : q.free = true
  footer : ∀ d ∈ pre ++ post, ∀ u ∈ pre ++ q :: post, d.stop = u.addr → h.footer u.addr = d.addr

/-- What taking in `d` does to the lists and the headers. -/
structure TakenIn (h h' : Heap) (mm : Memory) (cs : List Chunk) (q d : Chunk) : Prop where
  edits : Edits (cs.map Chunk.addr) h h'
  get : ∀ g, g ≠ .next → g ≠ .prev → ∀ u ∈ cs.map Chunk.addr,
    h'.get g u = if g = .allocMem ∧ u = q.addr then q.size + d.size else h.get g u
  free : ∃ xs : List Nat, h'.Lists (dlinklistDel h mm.freeList d.addr).2 (xs.erase d.addr) ∧
    xs.Perm ((freeOnes cs).map Chunk.addr)
  used : ∃ ys, h'.Lists mm.allocList ys ∧ ys.Perm ((usedOnes cs).map Chunk.addr)

theorem Merging.takenIn (hm : Merging h mm pre q (d :: post)) (hfree : d.free = true)
    (hh' : h' = (dlinklistDel h mm.freeList d.addr).1.set .allocMem q.addr (q.size + d.size)) :
    TakenIn h h' mm (pre ++ q :: d :: post) q d := by
  have hS := hm.headers
  have hd : d ∈ pre ++ q :: d :: post :=
    List.mem_append_right _ (List.mem_cons_of_mem _ List.mem_cons_self)
  have hqS : q.addr ∈ (pre ++ q :: d :: post).map Chunk.addr :=
    List.mem_map_of_mem (mem_middle.mpr (Or.inl rfl))
  have hfits : q.size + d.size < memSizeT := by
    have hjoin := hm.tiles.join true
    have hbounds := (hjoin.bounds (c := ⟨q.addr, q.size + d.size, true⟩)
      (mem_middle.mpr (Or.inl rfl))).2
    have hhigh := hm.high
    unfold Chunk.stop at hbounds
    dsimp only at hbounds
    unfold memSizeT
    omega
  obtain ⟨xs, hxs, hxfree⟩ := hm.free
  obtain ⟨ys, hys, hyused⟩ := hm.used
  have hxS := mem_of_free hxfree
  have hyS := mem_of_used hyused
  have hdx : d.addr ∈ xs := hxfree.mem_iff.mpr (List.mem_map_of_mem (mem_freeOnes.mpr ⟨hd, hfree⟩))
  have hlinked := linked_of_listed hxs hdx hxS
  -- the lists
  have hxs1 := lists_del hS hxs hdx hxS
  have hys1 := lists_del_other hS hxs hdx hxS hys hyS (hm.disjoint hxfree hyused)
  have hxs2 := lists_set (f := .allocMem) hS hxs1 hqS
    (fun y hy => hxS y (List.mem_of_mem_erase hy)) (by decide) (by decide) hfits
  have hys2 := lists_set (f := .allocMem) hS hys1 hqS hyS (by decide) (by decide) hfits
  rw [← hh'] at hxs2 hys2
  refine ⟨?_, fun g hnext hprev u hu => ?_, ⟨xs, hxs2, hxfree⟩, ys, hys2, hyused⟩
  · rw [hh']
    exact (edits_del hS hlinked).set .allocMem _ hqS
  · rw [hh', hS.get_set .allocMem hqS hu hfits, get_del_of_ne hS hlinked hu hnext hprev]

/-- The chunk behind is taken in. -/
theorem Merging.step (hm : Merging h mm pre q (d :: post)) (hfree : d.free = true)
    (hh' : h' = (dlinklistDel h mm.freeList d.addr).1.set .allocMem q.addr (q.size + d.size)) :
    Merging h' { mm with freeList := (dlinklistDel h mm.freeList d.addr).2 } pre
        ⟨q.addr, q.size + d.size, true⟩ post ∧
      h'.get .allocMem d.addr = d.size ∧ SameOutside mm.start mm.mempoolSize h h' := by
  have htaken := hm.takenIn hfree hh'
  obtain ⟨xs, hxs, hxfree⟩ := htaken.free
  obtain ⟨ys, hys, hyused⟩ := htaken.used
  have hq : q ∈ pre ++ q :: d :: post := mem_middle.mpr (Or.inl rfl)
  have hd : d ∈ pre ++ q :: d :: post :=
    List.mem_append_right _ (List.mem_cons_of_mem _ List.mem_cons_self)
  have hdq : d.addr ≠ q.addr :=
    addr_ne_of_mem hm.tiles hm.sized (List.mem_append_right _ List.mem_cons_self)
  have hqS := List.mem_map_of_mem (f := Chunk.addr) hq
  have hdS := List.mem_map_of_mem (f := Chunk.addr) hd
  have hold : ∀ u ∈ pre ++ post, u ∈ pre ++ q :: d :: post ∧ u.addr ≠ q.addr := by
    intro u hu
    have hmem : u ∈ pre ++ d :: post := mem_middle.mpr (Or.inr hu)
    exact ⟨mem_middle.mpr (Or.inr hmem), addr_ne_of_mem hm.tiles hm.sized hmem⟩
  have hsum : ∀ f : Nat → Nat, account f (pre ++ ⟨q.addr, q.size + d.size, true⟩ :: post) =
      account f (pre ++ q :: d :: post) := fun f => by
    rw [account_append, account_append, account_cons_free rfl, account_cons_free hm.isFree,
      account_cons_free hfree]
  have hqsize := hm.large q hq
  refine ⟨?_, ?_, sameOutside_edits hm.toHolds htaken.edits⟩
  · refine { tiles := hm.tiles.join true, low := hm.low, high := hm.high, size := ?_,
             allocMem_eq := ?_, isFree_eq := ?_, free := ⟨_, hxs, ?_⟩, used := ⟨_, hys, ?_⟩,
             allocMem := hm.allocMem.trans (hsum _).symm,
             allocProgMem := hm.allocProgMem.trans (hsum _).symm,
             large := ?_, isFree := rfl, footer := ?_ }
    · intro u hu
      rcases mem_middle.mp hu with rfl | hu
      · dsimp only
        omega
      · exact hm.size u (hold u hu).1
    · intro u hu
      rcases mem_middle.mp hu with rfl | hu
      · rw [htaken.get _ (by decide) (by decide) _ hqS, if_pos ⟨rfl, rfl⟩]
      · rw [htaken.get _ (by decide) (by decide) _ (List.mem_map_of_mem (hold u hu).1),
          if_neg fun hand => (hold u hu).2 hand.2]
        exact hm.allocMem_eq u (hold u hu).1
    · intro u hu
      rcases mem_middle.mp hu with rfl | hu
      · rw [htaken.get _ (by decide) (by decide) _ hqS, if_neg (by simp), hm.isFree_eq q hq]
        simp [isFreeFlag, hm.isFree]
      · rw [htaken.get _ (by decide) (by decide) _ (List.mem_map_of_mem (hold u hu).1),
          if_neg (by simp)]
        exact hm.isFree_eq u (hold u hu).1
    · rw [freeOnes_append, freeOnes_cons_free hm.isFree, freeOnes_cons_free hfree,
        List.map_append, List.map_cons, List.map_cons, List.append_cons] at hxfree
      rw [freeOnes_append, freeOnes_cons_free rfl, List.map_append, List.map_cons,
        List.append_cons]
      exact perm_erase_middle hxfree
    · rw [usedOnes_append, usedOnes_cons_free hm.isFree, usedOnes_cons_free hfree] at hyused
      rwa [usedOnes_append, usedOnes_cons_free rfl]
    · intro u hu
      rcases mem_middle.mp hu with rfl | hu
      · dsimp only
        omega
      · exact hm.large u (hold u hu).1
    · intro u hu w hw huw
      have hmem : u ∈ pre ++ d :: post := mem_middle.mpr (Or.inr hu)
      rw [← huw, footer_edits hm.tiles hm.large htaken.edits (hold u hu).1]
      rcases mem_middle.mp hw with rfl | hw
      · exact huw ▸ hm.footer u hmem q hq huw
      · exact huw ▸ hm.footer u hmem w (hold w hw).1 huw
  · rw [htaken.get _ (by decide) (by decide) _ hdS, if_neg fun hand => hdq hand.2]
    exact hm.allocMem_eq d hd

/-- A turn of the loop takes in a free chunk. -/
theorem Merging.turn {stop : Nat} (hm : Merging h mm pre q (d :: post)) (hfree : d.free = true)
    (hlt : d.addr < stop) (fuel : Nat) :
    ∃ h' freeList, absorb stop q.addr (fuel + 1) h mm.freeList q.stop =
        (absorb stop q.addr fuel h' freeList (⟨q.addr, q.size + d.size, true⟩ : Chunk).stop).map
          (fun r => { r with reads := d.addr :: r.reads }) ∧
      Merging h' { mm with freeList } pre ⟨q.addr, q.size + d.size, true⟩ post ∧
      SameOutside mm.start mm.mempoolSize h h' := by
  have hq : q ∈ pre ++ q :: d :: post := mem_middle.mpr (Or.inl rfl)
  have hd : d ∈ pre ++ q :: d :: post :=
    List.mem_append_right _ (List.mem_cons_of_mem _ List.mem_cons_self)
  obtain ⟨b, -, -, hnext⟩ := tiles_append.mp hm.tiles
  have hdq : q.stop = d.addr := hnext.1.symm
  have hone : h.get .isFree d.addr ≠ 0 := by
    rw [hm.isFree_eq d hd, isFreeFlag, hfree]
    decide
  obtain ⟨xs, hxs, hxfree⟩ := hm.free
  have hlinked := linked_of_listed hxs
    (hxfree.mem_iff.mpr (List.mem_map_of_mem (mem_freeOnes.mpr ⟨hd, hfree⟩)))
    (mem_of_free hxfree)
  have hkeep : ∀ u ∈ pre ++ q :: d :: post,
      (dlinklistDel h mm.freeList d.addr).1.get .allocMem u.addr = u.size := by
    intro u hu
    rw [get_del_of_ne hm.headers hlinked (List.mem_map_of_mem hu) (by decide) (by decide),
      hm.allocMem_eq u hu]
  have hsum : add q.size d.size = q.size + d.size := by
    have hfirst := (hm.tiles.bounds hq).1
    have hbounds := (hm.tiles.bounds hd).2
    have hhigh := hm.high
    unfold Chunk.stop at hbounds hdq
    exact add_eq (by unfold memSizeT; omega)
  have hstop : (⟨q.addr, q.size + d.size, true⟩ : Chunk).stop = d.addr + d.size := by
    rw [← hdq]
    unfold Chunk.stop
    dsimp only
    omega
  obtain ⟨hmerging, hsize, hsame⟩ := hm.step hfree rfl
  refine ⟨_, _, ?_, hmerging, hsame⟩
  rw [absorb, hdq, if_pos hlt, if_pos hone]
  dsimp only
  rw [hkeep q hq, hkeep d hd, hsum, hsize, hstop]

/-- Where the chunks end, or a chunk in use stands in the way before. -/
def Stops (mm : Memory) (stop : Nat) (post : List Chunk) : Prop :=
  mm.start + mm.mempoolSize = stop ∨
    mm.start + mm.mempoolSize ≤ stop ∧ ∃ u ∈ post, u.free = false

/-- What the loop leaves: the free chunks behind `q` are in it. -/
structure Absorbed (h : Heap) (mm : Memory) (pre : List Chunk) (q : Chunk) (post : List Chunk)
    (r : Merged) (q' : Chunk) (post' : List Chunk) : Prop where
  merging : Merging r.heap { mm with freeList := r.freeList } pre q' post'
  addr : q'.addr = q.addr
  suffix : post' <:+ post
  head : ∀ u ∈ post'.head?, u.free = false
  used : usedOnes post' = usedOnes post
  same : SameOutside mm.start mm.mempoolSize h r.heap
  reads : ∀ x ∈ r.reads, x ∈ post.map Chunk.addr

theorem absorb_spec {stop : Nat} (hm : Merging h mm pre q post) (hfuel : post.length < fuel)
    (hend : Stops mm stop post) :
    ∃ r q' post', absorb stop q.addr fuel h mm.freeList q.stop = some r ∧
      Absorbed h mm pre q post r q' post' := by
  induction post generalizing h mm q fuel with
  | nil =>
    obtain ⟨fuel, rfl⟩ : ∃ k, fuel = k + 1 := ⟨fuel - 1, by simp at hfuel; omega⟩
    obtain ⟨b, -, -, hlast⟩ := tiles_append.mp hm.tiles
    have hstop : q.stop = mm.start + mm.mempoolSize := hlast
    have hge : ¬ q.stop < stop := by
      rcases hend with heq | ⟨-, u, hu, -⟩
      · omega
      · exact absurd hu List.not_mem_nil
    refine ⟨_, q, [], by rw [absorb, if_neg hge], hm, rfl, List.suffix_refl _, ?_, rfl,
      .refl _ _ _, ?_⟩
    · simp
    · simp
  | cons d post ih =>
    obtain ⟨fuel, rfl⟩ : ∃ k, fuel = k + 1 := ⟨fuel - 1, by simp at hfuel; omega⟩
    have hd : d ∈ pre ++ q :: d :: post :=
      List.mem_append_right _ (List.mem_cons_of_mem _ List.mem_cons_self)
    have hlt : d.addr < stop := by
      have hbounds := (hm.tiles.bounds hd).2
      have hpos := hm.sized d hd
      unfold Chunk.stop at hbounds
      unfold Stops at hend
      omega
    cases hfree : d.free with
    | false =>
      obtain ⟨b, -, -, hnext⟩ := tiles_append.mp hm.tiles
      have hdq : q.stop = d.addr := hnext.1.symm
      have hzero : h.get .isFree d.addr = 0 := by rw [hm.isFree_eq d hd, isFreeFlag, hfree]; rfl
      rw [absorb, hdq, if_pos hlt, if_neg (by simp [hzero])]
      refine ⟨_, q, d :: post, rfl, hm, rfl, List.suffix_refl _, ?_, rfl, .refl _ _ _, ?_⟩
      · rintro u hu
        obtain rfl : d = u := Option.some.inj hu
        exact hfree
      · simp
    | true =>
      obtain ⟨h', freeList, hturn, hmerging, hsame⟩ := hm.turn hfree hlt fuel
      have hstops : Stops { mm with freeList } stop post := by
        refine hend.imp_right ?_
        rintro ⟨hle, u, hu, hused⟩
        refine ⟨hle, u, ?_, hused⟩
        refine (List.mem_cons.mp hu).resolve_left ?_
        rintro rfl
        exact Bool.false_ne_true (hused.symm.trans hfree)
      have hless : post.length < fuel := by simpa using hfuel
      obtain ⟨r, q', post', hr, habs⟩ := ih hmerging hless hstops
      refine ⟨{ r with reads := d.addr :: r.reads }, q', post', by rw [hturn, hr]; rfl,
        habs.merging, habs.addr,
        habs.suffix.trans (List.suffix_cons d post), habs.head, ?_, hsame.trans habs.same, ?_⟩
      · rw [usedOnes_cons_free hfree, habs.used]
      · intro x hx
        rcases List.mem_cons.mp hx with rfl | hx
        · exact List.mem_cons_self
        · exact List.mem_cons_of_mem _ (habs.reads x hx)

/-- Where all chunks behind are free and the loop does not stop at their end,
it goes on to the header there. -/
theorem absorb_beyond {stop : Nat} {r : Merged} (hm : Merging h mm pre q post)
    (hfree : ∀ u ∈ post, u.free = true) (hlt : mm.start + mm.mempoolSize < stop)
    (hr : absorb stop q.addr fuel h mm.freeList q.stop = some r) :
    mm.start + mm.mempoolSize ∈ r.reads := by
  induction post generalizing h mm q fuel r with
  | nil =>
    obtain ⟨b, -, -, hlast⟩ := tiles_append.mp hm.tiles
    have hstop : q.stop = mm.start + mm.mempoolSize := hlast
    rw [hstop] at hr
    cases fuel with
    | zero => simp [absorb] at hr
    | succ fuel =>
      rw [absorb, if_pos hlt] at hr
      split at hr
      · obtain ⟨r', -, rfl⟩ := Option.map_eq_some_iff.mp hr
        exact List.mem_cons_self
      · obtain rfl := Option.some.inj hr
        exact List.mem_cons_self
  | cons d post ih =>
    have hd : d ∈ pre ++ q :: d :: post :=
      List.mem_append_right _ (List.mem_cons_of_mem _ List.mem_cons_self)
    have hbounds := (hm.tiles.bounds hd).2
    unfold Chunk.stop at hbounds
    cases fuel with
    | zero => simp [absorb] at hr
    | succ fuel =>
      obtain ⟨h', freeList, hturn, hmerging, -⟩ :=
        hm.turn (hfree d List.mem_cons_self) (by omega : d.addr < stop) fuel
      rw [hturn] at hr
      obtain ⟨r', hr', rfl⟩ := Option.map_eq_some_iff.mp hr
      have hlast := ih hmerging (fun u hu => hfree u (List.mem_cons_of_mem _ hu)) hlt hr'
      exact List.mem_cons_of_mem _ hlast

/-- The footer of `q` is written. -/
theorem Merging.good (hm : Merging h mm pre q post)
    (hpre : ∀ d ∈ pre, d.stop = q.addr → d.free = false)
    (hpost : ∀ u ∈ post.head?, u.free = false)
    (hmerged : ∀ d ∈ pre ++ post, ∀ u ∈ pre ++ post, d.stop = u.addr →
      ¬ (d.free = true ∧ u.free = true))
    (hh' : h' = h.setFooter q.stop q.addr) :
    mm.Good h' (pre ++ q :: post) ∧ SameOutside mm.start mm.mempoolSize h h' := by
  have hq : q ∈ pre ++ q :: post := mem_middle.mpr (Or.inl rfl)
  have hapart : ∀ d ∈ pre ++ q :: post, FooterApart ((pre ++ q :: post).map Chunk.addr) d.stop :=
    fun d hd => ⟨stop_ge (hm.size d hd),
      footer_apart hm.tiles hm.size hd (Nat.le_of_lt (hm.large d hd))⟩
  have hqstop := hapart q hq
  have hget : ∀ g, ∀ x ∈ (pre ++ q :: post).map Chunk.addr, h'.get g x = h.get g x := by
    intro g x hx
    rw [hh']
    exact get_setFooter (hqstop.2 x hx) hqstop.1
  have hqlarge := hm.large q hq
  obtain ⟨xs, hxs, hxfree⟩ := hm.free
  obtain ⟨ys, hys, hyused⟩ := hm.used
  have hholds : mm.Holds h' (pre ++ q :: post) := {
    hm.toHolds with
    allocMem_eq := fun d hd => by rw [hget _ _ (List.mem_map_of_mem hd), hm.allocMem_eq d hd]
    isFree_eq := fun d hd => by rw [hget _ _ (List.mem_map_of_mem hd), hm.isFree_eq d hd]
    free := ⟨xs, hxs.congr (fun y hy => hget _ _ (mem_of_free hxfree y hy))
      fun y hy => hget _ _ (mem_of_free hxfree y hy), hxfree⟩
    used := ⟨ys, hys.congr (fun y hy => hget _ _ (mem_of_used hyused y hy))
      fun y hy => hget _ _ (mem_of_used hyused y hy), hyused⟩ }
  refine ⟨{ toHolds := hholds, ne_nil := by simp, footer := ?_, merged := ?_,
            large := Or.inl hm.large }, ?_⟩
  · intro d hd u hu hdu
    rcases mem_middle.mp hd with rfl | hd'
    · rw [hh', ← hdu]
      have hbounds := hm.tiles.bounds hd
      have hhigh := hm.high
      unfold Chunk.stop at hbounds
      exact footer_setFooter (by unfold memSizeT; omega)
    · -- the other chunks stop elsewhere
      have hne : d.stop + chunkEnd ≤ q.stop ∨ q.stop + chunkEnd ≤ d.stop := by
        have hlarge := hm.large d hd
        rcases List.mem_append.mp hd' with hd' | hd'
        · have hle := hm.tiles.before hd'
          unfold Chunk.stop at hle ⊢
          omega
        · have hle := hm.tiles.behind hd'
          unfold Chunk.stop at hle ⊢
          omega
      rw [hh', ← hdu, footer_setFooter_of_apart hqstop.1 (hapart d hd).1 hne.symm, hdu]
      exact hm.footer d hd' u hu hdu
  · intro d hd u hu hdu hboth
    rcases mem_middle.mp hd with rfl | hd'
    · rcases mem_middle.mp hu with rfl | hu'
      · unfold Chunk.stop at hdu
        omega
      · rcases List.mem_append.mp hu' with hu' | hu'
        · have hle := hm.tiles.before hu'
          unfold Chunk.stop at hle hdu
          omega
        · -- what comes right behind `q` is the first of the rest
          cases post with
          | nil => cases hu'
          | cons w post =>
            rcases List.mem_cons.mp hu' with rfl | hu''
            · exact Bool.false_ne_true ((hpost u rfl).symm.trans hboth.2)
            · have htiles : Tiles mm.start ((pre ++ [d]) ++ w :: post)
                  (mm.start + mm.mempoolSize) := by simpa using hm.tiles
              have hdw := hm.tiles.behind (List.mem_cons_self (a := w) (l := post))
              have hwu := htiles.behind hu''
              have hwpos := hm.sized w (mem_middle.mpr (Or.inr
                (List.mem_append_right _ List.mem_cons_self)))
              unfold Chunk.stop at hdu hdw hwu
              omega
    · rcases mem_middle.mp hu with rfl | hu'
      · rcases List.mem_append.mp hd' with hd' | hd'
        · exact Bool.false_ne_true ((hpre d hd' hdu).symm.trans hboth.1)
        · have hle := hm.tiles.behind hd'
          have hpos := hm.sized d hd
          unfold Chunk.stop at hle hdu
          omega
      · exact hmerged d hd' u hu' hdu hboth
  · rw [hh']
    have hbounds := hm.tiles.bounds hq
    exact (SameOutside.refl _ _ _).setFooter (by unfold Chunk.stop; omega) hbounds.2

/-! ## The walk back -/

theorem walkBack_used {p1 : Nat} (hflag : h.get .isFree a = 0) :
    walkBack h m (fuel + 1) a p1 = some (p1, [a]) := by
  rw [walkBack, if_neg (by simp [hflag])]

theorem walkBack_first {p1 : Nat} (hflag : h.get .isFree a ≠ 0) (hle : a ≤ m) :
    walkBack h m (fuel + 1) a p1 = some (a, [a]) := by
  rw [walkBack, if_pos hflag, if_pos (by omega)]

theorem walkBack_free {p1 : Nat} (hflag : h.get .isFree a ≠ 0)
    (hlt : m + (chunkHeader + chunkEnd) < a) : walkBack h m (fuel + 1) a p1 =
      (walkBack h m fuel (h.footer a) a).map fun r => (r.1, a :: r.2) := by
  rw [walkBack, if_pos hflag, if_neg (by omega)]

/-- Where the merging starts: at `q`, with a chunk in use in front of it or
none. -/
structure WalksTo (h : Heap) (mm : Memory) (fuel : Nat) (pre : List Chunk) (c : Chunk)
    (post : List Chunk) (pre' : List Chunk) (q : Chunk) (post' : List Chunk) : Prop where
  chunks : pre ++ c :: post = pre' ++ q :: post'
  isFree : q.free = true
  used : ∀ d ∈ pre', d.stop = q.addr → d.free = false
  front : ∀ d ∈ pre', d ∈ pre
  behind : post' = post ∨ post' = c :: post
  walk : ∃ back, walkBack h mm.start fuel c.addr c.addr = some (q.addr, back) ∧
    ∀ x ∈ back, x ∈ (pre ++ c :: post).map Chunk.addr

theorem walkBack_spec (hh : mm.Holds h (pre ++ c :: post)) (hfree : c.free = true)
    (hlarge : ∀ d ∈ pre ++ c :: post, chunkHeader + chunkEnd < d.size)
    (hfooter : ∀ d ∈ pre ++ c :: post, ∀ u ∈ pre ++ c :: post, d.stop = u.addr →
      h.footer u.addr = d.addr)
    (hmerged : ∀ d ∈ pre, ∀ u ∈ pre, d.stop = u.addr → ¬ (d.free = true ∧ u.free = true))
    (hfuel : 3 ≤ fuel) :
    ∃ pre' q post', WalksTo h mm fuel pre c post pre' q post' := by
  obtain ⟨fuel, rfl⟩ : ∃ k, fuel = k + 3 := ⟨fuel - 3, by omega⟩
  have hset : ∀ d ∈ pre ++ c :: post, d.free = true → h.get .isFree d.addr ≠ 0 := by
    intro d hd hdfree
    rw [hh.isFree_eq d hd, isFreeFlag, hdfree]
    decide
  have hclear : ∀ d ∈ pre ++ c :: post, d.free = false → h.get .isFree d.addr = 0 := by
    intro d hd hdused
    rw [hh.isFree_eq d hd, isFreeFlag, hdused]
    rfl
  -- a chunk with one in front of it is far from the start
  have hfar : ∀ d ∈ pre ++ c :: post, ∀ u ∈ pre ++ c :: post, d.stop = u.addr →
      mm.start + (chunkHeader + chunkEnd) < u.addr := by
    intro d hd u hu hdu
    have hbounds := (hh.tiles.bounds hd).1
    have hsize := hlarge d hd
    unfold Chunk.stop at hdu
    omega
  have hc : c ∈ pre ++ c :: post := mem_middle.mpr (Or.inl rfl)
  rcases List.eq_nil_or_concat pre with rfl | ⟨pre, d, rfl⟩
  · have hstart : c.addr = mm.start := hh.tiles.1
    refine ⟨[], c, post, rfl, hfree, by simp, by simp, Or.inl rfl, [c.addr],
      walkBack_first (hset c hc hfree) (Nat.le_of_eq hstart), by simp⟩
  rw [List.concat_eq_append] at *
  have hd : d ∈ pre ++ [d] ++ c :: post := by simp
  have hdc : d.stop = c.addr := by
    have htiles := hh.tiles
    rw [List.append_assoc] at htiles
    exact htiles.link
  have hone : ∀ fuel, walkBack h mm.start (fuel + 1) c.addr c.addr =
      (walkBack h mm.start fuel d.addr c.addr).map fun r => (r.1, c.addr :: r.2) := fun fuel => by
    rw [walkBack_free (hset c hc hfree) (hfar d hd c hc hdc), hfooter d hd c hc hdc]
  cases hdfree : d.free with
  | false =>
    refine ⟨pre ++ [d], c, post, rfl, hfree, fun u hu huc => ?_, fun u hu => hu,
      Or.inl rfl, [c.addr, d.addr], ?_, ?_⟩
    · have hud := hh.tiles.eq_of_stop hh.sized (List.mem_append_left _ hu) hd (huc.trans hdc.symm)
      rw [hud, hdfree]
    · rw [hone, walkBack_used (hclear d hd hdfree)]
      rfl
    · simp
  | true =>
    rcases List.eq_nil_or_concat pre with rfl | ⟨pre, u, rfl⟩
    · have hstart : d.addr = mm.start := hh.tiles.1
      refine ⟨[], d, c :: post, rfl, hdfree, by simp, by simp, Or.inr rfl, [c.addr, d.addr],
        ?_, ?_⟩
      · rw [hone, walkBack_first (hset d hd hdfree) (Nat.le_of_eq hstart)]
        rfl
      · simp
    rw [List.concat_eq_append] at *
    have hu : u ∈ pre ++ [u] ++ [d] ++ c :: post := by simp
    have hud : u.stop = d.addr := by
      have htiles := hh.tiles
      rw [List.append_assoc, List.append_assoc] at htiles
      exact htiles.link
    have hused : u.free = false := by
      by_contra hne
      exact hmerged u (by simp) d (by simp) hud ⟨by simpa using hne, hdfree⟩
    refine ⟨pre ++ [u], d, c :: post, by simp, hdfree, fun w hw hwd => ?_,
      fun w hw => List.mem_append_left _ hw, Or.inr rfl, [c.addr, d.addr, u.addr], ?_, ?_⟩
    · have hwu := hh.tiles.eq_of_stop hh.sized
        (List.mem_append_left _ (List.mem_append_left _ hw)) hu (hwd.trans hud.symm)
      rw [hwu, hused]
    · rw [hone, walkBack_free (hset d hd hdfree) (hfar u hu d hd hud), hfooter u hu d hd hud,
        walkBack_used (hclear u hu hused)]
      rfl
    · simp

/-! ## Release and merging -/

/-- The reads of the merging are of headers in the memory. -/
def Memory.Reads (mm : Memory) (reads : List Nat) : Prop :=
  ∀ x ∈ reads, mm.start ≤ x ∧ x + chunkHeader ≤ mm.start + mm.mempoolSize

/-- The release and the walk back leave the free chunk `q` to the loop. -/
theorem Memory.Good.walked {h₁ : Heap} {mm₁ : Memory} (hg : mm.Good h (pre ++ c :: post))
    (hused : c.free = false) (hle : mm.mempoolSize ≤ m)
    (hh₁ : h₁ = (MemoryPool.releaseChunk h mm c.addr).1)
    (hmm₁ : mm₁ = (MemoryPool.releaseChunk h mm c.addr).2) :
    (mm₁.start = mm.start ∧ mm₁.mempoolSize = mm.mempoolSize) ∧
      SameOutside mm.start mm.mempoolSize h h₁ ∧
      ∃ pre' q post', WalksTo h₁ mm₁ m pre { c with free := true } post pre' q post' ∧
        Merging h₁ mm₁ pre' q post' ∧ post'.length < m := by
  have hc : c ∈ pre ++ c :: post := mem_middle.mpr (Or.inl rfl)
  have hall := hg.all_large hc fun hfree => absurd (hused.symm.trans hfree) Bool.false_ne_true
  obtain ⟨hholds, hed⟩ := hg.releaseChunk hused hh₁
  have hfooter : ∀ d ∈ pre ++ { c with free := true } :: post,
      ∀ u ∈ pre ++ { c with free := true } :: post, d.stop = u.addr → h₁.footer u.addr = d.addr :=
    hg.footer_relabel rfl rfl hall hed
  have hsame := sameOutside_edits hg.toHolds hed
  have hspan : (MemoryPool.releaseChunk h mm c.addr).2.span = mm.span := span_releaseChunk
  rw [← hmm₁] at hholds hspan
  have hsize : mm₁.mempoolSize = mm.mempoolSize := congrArg Prod.snd hspan
  have hlarge : ∀ d ∈ pre ++ { c with free := true } :: post, chunkHeader + chunkEnd < d.size := by
    intro d hd
    obtain ⟨d₀, hd₀, -, hdsize, -⟩ := exists_old c { c with free := true } rfl rfl hd
    rw [← hdsize]
    exact hall d₀ hd₀
  have hmerged : ∀ d ∈ pre, ∀ u ∈ pre, d.stop = u.addr → ¬ (d.free = true ∧ u.free = true) :=
    fun d hd u hu => hg.merged d (List.mem_append_left _ hd) u (List.mem_append_left _ hu)
  have hcount := hholds.tiles.length_le hholds.size
  have hcsize := hlarge { c with free := true } (mem_middle.mpr (Or.inl rfl))
  have hbounds := hholds.tiles.bounds (mem_middle.mpr (Or.inl rfl) :
    ({ c with free := true } : Chunk) ∈ pre ++ { c with free := true } :: post)
  unfold Chunk.stop at hbounds
  dsimp only at hcsize hbounds
  have hdeep : 3 ≤ m := by
    unfold chunkHeader chunkEnd at hcsize
    omega
  obtain ⟨pre', q, post', hwalks⟩ := walkBack_spec hholds rfl hlarge hfooter hmerged hdeep
  have hchunks := hwalks.chunks
  rw [hchunks] at hholds hlarge hfooter hcount
  refine ⟨⟨congrArg Prod.fst hspan, hsize⟩, hsame, pre', q, post', hwalks, ?_, ?_⟩
  · exact {
      toHolds := hholds
      large := hlarge
      isFree := hwalks.isFree
      footer := fun d hd u hu => hfooter d (mem_middle.mpr (Or.inr hd)) u hu }
  · rw [List.length_append, List.length_cons] at hcount
    unfold chunkHeader at hcount
    omega

theorem Memory.Good.merge (hg : mm.Good h (pre ++ c :: post)) (hused : c.free = false)
    (hle : mm.mempoolSize ≤ m) (hend : mm.mempoolSize = m ∨ ∃ d ∈ post, d.free = false) :
    ∃ r cs', mergeFreeChunk (MemoryPool.releaseChunk h mm c.addr).1 m
        (MemoryPool.releaseChunk h mm c.addr).2 c.addr = some r ∧
      Memory.Good r.heap
        { (MemoryPool.releaseChunk h mm c.addr).2 with freeList := r.freeList } cs' ∧
      usedOnes cs' = usedOnes pre ++ usedOnes post ∧
      SameOutside mm.start mm.mempoolSize h r.heap ∧ mm.Reads r.reads := by
  obtain ⟨⟨hstart, hsize⟩, hsame, pre', q, post', hwalks, hmerging, hturns⟩ :=
    hg.walked hused hle rfl rfl
  generalize (MemoryPool.releaseChunk h mm c.addr).2 = mm₁ at *
  generalize (MemoryPool.releaseChunk h mm c.addr).1 = h₁ at *
  have hmerged : ∀ d ∈ pre ++ post, ∀ u ∈ pre ++ post, d.stop = u.addr →
      ¬ (d.free = true ∧ u.free = true) := fun d hd u hu =>
    hg.merged d (mem_middle.mpr (Or.inr hd)) u (mem_middle.mpr (Or.inr hu))
  obtain ⟨back, hback, hbackin⟩ := hwalks.walk
  have hchunks := hwalks.chunks
  have hinside := inside_of_tiles hmerging.tiles hmerging.size
  rw [hchunks] at hbackin
  have hstops : Stops mm₁ (mm₁.start + m) post' := by
    rcases hend with heq | ⟨d, hd, hdused⟩
    · exact Or.inl (by omega)
    · refine Or.inr ⟨by omega, d, ?_, hdused⟩
      rcases hwalks.behind with rfl | rfl
      · exact hd
      · exact List.mem_cons_of_mem _ hd
  obtain ⟨r, q', post'', habsorb, habs⟩ := absorb_spec hmerging hturns hstops
  -- what has been left is behind `c`
  have hsub : ∀ d ∈ post'', d ∈ post := by
    intro d hd
    rcases hwalks.behind with rfl | rfl
    · exact habs.suffix.subset hd
    · rcases List.suffix_cons_iff.mp habs.suffix with rfl | hsuffix
      · exact absurd (habs.head { c with free := true } rfl).symm Bool.false_ne_true
      · exact hsuffix.subset hd
  have hq : h₁.get .allocMem q.addr = q.size :=
    hmerging.allocMem_eq q (mem_middle.mpr (Or.inl rfl))
  have hq' : r.heap.get .allocMem q.addr = q'.size := by
    rw [← habs.addr]
    exact habs.merging.allocMem_eq q' (mem_middle.mpr (Or.inl rfl))
  have hstop' : q.addr + q'.size = q'.stop := by rw [← habs.addr]; rfl
  obtain ⟨hgood, hlast⟩ := habs.merging.good (fun d hd hdq => hwalks.used d hd (habs.addr ▸ hdq))
    habs.head (fun d hd u hu => hmerged d
      ((List.mem_append.mp hd).elim (fun hd => List.mem_append_left _ (hwalks.front d hd))
        fun hd => List.mem_append_right _ (hsub d hd)) u
      ((List.mem_append.mp hu).elim (fun hu => List.mem_append_left _ (hwalks.front u hu))
        fun hu => List.mem_append_right _ (hsub u hu))) rfl
  refine ⟨{ heap := r.heap.setFooter (q.addr + r.heap.get .allocMem q.addr) q.addr
            freeList := r.freeList
            reads := back ++ r.reads }, pre' ++ q' :: post'', ?_, ?_, ?_, ?_, ?_⟩
  · unfold mergeFreeChunk
    rw [hback]
    dsimp only
    rw [hq]
    exact congrArg (Option.map _) habsorb
  · dsimp only
    rw [hq', hstop', ← habs.addr]
    exact hgood
  · have hkept := congrArg usedOnes hchunks
    rw [usedOnes_append, usedOnes_cons_free rfl, usedOnes_append,
      usedOnes_cons_free hwalks.isFree] at hkept
    rw [usedOnes_append, usedOnes_cons_free habs.merging.isFree, habs.used, hkept]
  · dsimp only
    rw [hq', hstop', ← habs.addr, ← hstart, ← hsize]
    rw [← hstart, ← hsize] at hsame
    exact (hsame.trans habs.same).trans hlast
  · intro x hx
    rw [← hstart, ← hsize]
    rcases List.mem_append.mp hx with hx | hx
    · exact hinside x (hbackin x hx)
    · refine hinside x ?_
      obtain ⟨d, hd, rfl⟩ := List.mem_map.mp (habs.reads x hx)
      exact List.mem_map_of_mem
        (List.mem_append_right _ (List.mem_cons_of_mem _ hd))

/-- In a memory that is smaller, with only free chunks behind the chunk, the
merging reads the header behind the memory. -/
theorem Memory.Good.merge_beyond {r : Merged} (hg : mm.Good h (pre ++ c :: post))
    (hused : c.free = false) (hlt : mm.mempoolSize < m) (hfree : ∀ d ∈ post, d.free = true)
    (hr : mergeFreeChunk (MemoryPool.releaseChunk h mm c.addr).1 m
      (MemoryPool.releaseChunk h mm c.addr).2 c.addr = some r) : ¬ mm.Reads r.reads := by
  obtain ⟨⟨hstart, hsize⟩, -, pre', q, post', hwalks, hmerging, -⟩ :=
    hg.walked hused (Nat.le_of_lt hlt) rfl rfl
  generalize (MemoryPool.releaseChunk h mm c.addr).2 = mm₁ at *
  generalize (MemoryPool.releaseChunk h mm c.addr).1 = h₁ at *
  obtain ⟨back, hback, -⟩ := hwalks.walk
  have hfree' : ∀ u ∈ post', u.free = true := by
    rcases hwalks.behind with rfl | rfl
    · exact hfree
    · exact List.forall_mem_cons.mpr ⟨rfl, hfree⟩
  have hq : h₁.get .allocMem q.addr = q.size :=
    hmerging.allocMem_eq q (mem_middle.mpr (Or.inl rfl))
  unfold mergeFreeChunk at hr
  rw [hback] at hr
  dsimp only at hr
  obtain ⟨r', habsorb, rfl⟩ := Option.map_eq_some_iff.mp hr
  rw [hq] at habsorb
  have hlast := absorb_beyond hmerging hfree' (by omega) habsorb
  intro hreads
  have hin := (hreads _ (List.mem_append_right _ hlast)).2
  unfold chunkHeader at hin
  omega

end Training.MemoryPool
