/-
Training.MemoryPool.AllocTheorems — a chunk is taken from a memory.

The free chunk that the search has found is taken whole
(`Memory.Good.wholeChunk`) or is split and its front taken
(`Memory.Good.splitChunk`); in both cases the memory is as good as before
(`Memory.Good.takeChunk`), and no byte outside it is written.
-/
import Training.MemoryPool.ChunkTheorems
import Training.MemoryPool.LimitTheorems

namespace Training.MemoryPool

open Training.Lib.Memory Training.Lib.Tiling

variable {h h' : Heap} {mm : Memory} {cs ds pre post : List Chunk} {c c' d : Chunk}
  {a b e n m total : Nat} {S xs : List Nat}

/-! ## Sizes -/

theorem add_eq (h : a + b < memSizeT) : add a b = a + b := Nat.mod_eq_of_lt h

theorem sub_eq (hle : b ≤ a) (ha : a < memSizeT) : sub a b = a - b := by
  unfold sub
  rw [Nat.add_sub_assoc hle, Nat.add_mod_left, Nat.mod_eq_of_lt (by omega)]

theorem prog_eq (hlarge : chunkHeader + chunkEnd ≤ n) (hn : n < memSizeT) :
    sub (sub n chunkHeader) chunkEnd = progSize n := by
  rw [sub_eq (by omega) hn, sub_eq (by omega) (by omega)]
  unfold progSize
  omega

theorem progSize_le (n : Nat) : progSize n ≤ n := Nat.sub_le _ _

/-! ## One chunk among the others -/

section Among

variable (ht : Tiles a (pre ++ c :: post) e) (hsize : ∀ d ∈ pre ++ c :: post, 0 < d.size)
include ht hsize

theorem addr_ne_of_mem (hd : d ∈ pre ++ post) : d.addr ≠ c.addr := by
  have hnodup := ht.nodup hsize
  have hmem : d ∈ pre ++ c :: post := by
    rcases List.mem_append.mp hd with hd | hd
    · exact List.mem_append_left _ hd
    · exact List.mem_append_right _ (List.mem_cons_of_mem _ hd)
  intro heq
  have hdc := ht.eq_of_addr hsize hmem (List.mem_append_right _ List.mem_cons_self) heq
  rw [hdc] at hd
  exact (List.nodup_cons.mp (List.nodup_middle.mp hnodup)).1 hd

end Among

theorem mem_middle : d ∈ pre ++ c :: post ↔ d = c ∨ d ∈ pre ++ post := by
  rw [List.mem_append, List.mem_append, List.mem_cons]
  tauto

/-- A chunk leaves a list of chunks. -/
theorem perm_erase_middle {A B : List Nat} (hp : xs.Perm (A ++ n :: B)) :
    (xs.erase n).Perm (A ++ B) := by
  have herase := (hp.trans List.perm_middle).erase n
  rwa [List.erase_cons_head] at herase

/-- A chunk that is in use or large has no tiny neighbours. -/
theorem Memory.Good.all_large (hg : mm.Good h cs) (hc : c ∈ cs)
    (hlarge : c.free = true → chunkHeader + chunkEnd < c.size) :
    ∀ d ∈ cs, chunkHeader + chunkEnd < d.size := by
  rcases hg.large with hall | ⟨d, rfl, hdfree⟩
  · exact hall
  · rw [List.mem_singleton.mp hc] at hlarge
    exact List.forall_mem_singleton.mpr (hlarge hdfree)

/-! ## A chunk changes hands -/

theorem map_addr_relabel (haddr : c'.addr = c.addr) :
    (pre ++ c' :: post).map Chunk.addr = (pre ++ c :: post).map Chunk.addr := by
  rw [List.map_append, List.map_append, List.map_cons, List.map_cons, haddr]

/-- The chunk `c` has another flag and is in another list, where it was. -/
theorem Memory.Holds.relabel {mm' : Memory} (hh : mm.Holds h (pre ++ c :: post))
    (haddr : c'.addr = c.addr) (hsz : c'.size = c.size) (hspan : mm'.span = mm.span)
    (hmem : ∀ x ∈ (pre ++ c :: post).map Chunk.addr, h'.get .allocMem x = h.get .allocMem x)
    (hflag : ∀ x ∈ (pre ++ c :: post).map Chunk.addr,
      h'.get .isFree x = if x = c.addr then isFreeFlag c' else h.get .isFree x)
    (hfree : ∃ xs, h'.Lists mm'.freeList xs ∧
      xs.Perm ((freeOnes (pre ++ c' :: post)).map Chunk.addr))
    (hused : ∃ xs, h'.Lists mm'.allocList xs ∧
      xs.Perm ((usedOnes (pre ++ c' :: post)).map Chunk.addr))
    (hacc : mm'.allocMem = account (fun n => n) (pre ++ c' :: post))
    (hprog : mm'.allocProgMem = account progSize (pre ++ c' :: post)) :
    mm'.Holds h' (pre ++ c' :: post) := by
  have hc : c ∈ pre ++ c :: post := List.mem_append_right _ List.mem_cons_self
  have hstart : mm'.start = mm.start := congrArg Prod.fst hspan
  have hn : mm'.mempoolSize = mm.mempoolSize := congrArg Prod.snd hspan
  have hold : ∀ d ∈ pre ++ c' :: post, d = c' ∨ d ∈ pre ++ c :: post ∧ d.addr ≠ c.addr := by
    intro d hd
    refine (mem_middle.mp hd).imp_right fun hd => ⟨mem_middle.mpr (Or.inr hd), ?_⟩
    exact addr_ne_of_mem hh.tiles hh.sized hd
  refine ⟨?_, ?_, ?_, ?_, ?_, ?_, hfree, hused, hacc, hprog⟩
  · rw [hstart, hn]
    exact hh.tiles.relabel haddr hsz
  · rw [hstart]
    exact hh.low
  · rw [hstart, hn]
    exact hh.high
  · intro d hd
    rcases hold d hd with rfl | ⟨hd, -⟩
    · rw [hsz]
      exact hh.size c hc
    · exact hh.size d hd
  · intro d hd
    rcases hold d hd with rfl | ⟨hd, -⟩
    · rw [haddr, hmem _ (List.mem_map_of_mem hc), hh.allocMem_eq c hc, hsz]
    · rw [hmem _ (List.mem_map_of_mem hd), hh.allocMem_eq d hd]
  · intro d hd
    rcases hold d hd with rfl | ⟨hd, hne⟩
    · rw [haddr, hflag _ (List.mem_map_of_mem hc), if_pos rfl]
    · rw [hflag _ (List.mem_map_of_mem hd), if_neg hne, hh.isFree_eq d hd]

/-- Stores to headers leave the footers alone. -/
theorem footer_edits (ht : Tiles a cs e) (hall : ∀ d ∈ cs, chunkHeader + chunkEnd < d.size)
    (hed : Edits (cs.map Chunk.addr) h h') (hc : c ∈ cs) : h'.footer c.stop = h.footer c.stop := by
  have hsize : ∀ d ∈ cs, chunkHeader ≤ d.size := fun d hd => by
    have hlarge := hall d hd
    omega
  exact hed.footer (stop_ge (hsize c hc))
    (footer_apart ht hsize hc (Nat.le_of_lt (hall c hc)))

theorem sameOutside_edits (hh : mm.Holds h cs) (hed : Edits (cs.map Chunk.addr) h h') :
    SameOutside mm.start mm.mempoolSize h h' :=
  hed.sameOutside (inside_of_tiles hh.tiles hh.size)

/-- A relabelled chunk stands for the old one. -/
theorem exists_old (c c' : Chunk) (haddr : c'.addr = c.addr) (hsz : c'.size = c.size)
    (hd : d ∈ pre ++ c' :: post) :
    ∃ d₀ ∈ pre ++ c :: post, d₀.addr = d.addr ∧ d₀.size = d.size ∧ (d = c' ∨ d = d₀) := by
  rcases mem_middle.mp hd with rfl | hd
  · exact ⟨c, mem_middle.mpr (Or.inl rfl), haddr.symm, hsz.symm, Or.inl rfl⟩
  · exact ⟨d, mem_middle.mpr (Or.inr hd), rfl, rfl, Or.inr rfl⟩

/-- Headers are stored to and a chunk gets another flag: the footers still
lead back. -/
theorem Memory.Good.footer_relabel (hg : mm.Good h (pre ++ c :: post)) (haddr : c'.addr = c.addr)
    (hsz : c'.size = c.size) (hall : ∀ d ∈ pre ++ c :: post, chunkHeader + chunkEnd < d.size)
    (hed : Edits ((pre ++ c :: post).map Chunk.addr) h h') :
    ∀ d ∈ pre ++ c' :: post, ∀ u ∈ pre ++ c' :: post, d.stop = u.addr →
      h'.footer u.addr = d.addr := by
  intro d hd u hu hdu
  obtain ⟨d₀, hd₀, hdaddr, hdsize, -⟩ := exists_old c c' haddr hsz hd
  obtain ⟨u₀, hu₀, huaddr, -, -⟩ := exists_old c c' haddr hsz hu
  have hstop : d₀.stop = d.stop := by rw [Chunk.stop, Chunk.stop, hdaddr, hdsize]
  rw [← hdu, ← hstop, footer_edits hg.tiles hall hed hd₀, ← hdaddr]
  have hlink : d₀.stop = u₀.addr := hstop.trans (hdu.trans huaddr.symm)
  rw [hlink]
  exact hg.footer d₀ hd₀ u₀ hu₀ hlink

/-- The chunk at `x` has gone from the list `xs` to the front of `ys`, and its
flag is `v`. -/
structure Moved (h h' : Heap) (S : List Nat) (x v head : Nat) (xs ys : List Nat) : Prop where
  left : h'.Lists head (xs.erase x)
  joined : h'.Lists x (x :: ys)
  edits : Edits S h h'
  allocMem : ∀ y ∈ S, h'.get .allocMem y = h.get .allocMem y
  isFree : ∀ y ∈ S, h'.get .isFree y = if y = x then v else h.get .isFree y

section Moved

variable {ys : List Nat} {x v : Nat} (hS : Headers S) (hxs : h.Lists a xs) (hys : h.Lists b ys)
  (hx : x ∈ xs) (hxS : ∀ y ∈ xs, y ∈ S) (hyS : ∀ y ∈ ys, y ∈ S) (hdisj : ∀ y ∈ ys, y ∉ xs)
  (hv : v < 256 ^ Field.isFree.width)
include hS hxs hys hx hxS hyS hdisj hv

/-- The flag is written in between. -/
theorem moved_set_insFrt :
    Moved h (dlinklistInsFrt ((dlinklistDel h a x).1.set .isFree x v) b x) S x v
      (dlinklistDel h a x).2 xs ys := by
  have hlinked := linked_of_listed hxs hx hxS
  have hhead := hys.head_mem hyS
  have hxS' : ∀ y ∈ xs.erase x, y ∈ S := fun y hy => hxS y (List.mem_of_mem_erase hy)
  have hxs1 := lists_del hS hxs hx hxS
  have hys1 := lists_del_other hS hxs hx hxS hys hyS hdisj
  have hxs2 := lists_set (f := .isFree) hS hxs1 (hxS x hx) hxS' (by decide) (by decide) hv
  have hys2 := lists_set (f := .isFree) hS hys1 (hxS x hx) hyS (by decide) (by decide) hv
  refine ⟨?_, lists_insFrt hS hys2 (hxS x hx) (fun hmem => hdisj x hmem hx) hyS,
    ((edits_del hS hlinked).set .isFree v (hxS x hx)).trans (edits_insFrt (hxS x hx) hhead),
    fun y hy => ?_, fun y hy => ?_⟩
  · exact lists_insFrt_other hS hys2 (hxS x hx) hyS hxs2 hxS'
      (fun y hy hmem => hdisj y hmem (List.mem_of_mem_erase hy)) hxs.nodup_xs.not_mem_erase
  · rw [get_insFrt_of_ne hS (hxS x hx) hhead hy (by decide) (by decide),
      hS.get_set .isFree (hxS x hx) hy hv, if_neg (by simp),
      get_del_of_ne hS hlinked hy (by decide) (by decide)]
  · rw [get_insFrt_of_ne hS (hxS x hx) hhead hy (by decide) (by decide),
      hS.get_set .isFree (hxS x hx) hy hv, get_del_of_ne hS hlinked hy (by decide) (by decide)]
    simp

/-- The flag is written last. -/
theorem moved_insFrt_set :
    Moved h ((dlinklistInsFrt (dlinklistDel h a x).1 b x).set .isFree x v) S x v
      (dlinklistDel h a x).2 xs ys := by
  have hlinked := linked_of_listed hxs hx hxS
  have hhead := hys.head_mem hyS
  have hxS' : ∀ y ∈ xs.erase x, y ∈ S := fun y hy => hxS y (List.mem_of_mem_erase hy)
  have hyS' : ∀ y ∈ x :: ys, y ∈ S := List.forall_mem_cons.mpr ⟨hxS x hx, hyS⟩
  have hxs1 := lists_del hS hxs hx hxS
  have hys1 := lists_del_other hS hxs hx hxS hys hyS hdisj
  have hys2 := lists_insFrt hS hys1 (hxS x hx) (fun hmem => hdisj x hmem hx) hyS
  have hxs2 := lists_insFrt_other hS hys1 (hxS x hx) hyS hxs1 hxS'
    (fun y hy hmem => hdisj y hmem (List.mem_of_mem_erase hy)) hxs.nodup_xs.not_mem_erase
  refine ⟨lists_set hS hxs2 (hxS x hx) hxS' (by decide) (by decide) hv,
    lists_set hS hys2 (hxS x hx) hyS' (by decide) (by decide) hv,
    ((edits_del hS hlinked).trans (edits_insFrt (hxS x hx) hhead)).set .isFree v (hxS x hx),
    fun y hy => ?_, fun y hy => ?_⟩
  · rw [hS.get_set .isFree (hxS x hx) hy hv, if_neg (by simp),
      get_insFrt_of_ne hS (hxS x hx) hhead hy (by decide) (by decide),
      get_del_of_ne hS hlinked hy (by decide) (by decide)]
  · rw [hS.get_set .isFree (hxS x hx) hy hv,
      get_insFrt_of_ne hS (hxS x hx) hhead hy (by decide) (by decide),
      get_del_of_ne hS hlinked hy (by decide) (by decide)]
    simp

end Moved

/-! ## A whole chunk -/

theorem Memory.Good.wholeChunk (hg : mm.Good h (pre ++ c :: post)) (hfree : c.free = true)
    (hlarge : chunkHeader + chunkEnd < c.size)
    (hh' : h' = dlinklistInsFrt (MemoryPool.wholeChunk h mm.freeList c.addr).1 mm.allocList c.addr) :
    (mm.taken (MemoryPool.wholeChunk h mm.freeList c.addr).2 c.addr (h'.get .allocMem c.addr)).Good h'
        (pre ++ { c with free := false } :: post) ∧
      h'.get .allocMem c.addr = c.size ∧ SameOutside mm.start mm.mempoolSize h h' := by
  have hc : c ∈ pre ++ c :: post := List.mem_append_right _ List.mem_cons_self
  have hall := hg.all_large hc fun _ => hlarge
  have hS := hg.headers
  obtain ⟨xs, hxs, hxfree⟩ := hg.free
  obtain ⟨ys, hys, hyused⟩ := hg.used
  have hcS : c.addr ∈ (pre ++ c :: post).map Chunk.addr := List.mem_map_of_mem hc
  have hcx : c.addr ∈ xs := hxfree.mem_iff.mpr (List.mem_map_of_mem (mem_freeOnes.mpr ⟨hc, hfree⟩))
  have hmoved : Moved h h' ((pre ++ c :: post).map Chunk.addr) c.addr 0
      (dlinklistDel h mm.freeList c.addr).2 xs ys := by
    rw [hh']
    exact moved_set_insFrt hS hxs hys hcx (mem_of_free hxfree) (mem_of_used hyused)
      (hg.disjoint hxfree hyused) (by decide)
  have hed := hmoved.edits
  have hsize : h'.get .allocMem c.addr = c.size := by
    rw [hmoved.allocMem _ hcS, hg.allocMem_eq c hc]
  have hused' : usedOnes (pre ++ { c with free := false } :: post) =
      usedOnes pre ++ { c with free := false } :: usedOnes post := by
    rw [usedOnes_append, usedOnes_cons_used rfl]
  have hfree' : freeOnes (pre ++ { c with free := false } :: post) =
      freeOnes pre ++ freeOnes post := by
    rw [freeOnes_append, freeOnes_cons_used rfl]
  have htiles : Tiles mm.start (pre ++ { c with free := false } :: post)
      (mm.start + mm.mempoolSize) := hg.tiles.relabel rfl rfl
  have hhigh := hg.high
  have hfits : c.size < memSizeT := by
    have hbounds := (hg.tiles.bounds hc).2
    unfold Chunk.stop at hbounds
    unfold memSizeT
    omega
  rw [hsize]
  have hholds : (mm.taken (MemoryPool.wholeChunk h mm.freeList c.addr).2 c.addr c.size).Holds h'
      (pre ++ { c with free := false } :: post) := by
    refine hg.toHolds.relabel rfl rfl (span_taken mm _ _ _) hmoved.allocMem hmoved.isFree
      ?_ ?_ ?_ ?_
    · rw [hfree', List.map_append]
      refine ⟨xs.erase c.addr, hmoved.left, perm_erase_middle ?_⟩
      rwa [freeOnes_append, freeOnes_cons_free hfree, List.map_append, List.map_cons] at hxfree
    · rw [hused', List.map_append, List.map_cons]
      refine ⟨c.addr :: ys, hmoved.joined, ?_⟩
      rw [usedOnes_append, usedOnes_cons_free hfree, List.map_append] at hyused
      exact (hyused.cons _).trans List.perm_middle.symm
    · have hsum := account_relabel (d := { c with free := false }) (fun n => n) pre post hfree rfl
      have hle := htiles.account_le (f := fun n => n) fun n => Nat.le_refl n
      rw [hsum] at hle
      dsimp only at hle
      show add mm.allocMem c.size = _
      rw [hg.allocMem, hsum]
      exact add_eq (by unfold memSizeT; omega)
    · have hsum := account_relabel (d := { c with free := false }) progSize pre post hfree rfl
      have hle := htiles.account_le progSize_le
      rw [hsum] at hle
      dsimp only at hle
      show add mm.allocProgMem (sub (sub c.size chunkHeader) chunkEnd) = _
      rw [prog_eq (Nat.le_of_lt hlarge) hfits, hg.allocProgMem, hsum]
      exact add_eq (by unfold memSizeT; omega)
  refine ⟨{ toHolds := hholds, ne_nil := by simp, footer := hg.footer_relabel rfl rfl hall hed,
            merged := ?_, large := Or.inl ?_ }, rfl, sameOutside_edits hg.toHolds hed⟩
  · intro d hd u hu hdu hboth
    obtain ⟨d₀, hd₀, -, -, rfl | rfl⟩ := exists_old c { c with free := false } rfl rfl hd
    · exact absurd hboth.1 Bool.false_ne_true
    · obtain ⟨u₀, hu₀, -, -, rfl | rfl⟩ := exists_old c { c with free := false } rfl rfl hu
      · exact absurd hboth.2 Bool.false_ne_true
      · exact hg.merged _ hd₀ _ hu₀ hdu hboth
  · intro d hd
    obtain ⟨d₀, hd₀, -, hdsize, -⟩ := exists_old c { c with free := false } rfl rfl hd
    rw [← hdsize]
    exact hall d₀ hd₀

/-! ## A chunk that is split -/

/-- The heap with the header and the footer of the remainder `y`. -/
def remainder (h : Heap) (x y total : Nat) : Heap :=
  let h := h.copyChunk y x
  let h := h.set .allocMem y (sub (h.get .allocMem y) total)
  h.setFooter (y + h.get .allocMem y) y

theorem splitChunk_eq (h : Heap) (head total x : Nat) :
    splitChunk h head total x =
      ((((relink (remainder h x (x + total) total) head (x + total)).1.set .isFree x 0).set
          .allocMem x total).setFooter (x + total) x,
        (relink (remainder h x (x + total) total) head (x + total)).2) := rfl

/-- The bytes of a footer are in no header at `S`. -/
def FooterApart (S : List Nat) (e : Nat) : Prop :=
  chunkEnd ≤ e ∧ ∀ x ∈ S, x + chunkHeader ≤ e - chunkEnd ∨ e ≤ x

/-- The chunk at `x` can be split at `y`: there is room for a header, and
the footers are to be written at `y` and `e`. -/
structure Splits (h : Heap) (S : List Nat) (x y e : Nat) : Prop where
  headers : Headers S
  mem : y ∈ S
  linked : Linked h S x
  prev_ne : h.get .prev x ≠ y
  next_ne : h.get .next x ≠ y
  ne : x ≠ y
  front : FooterApart S y
  back : FooterApart S e

section Split

variable {x y : Nat} {f g : Field} (hsp : Splits h S x y e) (hn : h.get .allocMem x = n)
  (htotal : total ≤ n) (hstop : y + (n - total) = e)
include hsp hn htotal hstop

theorem remainder_eq : remainder h x y total =
    ((h.copyChunk y x).set .allocMem y (n - total)).setFooter e y := by
  have hlt : n < memSizeT := hn ▸ get_lt h x (by decide)
  have hcopy : (h.copyChunk y x).get .allocMem y = n := by
    rw [get_copyChunk hsp.headers hsp.mem x hsp.mem, if_pos rfl, hn]
  have hsub : sub n total = n - total := sub_eq htotal hlt
  unfold remainder
  dsimp only
  rw [hcopy, hsub, get_set_self (f := .allocMem) (Nat.lt_of_le_of_lt (Nat.sub_le _ _) hlt), hstop]

theorem get_remainder {u : Nat} (hu : u ∈ S) : (remainder h x y total).get g u =
    if u = y then (if g = .allocMem then n - total else h.get g x) else h.get g u := by
  have hlt : n < memSizeT := hn ▸ get_lt h x (by decide)
  rw [remainder_eq hsp hn htotal hstop, get_setFooter (hsp.back.2 u hu) hsp.back.1,
    hsp.headers.get_set .allocMem hsp.mem hu (Nat.lt_of_le_of_lt (Nat.sub_le _ _) hlt),
    get_copyChunk hsp.headers hsp.mem x hu]
  by_cases huy : u = y
  · subst huy
    simp
  · simp [huy]

/-- The links of the remainder are those of the chunk. -/
theorem get_remainder_self (hg : g ≠ .allocMem) :
    (remainder h x y total).get g y = h.get g x := by
  rw [get_remainder hsp hn htotal hstop hsp.mem, if_pos rfl, if_neg hg]

theorem linked_remainder : Linked (remainder h x y total) S y := by
  refine ⟨hsp.mem, ?_, ?_, ?_, ?_⟩
  · rw [get_remainder_self hsp hn htotal hstop (by decide)]
    exact hsp.linked.prev
  · rw [get_remainder_self hsp hn htotal hstop (by decide)]
    exact hsp.linked.next
  · rw [get_remainder_self hsp hn htotal hstop (by decide)]
    exact hsp.prev_ne
  · rw [get_remainder_self hsp hn htotal hstop (by decide)]
    exact hsp.next_ne

/-- What the headers are after the split. -/
theorem get_splitChunk (hyx : x + total = y) (head : Nat) {u : Nat} (hu : u ∈ S) :
    (splitChunk h head total x).1.get g u =
      if u = x then (if g = .allocMem then total else if g = .isFree then 0 else h.get g x)
      else if u = y then (if g = .allocMem then n - total else h.get g x)
      else if g = .next ∧ u = h.get .prev x then y
      else if g = .prev ∧ u = h.get .next x then y else h.get g u := by
  have hlt : n < memSizeT := hn ▸ get_lt h x (by decide)
  have hlink := linked_remainder hsp hn htotal hstop
  have hl := hsp.linked
  have hfits : total < 256 ^ Field.allocMem.width := Nat.lt_of_le_of_lt htotal hlt
  rw [splitChunk_eq, hyx]
  dsimp only
  rw [get_setFooter (hsp.front.2 u hu) hsp.front.1, hsp.headers.get_set .allocMem hl.mem hu hfits,
    hsp.headers.get_set .isFree hl.mem hu (by decide), get_relink hsp.headers hlink hu,
    get_remainder_self hsp hn htotal hstop (by decide),
    get_remainder_self hsp hn htotal hstop (by decide), get_remainder hsp hn htotal hstop hu]
  by_cases hux : u = x
  · subst hux
    cases g <;> simp [hsp.ne, Ne.symm hl.prev_ne, Ne.symm hl.next_ne]
  · by_cases huy : u = y
    · subst huy
      cases g <;> simp [hux, Ne.symm hsp.prev_ne, Ne.symm hsp.next_ne]
    · simp [hux, huy]

/-- The list has the remainder in the place of the chunk. -/
theorem head_splitChunk (hyx : x + total = y) (head : Nat) :
    (splitChunk h head total x).2 = if h.get .prev x = 0 then y else head := by
  rw [splitChunk_eq, hyx, relink_eq hsp.headers (linked_remainder hsp hn htotal hstop),
    get_remainder_self hsp hn htotal hstop (by decide)]

/-- The footers after the header and the footer of the remainder. -/
theorem footer_remainder (hb : FooterApart S b)
    (hbe : b ≠ e → b + chunkEnd ≤ e ∨ e + chunkEnd ≤ b) :
    (remainder h x y total).footer b = if b = e then y else h.footer b := by
  have hed : Edits S h ((h.copyChunk y x).set .allocMem y (n - total)) :=
    (edits_copyChunk hsp.mem).set .allocMem _ hsp.mem
  rw [remainder_eq hsp hn htotal hstop]
  by_cases heq : b = e
  · rw [if_pos heq, heq]
    exact footer_setFooter (hsp.headers.lt y hsp.mem)
  · rw [if_neg heq, footer_setFooter_of_apart hsp.back.1 hb.1 (hbe heq).symm,
      hed.footer hb.1 hb.2]

theorem edits_splitChunk (head : Nat) : Edits S (remainder h x y total)
    (((relink (remainder h x y total) head y).1.set .isFree x 0).set .allocMem x total) :=
  ((edits_relink hsp.headers (linked_remainder hsp hn htotal hstop)).set .isFree 0
    hsp.linked.mem).set .allocMem total hsp.linked.mem

theorem footer_splitChunk (hyx : x + total = y) (head : Nat) (hb : FooterApart S b)
    (hbe : b ≠ e → b + chunkEnd ≤ e ∨ e + chunkEnd ≤ b)
    (hby : b ≠ y → b + chunkEnd ≤ y ∨ y + chunkEnd ≤ b) :
    (splitChunk h head total x).1.footer b =
      if b = y then x else if b = e then y else h.footer b := by
  have hed := edits_splitChunk hsp hn htotal hstop head
  rw [splitChunk_eq, hyx]
  dsimp only
  by_cases heq : b = y
  · rw [if_pos heq, heq]
    exact footer_setFooter (hsp.headers.lt x hsp.linked.mem)
  · rw [if_neg heq, footer_setFooter_of_apart hsp.front.1 hb.1 (hby heq).symm,
      hed.footer hb.1 hb.2, footer_remainder hsp hn htotal hstop hb hbe]

/-- Nothing is written outside the stretch that the headers and the footers
lie in. -/
theorem sameOutside_splitChunk (hyx : x + total = y) (head : Nat)
    (hin : ∀ u ∈ S, a ≤ u ∧ u + chunkHeader ≤ a + m) (hlo : a + chunkEnd ≤ y) (hye : y ≤ e)
    (hhi : e ≤ a + m) : SameOutside a m h (splitChunk h head total x).1 := by
  have hed := edits_splitChunk hsp hn htotal hstop head
  have hcopy : Edits S h ((h.copyChunk y x).set .allocMem y (n - total)) :=
    (edits_copyChunk hsp.mem).set .allocMem _ hsp.mem
  have hrem : SameOutside a m h (remainder h x y total) := by
    rw [remainder_eq hsp hn htotal hstop]
    exact (hcopy.sameOutside hin).setFooter (by omega) hhi
  rw [splitChunk_eq, hyx]
  exact (hrem.trans (hed.sameOutside hin)).setFooter hlo (by omega)

end Split

/-- The chunks after the split of `c`. -/
def cut (pre post : List Chunk) (c : Chunk) (total : Nat) : List Chunk :=
  pre ++ ⟨c.addr, total, false⟩ :: ⟨c.addr + total, c.size - total, true⟩ :: post

theorem mem_cut : d ∈ cut pre post c total ↔
    d = ⟨c.addr, total, false⟩ ∨ d = ⟨c.addr + total, c.size - total, true⟩ ∨
      d ∈ pre ++ post := by
  rw [cut, List.mem_append, List.mem_append, List.mem_cons, List.mem_cons]
  tauto

theorem mem_cut_addr (total : Nat) {z : Nat} (hz : z ∈ (pre ++ c :: post).map Chunk.addr) :
    z ∈ (cut pre post c total).map Chunk.addr := by
  obtain ⟨d, hd, rfl⟩ := List.mem_map.mp hz
  rcases mem_middle.mp hd with rfl | hd
  · exact List.mem_map.mpr ⟨_, mem_cut.mpr (Or.inl rfl), rfl⟩
  · exact List.mem_map_of_mem (mem_cut.mpr (Or.inr (Or.inr hd)))

theorem usedOnes_cut : usedOnes (cut pre post c total) =
    usedOnes pre ++ ⟨c.addr, total, false⟩ :: usedOnes post := by
  rw [cut, usedOnes_append, usedOnes_cons_used rfl, usedOnes_cons_free rfl]

theorem freeOnes_cut : freeOnes (cut pre post c total) =
    freeOnes pre ++ ⟨c.addr + total, c.size - total, true⟩ :: freeOnes post := by
  rw [cut, freeOnes_append, freeOnes_cons_used rfl, freeOnes_cons_free rfl]

theorem cut_tiles (ht : Tiles a (pre ++ c :: post) e) (hle : total ≤ c.size) :
    Tiles a (cut pre post c total) e := ht.split hle false true

section Cut

variable (hg : mm.Good h (pre ++ c :: post)) (hfree : c.free = true)
  (htotal : chunkHeader + chunkEnd < total) (hrest : total + (chunkHeader + chunkEnd) < c.size)
include hg htotal hrest

theorem cut_large : ∀ d ∈ cut pre post c total, chunkHeader + chunkEnd < d.size := by
  have hc : c ∈ pre ++ c :: post := mem_middle.mpr (Or.inl rfl)
  have hall := hg.all_large hc fun _ => by omega
  intro d hd
  rcases mem_cut.mp hd with rfl | rfl | hd
  · exact htotal
  · dsimp only
    omega
  · exact hall d (mem_middle.mpr (Or.inr hd))

theorem cut_size : ∀ d ∈ cut pre post c total, chunkHeader ≤ d.size := fun d hd => by
  have hlarge := cut_large hg htotal hrest d hd
  omega

theorem cut_sized : ∀ d ∈ cut pre post c total, 0 < d.size := fun d hd =>
  Nat.lt_of_lt_of_le (by decide) (cut_size hg htotal hrest d hd)

theorem cut_headers : Headers ((cut pre post c total).map Chunk.addr) :=
  headers_of_tiles (cut_tiles hg.tiles (by omega)) (cut_size hg htotal hrest) hg.low hg.high

/-- The remainder has an address of its own. -/
theorem back_notMem : c.addr + total ∉ (pre ++ c :: post).map Chunk.addr := by
  intro hmem
  have hnodup := (cut_tiles hg.tiles (by omega)).nodup_addr (cut_sized hg htotal hrest)
  have hperm : ((cut pre post c total).map Chunk.addr).Perm
      ((c.addr + total) :: (pre ++ c :: post).map Chunk.addr) := by
    have hswap : (cut pre post c total).Perm
        (⟨c.addr + total, c.size - total, true⟩ :: (pre ++ ⟨c.addr, total, false⟩ :: post)) := by
      refine List.Perm.trans ?_ List.perm_middle
      exact List.Perm.append_left pre (List.Perm.swap _ _ post)
    have hsame : (pre ++ ⟨c.addr, total, false⟩ :: post).map Chunk.addr =
        (pre ++ c :: post).map Chunk.addr := map_addr_relabel rfl
    have hmap := hswap.map Chunk.addr
    rwa [List.map_cons, hsame] at hmap
  exact (List.nodup_cons.mp (hperm.nodup_iff.mp hnodup)).1 hmem

/-- The footers of the chunks lie apart from the headers, and from each
other. -/
theorem footerApart_cut (hd : d ∈ cut pre post c total) :
    FooterApart ((cut pre post c total).map Chunk.addr) d.stop :=
  ⟨stop_ge (cut_size hg htotal hrest d hd),
    footer_apart (cut_tiles hg.tiles (by omega)) (cut_size hg htotal hrest) hd
      (Nat.le_of_lt (cut_large hg htotal hrest d hd))⟩

theorem splits_cut (hfree : c.free = true) (hxs : h.Lists mm.freeList xs)
    (hxfree : xs.Perm ((freeOnes (pre ++ c :: post)).map Chunk.addr)) :
    Splits h ((cut pre post c total).map Chunk.addr) c.addr (c.addr + total) c.stop := by
  have hc : c ∈ pre ++ c :: post := mem_middle.mpr (Or.inl rfl)
  have hcx : c.addr ∈ xs := hxfree.mem_iff.mpr (List.mem_map_of_mem (mem_freeOnes.mpr ⟨hc, hfree⟩))
  have hfront : (⟨c.addr, total, false⟩ : Chunk) ∈ cut pre post c total :=
    mem_cut.mpr (Or.inl rfl)
  have hback : (⟨c.addr + total, c.size - total, true⟩ : Chunk) ∈ cut pre post c total :=
    mem_cut.mpr (Or.inr (Or.inl rfl))
  have hnot : c.addr + total ∉ 0 :: xs := by
    intro hmem
    rcases List.mem_cons.mp hmem with hzero | hmem
    · omega
    · exact back_notMem hg htotal hrest (mem_of_free hxfree _ hmem)
  refine {
    headers := cut_headers hg htotal hrest
    mem := List.mem_map.mpr ⟨_, hback, rfl⟩
    linked := linked_of_listed hxs hcx fun y hy => mem_cut_addr total (mem_of_free hxfree y hy)
    prev_ne := fun heq => hnot (heq ▸ hxs.prev_mem hcx)
    next_ne := fun heq => hnot (heq ▸ hxs.next_mem hcx)
    ne := by omega
    front := footerApart_cut hg htotal hrest hfront
    back := ?_ }
  have hstop : (⟨c.addr + total, c.size - total, true⟩ : Chunk).stop = c.stop := by
    unfold Chunk.stop
    dsimp only
    omega
  exact hstop ▸ footerApart_cut hg htotal hrest hback

/-- What the split of the chunk starts from. -/
theorem splits_start (hfree : c.free = true) :
    Splits h ((cut pre post c total).map Chunk.addr) c.addr (c.addr + total) c.stop ∧
      c.addr + total + (c.size - total) = c.stop ∧
      (mm.allocList = 0 ∨ mm.allocList ∈ (cut pre post c total).map Chunk.addr) := by
  obtain ⟨xs, hxs, hxfree⟩ := hg.free
  obtain ⟨ys, hys, hyused⟩ := hg.used
  refine ⟨splits_cut hg htotal hrest hfree hxs hxfree, ?_,
    hys.head_mem fun z hz => mem_cut_addr total (mem_of_used hyused z hz)⟩
  unfold Chunk.stop
  omega

end Cut

/-- One entry of a list gets another name. -/
theorem map_replace {A B : List Nat} {x y : Nat} (hnodup : (A ++ x :: B).Nodup) :
    (A ++ x :: B).map (fun z => if z = x then y else z) = A ++ y :: B := by
  have hother : ∀ l : List Nat, x ∉ l → l.map (fun z => if z = x then y else z) = l := by
    intro l hx
    refine (List.map_congr_left fun z hz => ?_).trans (List.map_id' l)
    have hzx : z ≠ x := fun heq => hx (heq ▸ hz)
    exact if_neg hzx
  have hx := (List.nodup_cons.mp (List.nodup_middle.mp hnodup)).1
  rw [List.map_append, List.map_cons, if_pos rfl,
    hother A fun hmem => hx (List.mem_append_left _ hmem),
    hother B fun hmem => hx (List.mem_append_right _ hmem)]

section Lists

variable {x y : Nat} {ys : List Nat} (hsp : Splits h S x y e) (hn : h.get .allocMem x = n)
  (htotal : total ≤ n) (hstop : y + (n - total) = e) (hyx : x + total = y)
  (hxs : h.Lists mm.freeList xs) (hx : x ∈ xs)
include hsp hn htotal hstop hyx hxs hx

theorem lists_splitChunk (hxS : ∀ z ∈ xs, z ∈ S) (hy : y ∉ xs) :
    (splitChunk h mm.freeList total x).1.Lists (splitChunk h mm.freeList total x).2
      (xs.map fun z => if z = x then y else z) := by
  have hget : ∀ g, ∀ u ∈ S, _ := fun g u hu =>
    get_splitChunk (g := g) hsp hn htotal hstop hyx mm.freeList hu
  have hy0 := hsp.headers.ne_zero y hsp.mem
  have hmem : y ∉ 0 :: xs := fun h => (List.mem_cons.mp h).elim hy0 hy
  have hout : ∀ z ∈ xs, z ≠ y := fun z hz heq => hy (heq ▸ hz)
  refine hxs.replace hx hmem (head_splitChunk hsp hn htotal hstop hyx _) ?_ ?_
    (fun z hz hzx => ?_) fun z hz hzx => ?_
  · rw [hget _ y hsp.mem, if_neg hsp.ne.symm, if_pos rfl, if_neg (by decide)]
  · rw [hget _ y hsp.mem, if_neg hsp.ne.symm, if_pos rfl, if_neg (by decide)]
  · rw [hget _ z (hxS z hz), if_neg hzx, if_neg (hout z hz)]
    simp
  · rw [hget _ z (hxS z hz), if_neg hzx, if_neg (hout z hz)]
    simp

theorem lists_splitChunk_other (hys : h.Lists a ys) (hyS : ∀ z ∈ ys, z ∈ S)
    (hdisj : ∀ z ∈ ys, z ∉ xs) (hy : y ∉ ys) :
    (splitChunk h mm.freeList total x).1.Lists a ys := by
  have hget : ∀ g, ∀ u ∈ S, _ := fun g u hu =>
    get_splitChunk (g := g) hsp hn htotal hstop hyx mm.freeList hu
  have hzx : ∀ z ∈ ys, z ≠ x := fun z hz heq => hdisj z hz (heq ▸ hx)
  have hzy : ∀ z ∈ ys, z ≠ y := fun z hz heq => hy (heq ▸ hz)
  have hout : ∀ z ∈ ys, ∀ w ∈ 0 :: xs, z ≠ w := by
    rintro z hz w hw rfl
    exact (List.mem_cons.mp hw).elim (hys.ne_zero hz) (hdisj z hz)
  refine hys.congr (fun z hz => ?_) fun z hz => ?_
  · rw [hget _ z (hyS z hz), if_neg (hzx z hz), if_neg (hzy z hz)]
    simp [hout z hz _ (hxs.prev_mem hx)]
  · rw [hget _ z (hyS z hz), if_neg (hzx z hz), if_neg (hzy z hz)]
    simp [hout z hz _ (hxs.next_mem hx)]

end Lists

/-- The lists after the split: the remainder is free, the front is in use. -/
theorem Memory.Good.lists_cut (hg : mm.Good h (pre ++ c :: post)) (hfree : c.free = true)
    (htotal : chunkHeader + chunkEnd < total) (hrest : total + (chunkHeader + chunkEnd) < c.size)
    (hh' : h' = dlinklistInsFrt (MemoryPool.splitChunk h mm.freeList total c.addr).1 mm.allocList
      c.addr) :
    (∃ xs, h'.Lists (MemoryPool.splitChunk h mm.freeList total c.addr).2 xs ∧
        xs.Perm ((freeOnes (cut pre post c total)).map Chunk.addr)) ∧
      ∃ ys, h'.Lists c.addr ys ∧ ys.Perm ((usedOnes (cut pre post c total)).map Chunk.addr) := by
  have hc : c ∈ pre ++ c :: post := mem_middle.mpr (Or.inl rfl)
  obtain ⟨xs, hxs, hxfree⟩ := hg.free
  obtain ⟨ys, hys, hyused⟩ := hg.used
  have hcx : c.addr ∈ xs := hxfree.mem_iff.mpr (List.mem_map_of_mem (mem_freeOnes.mpr ⟨hc, hfree⟩))
  have hdisj := hg.disjoint hxfree hyused
  have hcy : c.addr ∉ ys := fun hmem => hdisj _ hmem hcx
  have hback := back_notMem hg htotal hrest
  have hbx : c.addr + total ∉ xs := fun hmem => hback (mem_of_free hxfree _ hmem)
  have hby : c.addr + total ∉ ys := fun hmem => hback (mem_of_used hyused _ hmem)
  have hxS : ∀ z ∈ xs, z ∈ (cut pre post c total).map Chunk.addr := fun z hz =>
    mem_cut_addr total (mem_of_free hxfree z hz)
  have hyS : ∀ z ∈ ys, z ∈ (cut pre post c total).map Chunk.addr := fun z hz =>
    mem_cut_addr total (mem_of_used hyused z hz)
  have hsp := splits_cut hg htotal hrest hfree hxs hxfree
  have hn := hg.allocMem_eq c hc
  have hle : total ≤ c.size := by omega
  have hstop : c.addr + total + (c.size - total) = c.stop := by
    unfold Chunk.stop
    omega
  have hxs1 := lists_splitChunk hsp hn hle hstop rfl hxs hcx hxS hbx
  have hys1 := lists_splitChunk_other hsp hn hle hstop rfl hxs hcx hys hyS hdisj hby
  -- the names of the free chunks
  rw [freeOnes_append, freeOnes_cons_free hfree, List.map_append, List.map_cons] at hxfree
  have hnodup := hxfree.nodup_iff.mp hxs.nodup_xs
  have hnew : (xs.map fun z => if z = c.addr then c.addr + total else z).Perm
      ((freeOnes (cut pre post c total)).map Chunk.addr) := by
    rw [freeOnes_cut, List.map_append, List.map_cons, ← map_replace hnodup]
    exact hxfree.map _
  have hxS1 : ∀ z ∈ xs.map (fun z => if z = c.addr then c.addr + total else z),
      z ∈ (cut pre post c total).map Chunk.addr := mem_of_free hnew
  have hother : ∀ z ∈ xs.map (fun z => if z = c.addr then c.addr + total else z),
      z ∉ c.addr :: ys := by
    intro z hz hmem
    obtain ⟨w, hw, rfl⟩ := List.mem_map.mp hz
    by_cases hwc : w = c.addr
    · rw [if_pos hwc] at hmem
      exact (List.mem_cons.mp hmem).elim hsp.ne.symm hby
    · rw [if_neg hwc] at hmem
      exact (List.mem_cons.mp hmem).elim hwc fun hwy => hdisj w hwy hw
  have hys2 := lists_insFrt hsp.headers hys1 hsp.linked.mem hcy hyS
  have hxs2 := lists_insFrt_other hsp.headers hys1 hsp.linked.mem hyS hxs1 hxS1
    (fun z hz hmem => hother z hz (List.mem_cons_of_mem _ hmem))
    (fun hmem => hother _ hmem List.mem_cons_self)
  rw [hh']
  refine ⟨⟨_, hxs2, hnew⟩, _, hys2, ?_⟩
  rw [usedOnes_append, usedOnes_cons_free hfree, List.map_append] at hyused
  rw [usedOnes_cut, List.map_append, List.map_cons]
  exact (hyused.cons _).trans List.perm_middle.symm

section Cut

variable (hg : mm.Good h (pre ++ c :: post)) (hfree : c.free = true)
  (htotal : chunkHeader + chunkEnd < total) (hrest : total + (chunkHeader + chunkEnd) < c.size)
  (hh' : h' = dlinklistInsFrt (splitChunk h mm.freeList total c.addr).1 mm.allocList c.addr)
include hg hfree htotal hrest hh'

/-- The headers describe the two parts, and the other chunks as before. -/
theorem get_cut {g : Field} (hnext : g ≠ .next) (hprev : g ≠ .prev) {u : Nat}
    (hu : u ∈ (cut pre post c total).map Chunk.addr) : h'.get g u =
      if u = c.addr then (if g = .allocMem then total else if g = .isFree then 0 else h.get g u)
      else if u = c.addr + total then
        (if g = .allocMem then c.size - total else h.get g c.addr)
      else h.get g u := by
  have hc : c ∈ pre ++ c :: post := mem_middle.mpr (Or.inl rfl)
  obtain ⟨hsp, hstop, hhead⟩ := splits_start hg htotal hrest hfree
  rw [hh', get_insFrt_of_ne hsp.headers hsp.linked.mem hhead hu hnext hprev,
    get_splitChunk hsp (hg.allocMem_eq c hc) (by omega) hstop rfl _ hu]
  by_cases huc : u = c.addr
  · simp [huc]
  · simp [huc, hnext, hprev]

theorem sameOutside_cut : SameOutside mm.start mm.mempoolSize h h' := by
  have hc : c ∈ pre ++ c :: post := mem_middle.mpr (Or.inl rfl)
  obtain ⟨hsp, hstop, hhead⟩ := splits_start hg htotal hrest hfree
  have hin := inside_of_tiles (cut_tiles hg.tiles (by omega)) (cut_size hg htotal hrest)
  have hbounds := hg.tiles.bounds hc
  rw [hh']
  refine SameOutside.trans ?_ ((edits_insFrt hsp.linked.mem hhead).sameOutside hin)
  have hlow := hbounds.1
  refine sameOutside_splitChunk hsp (hg.allocMem_eq c hc) (by omega) hstop rfl _ hin ?_ ?_
    hbounds.2
  · omega
  · omega

/-- The footers lead back to the parts, and to the other chunks as before. -/
theorem footer_cut (hd : d ∈ cut pre post c total) : h'.footer d.stop =
    if d.stop = c.addr + total then c.addr
    else if d.stop = c.stop then c.addr + total else h.footer d.stop := by
  have hc : c ∈ pre ++ c :: post := mem_middle.mpr (Or.inl rfl)
  obtain ⟨hsp, hstop, hhead⟩ := splits_start hg htotal hrest hfree
  have hb := footerApart_cut hg htotal hrest hd
  have hed := edits_insFrt (h := (splitChunk h mm.freeList total c.addr).1) hsp.linked.mem hhead
  -- two chunks do not stop next to each other
  have hapart : ∀ u ∈ cut pre post c total, d.stop ≠ u.stop →
      d.stop + chunkEnd ≤ u.stop ∨ u.stop + chunkEnd ≤ d.stop := by
    intro u hu hne
    have hdu : d ≠ u := fun heq => hne (congrArg Chunk.stop heq)
    have hpair := (cut_tiles hg.tiles (by omega)).apart hd hu hdu
    have hdlarge := cut_large hg htotal hrest d hd
    have hularge := cut_large hg htotal hrest u hu
    unfold Chunk.stop at hpair ⊢
    omega
  have hback : (⟨c.addr + total, c.size - total, true⟩ : Chunk).stop = c.stop := hstop
  rw [hh', hed.footer hb.1 hb.2]
  refine footer_splitChunk hsp (hg.allocMem_eq c hc) (by omega) hstop rfl _ hb (fun hne => ?_)
    fun hne => ?_
  · rw [← hback] at hne ⊢
    exact hapart _ (mem_cut.mpr (Or.inr (Or.inl rfl))) hne
  · exact hapart ⟨c.addr, total, false⟩ (mem_cut.mpr (Or.inl rfl)) hne

theorem holds_cut : (mm.taken (splitChunk h mm.freeList total c.addr).2 c.addr total).Holds h'
    (cut pre post c total) := by
  have hc : c ∈ pre ++ c :: post := mem_middle.mpr (Or.inl rfl)
  have hhigh := hg.high
  obtain ⟨hfreeList, hallocList⟩ := hg.lists_cut hfree htotal hrest hh'
  have htiles : Tiles mm.start (cut pre post c total) (mm.start + mm.mempoolSize) :=
    cut_tiles hg.tiles (by omega)
  have hsum : ∀ f : Nat → Nat, account f (cut pre post c total) =
      account f (pre ++ c :: post) + f total := by
    intro f
    rw [cut, account_append, account_append, account_cons_used rfl, account_cons_free rfl,
      account_cons_free hfree]
    dsimp only
    omega
  have hold : ∀ d ∈ pre ++ post, d.addr ≠ c.addr ∧ d.addr ≠ c.addr + total := by
    intro d hd
    refine ⟨addr_ne_of_mem hg.tiles hg.sized hd, fun heq => ?_⟩
    exact back_notMem hg htotal hrest
      (heq ▸ List.mem_map_of_mem (mem_middle.mpr (Or.inr hd)))
  refine ⟨htiles, hg.low, hg.high, cut_size hg htotal hrest, ?_, ?_, hfreeList, hallocList, ?_, ?_⟩
  · intro d hd
    rw [get_cut hg hfree htotal hrest hh' (by decide) (by decide) (List.mem_map_of_mem hd)]
    rcases mem_cut.mp hd with rfl | rfl | hd
    · simp
    · rw [if_neg (by dsimp only; omega)]
      simp
    · rw [if_neg (hold d hd).1, if_neg (hold d hd).2]
      exact hg.allocMem_eq d (mem_middle.mpr (Or.inr hd))
  · intro d hd
    rw [get_cut hg hfree htotal hrest hh' (by decide) (by decide) (List.mem_map_of_mem hd)]
    rcases mem_cut.mp hd with rfl | rfl | hd
    · simp [isFreeFlag]
    · rw [if_neg (by dsimp only; omega), if_pos rfl, if_neg (by decide), hg.isFree_eq c hc]
      simp [isFreeFlag, hfree]
    · rw [if_neg (hold d hd).1, if_neg (hold d hd).2]
      exact hg.isFree_eq d (mem_middle.mpr (Or.inr hd))
  · have hle := htiles.account_le (f := fun n => n) fun n => Nat.le_refl n
    rw [hsum] at hle
    show add mm.allocMem total = _
    rw [hg.allocMem, hsum]
    exact add_eq (by unfold memSizeT; omega)
  · have hle := htiles.account_le progSize_le
    have hbounds := (hg.tiles.bounds hc).2
    rw [hsum] at hle
    unfold Chunk.stop at hbounds
    show add mm.allocProgMem (sub (sub total chunkHeader) chunkEnd) = _
    rw [prog_eq (Nat.le_of_lt htotal) (by unfold memSizeT; omega), hg.allocProgMem, hsum]
    exact add_eq (by unfold memSizeT; omega)

theorem Memory.Good.splitChunk :
    (mm.taken (MemoryPool.splitChunk h mm.freeList total c.addr).2 c.addr
        (h'.get .allocMem c.addr)).Good h' (cut pre post c total) ∧
      h'.get .allocMem c.addr = total ∧ SameOutside mm.start mm.mempoolSize h h' := by
  have hc : c ∈ pre ++ c :: post := mem_middle.mpr (Or.inl rfl)
  have hholds := holds_cut hg hfree htotal hrest hh'
  have hfront : (⟨c.addr, total, false⟩ : Chunk) ∈ cut pre post c total := mem_cut.mpr (Or.inl rfl)
  have hsized := cut_sized hg htotal hrest
  have htiles : Tiles mm.start (cut pre post c total) (mm.start + mm.mempoolSize) :=
    cut_tiles hg.tiles (by omega)
  have hsize : h'.get .allocMem c.addr = total := hholds.allocMem_eq _ hfront
  have hold : ∀ d ∈ pre ++ post, d.stop ≠ c.addr + total ∧ d.stop ≠ c.stop := by
    intro d hd
    have hmem : d ∈ pre ++ c :: post := mem_middle.mpr (Or.inr hd)
    have hdc : d ≠ c := fun heq => addr_ne_of_mem hg.tiles hg.sized hd (congrArg Chunk.addr heq)
    have hapart := hg.tiles.apart hmem hc hdc
    have hpos := hg.sized d hmem
    unfold Chunk.stop at hapart ⊢
    omega
  rw [hsize]
  refine ⟨{ toHolds := hholds, ne_nil := by simp [cut], footer := ?_, merged := ?_,
            large := Or.inl (cut_large hg htotal hrest) }, rfl,
    sameOutside_cut hg hfree htotal hrest hh'⟩
  · intro d hd u hu hdu
    rw [← hdu, footer_cut hg hfree htotal hrest hh' hd]
    rcases mem_cut.mp hd with rfl | rfl | hd'
    · exact if_pos rfl
    · have hstop : (⟨c.addr + total, c.size - total, true⟩ : Chunk).stop = c.stop := by
        unfold Chunk.stop
        dsimp only
        omega
      rw [hstop, if_neg (by unfold Chunk.stop; omega), if_pos rfl]
    · rw [if_neg (hold d hd').1, if_neg (hold d hd').2]
      -- the chunk behind, or the one that has been split, is where it was
      have hmem : d ∈ pre ++ c :: post := mem_middle.mpr (Or.inr hd')
      rcases mem_cut.mp hu with rfl | rfl | hu'
      · exact hdu ▸ hg.footer d hmem c hc hdu
      · exact absurd hdu (hold d hd').1
      · exact hdu ▸ hg.footer d hmem u (mem_middle.mpr (Or.inr hu')) hdu
  · intro d hd u hu hdu hboth
    rcases mem_cut.mp hd with rfl | rfl | hd'
    · exact Bool.false_ne_true hboth.1
    · have hstop : c.stop = u.addr := by
        rw [← hdu]
        unfold Chunk.stop
        dsimp only
        omega
      rcases mem_cut.mp hu with rfl | rfl | hu'
      · exact Bool.false_ne_true hboth.2
      · unfold Chunk.stop at hdu
        dsimp only at hdu
        omega
      · exact hg.merged c hc u (mem_middle.mpr (Or.inr hu')) hstop ⟨hfree, hboth.2⟩
    · have hmem : d ∈ pre ++ c :: post := mem_middle.mpr (Or.inr hd')
      rcases mem_cut.mp hu with rfl | rfl | hu'
      · exact Bool.false_ne_true hboth.2
      · exact (hold d hd').1 hdu
      · exact hg.merged d hmem u (mem_middle.mpr (Or.inr hu')) hdu hboth

end Cut

/-! ## A chunk is taken -/

/-- A free chunk of at least `total` bytes is in use, with what is left of
it if that is little. -/
theorem Memory.Good.takeChunk (hg : mm.Good h cs) (hc : c ∈ cs) (hfree : c.free = true)
    (htotal : chunkHeader + chunkEnd < total) (hle : total ≤ c.size) :
    ∃ cs' n, (MemoryPool.takeChunk h mm total c.addr).2.Good
        (MemoryPool.takeChunk h mm total c.addr).1 cs' ∧ total ≤ n ∧
      (usedOnes cs').Perm (⟨c.addr, n, false⟩ :: usedOnes cs) ∧
      SameOutside mm.start mm.mempoolSize h (MemoryPool.takeChunk h mm total c.addr).1 := by
  obtain ⟨pre, post, rfl⟩ := List.append_of_mem hc
  have hused : usedOnes (pre ++ c :: post) = usedOnes pre ++ usedOnes post := by
    rw [usedOnes_append, usedOnes_cons_free hfree]
  unfold MemoryPool.takeChunk
  rw [hg.allocMem_eq c hc, hused]
  by_cases hrest : c.size - total > chunkHeader + chunkEnd
  · rw [if_pos hrest]
    obtain ⟨hgood, -, hsame⟩ := hg.splitChunk hfree htotal (by omega) rfl
    refine ⟨_, total, hgood, Nat.le_refl total, ?_, hsame⟩
    rw [usedOnes_cut]
    exact List.perm_middle
  · rw [if_neg hrest]
    obtain ⟨hgood, -, hsame⟩ := hg.wholeChunk hfree (by omega) rfl
    refine ⟨_, c.size, hgood, hle, ?_, hsame⟩
    rw [usedOnes_append, usedOnes_cons_used rfl]
    exact List.perm_middle

end Training.MemoryPool
