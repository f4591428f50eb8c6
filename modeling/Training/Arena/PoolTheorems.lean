/-
Training.Arena.PoolTheorems — where the small blocks lie.

The memory of a node is its span, from the header to `end`. `Pool.Inv`
says that the spans are apart and that every block lies between the
header and `last` of one node, so a block that is taken behind `last`
meets no other. The code keeps this up as long as the aligned block still
fits, and the word a new node finds at `last` happens to be an end for its
block (`Pool.Fits`).
-/
import Training.Arena.Pool
import Training.Lib.Machine

namespace Training.Arena

open Training.Lib

variable {pool : Pool}

/-! ## Nodes and their spans -/

/-- A node without its counter. -/
structure Span where
  addr : Nat
  last : Nat
  end_ : Nat

def Node.span (h : Node) : Span := ⟨h.addr, h.last, h.end_⟩

def Pool.spans (pool : Pool) : List Span := pool.nodes.map Node.span

def Span.Apart (s t : Span) : Prop := s.end_ ≤ t.addr ∨ t.end_ ≤ s.addr

/-- A span of a pool with blocks of up to `max` bytes. -/
structure Span.Ok (max : Nat) (s : Span) : Prop where
  size : s.end_ = s.addr + nodeSize + max
  header : s.addr + nodeSize ≤ s.last
  last : s.last ≤ s.end_
  bounded : s.end_ ≤ 9223372036854775808

/-- The block lies between the header and `last`. -/
def Span.Holds (s : Span) (b : Block) : Prop :=
  s.addr + nodeSize ≤ b.addr ∧ b.addr + b.size ≤ s.last

def Block.Apart (b c : Block) : Prop := b.addr + b.size ≤ c.addr ∨ c.addr + c.size ≤ b.addr

structure Pool.Inv (pool : Pool) : Prop where
  ok : ∀ s ∈ pool.spans, s.Ok pool.max
  apart : pool.spans.Pairwise Span.Apart
  current : pool.current < pool.nodes.length
  tail : pool.tail = 0
  sound : pool.faulted = false
  blocks : ∀ b ∈ pool.blocks, mpAlignment ∣ b.addr ∧ ∃ s ∈ pool.spans, s.Holds b
  disjoint : pool.blocks.Pairwise Block.Apart

theorem countFailures_spans (current i : Nat) (nodes : List Node) :
    (countFailures current i nodes).2.map Node.span = nodes.map Node.span := by
  induction nodes generalizing current i with
  | nil => rfl
  | cons h rest ih =>
    cases rest with
    | nil => rfl
    | cons h' rest =>
      simp only [countFailures, List.map_cons]
      rw [ih, List.map_cons]
      rfl

/-- The current node stays in the list. -/
theorem countFailures_lt (current i : Nat) (nodes : List Node) (h : current < i + nodes.length) :
    (countFailures current i nodes).1 < i + nodes.length := by
  induction nodes generalizing current i with
  | nil => exact h
  | cons n rest ih =>
    cases rest with
    | nil => exact h
    | cons n' rest =>
      simp only [countFailures, List.length_cons] at h ih ⊢
      refine Nat.lt_of_lt_of_eq (ih (if n.failed > 4 then i + 1 else current) (i + 1) ?_) (by omega)
      split <;> omega

theorem mpAlignPtr_eq {p : Nat} (h : p ≤ 9223372036854775808) : mpAlignPtr p = alignUp 32 p := by
  unfold mpAlignPtr alignUp mpAlignment sizeTSize
  rw [Nat.mod_eq_of_lt (by omega)]

theorem psize_eq {max : Nat} {h : Node} (hok : h.span.Ok max) : h.psize = nodeSize + max := by
  have hsize : h.end_ = h.addr + nodeSize + max := hok.size
  have hbound : h.end_ ≤ 9223372036854775808 := hok.bounded
  unfold Node.psize sizeTSize
  rw [Int.emod_eq_of_lt (by omega) (by omega)]
  omega

theorem holds_apart {max : Nat} {s t : Span} {b c : Block} (hs : s.Ok max) (ht : t.Ok max)
    (hb : s.Holds b) (hc : t.Holds c) (h : s.Apart t) : b.Apart c := by
  have hs' := hs.last
  have ht' := ht.last
  unfold Span.Holds at hb hc
  unfold Span.Apart at h
  unfold Block.Apart
  omega

/-! ## A new node -/

/-- What `posix_memalign` returns for a node: aligned, in the lower half of
the addresses, and apart from the other nodes. -/
structure Pool.FreshNode (pool : Pool) (m : Fresh) : Prop where
  aligned : mpAlignment ∣ m.addr
  bounded : m.addr + nodeSize + pool.max ≤ 9223372036854775808
  apart : ∀ h ∈ pool.nodes, h.end_ ≤ m.addr ∨ m.addr + nodeSize + pool.max ≤ h.addr

/-- The word at `last` of the new node, with the size of its block added,
lies between the end of the block and the end of the node. -/
structure Pool.NodeFits (pool : Pool) (size : Nat) (m : Fresh) : Prop where
  block : m.addr + nodeSize + size ≤ (m.last + size) % sizeTSize
  node : (m.last + size) % sizeTSize ≤ m.addr + nodeSize + pool.max

def Fresh.span (m : Fresh) (max size : Nat) : Span :=
  ⟨m.addr, (m.last + size) % sizeTSize, m.addr + nodeSize + max⟩

/-- What `mp_alloc_small` makes of a pool. -/
structure Pool.Extends (pool : Pool) (size : Nat) (m : Fresh) (pool' : Pool) : Prop where
  max : pool'.max = pool.max
  spans : pool'.spans = pool.spans ++ [m.span pool.max size]
  current : pool'.current < pool'.nodes.length
  tail : pool'.tail = 0
  faulted : pool'.faulted = false
  blocks : pool'.blocks = pool.blocks ++ [⟨m.addr + nodeSize, size⟩]
  large : pool'.large = pool.large

theorem mpAllocSmall_spec (size : Nat) {m : Fresh} (h : pool.Inv) (hm : pool.FreshNode m) :
    ∃ pool', mpAllocSmall pool size (some m) = (.ptr (m.addr + nodeSize), pool') ∧
      pool.Extends size m pool' := by
  have hbound := hm.bounded
  have hcurrent := h.current
  have halign : mpAlignPtr (m.addr + nodeSize) = m.addr + nodeSize := by
    rw [mpAlignPtr_eq (by omega)]
    exact alignUp_of_dvd (by decide) (Nat.dvd_add hm.aligned (Nat.dvd_refl 32))
  unfold mpAllocSmall
  split
  · rename_i heq
    cases heq
  · rename_i hnodes
    rw [hnodes] at hcurrent
    exact absurd hcurrent (Nat.not_lt_zero _)
  · rename_i m' head rest heq hnodes
    cases heq
    have hok : head.span.Ok pool.max :=
      h.ok _ (List.mem_map.mpr ⟨head, by rw [hnodes]; exact List.mem_cons_self, rfl⟩)
    have hend : (m.addr + head.psize) % sizeTSize = m.addr + nodeSize + pool.max := by
      rw [psize_eq hok, ← Nat.add_assoc]
      exact Nat.mod_eq_of_lt (Nat.lt_of_le_of_lt hbound (by decide))
    rw [if_neg (not_not.mpr h.tail), halign]
    refine ⟨_, rfl, rfl, ?_, ?_, rfl, h.sound, rfl, rfl⟩
    · simp only [Pool.spans, List.map_append, countFailures_spans]
      rw [← List.map_append, List.take_append_drop, hend]
      rfl
    · have hlt := countFailures_lt pool.current pool.current
        (pool.nodes.drop pool.current) (by rw [List.length_drop]; omega)
      have hlen := congrArg List.length
        (countFailures_spans pool.current pool.current (pool.nodes.drop pool.current))
      simp only [List.length_map, List.length_drop] at hlen hlt
      simp only [List.length_append, List.length_take, List.length_singleton, hlen]
      omega

/-- A block in the new node is apart from the old ones. -/
theorem inv_extends {size : Nat} {m : Fresh} {pool' : Pool} (h : pool.Inv)
    (hm : pool.FreshNode m) (hfits : pool.NodeFits size m) (hext : pool.Extends size m pool') :
    pool'.Inv := by
  have hblock := hfits.block
  have hok : (m.span pool.max size).Ok pool.max :=
    ⟨rfl, Nat.le_trans (Nat.le_add_right _ _) hblock, hfits.node, hm.bounded⟩
  have hholds : (m.span pool.max size).Holds ⟨m.addr + nodeSize, size⟩ := ⟨Nat.le_refl _, hblock⟩
  have hapart : ∀ s ∈ pool.spans, s.Apart (m.span pool.max size) := by
    intro s hs
    obtain ⟨n, hn, rfl⟩ := List.mem_map.mp hs
    exact hm.apart n hn
  refine ⟨?_, ?_, hext.current, hext.tail, hext.faulted, ?_, ?_⟩
  · rw [hext.max, hext.spans]
    intro s hs
    rcases List.mem_append.mp hs with hold | hnew
    · exact h.ok s hold
    · exact List.mem_singleton.mp hnew ▸ hok
  · rw [hext.spans, List.pairwise_append]
    exact ⟨h.apart, List.pairwise_singleton _ _,
      fun s hs t ht => List.mem_singleton.mp ht ▸ hapart s hs⟩
  · rw [hext.blocks, hext.spans]
    intro b hb
    rcases List.mem_append.mp hb with hold | hnew
    · obtain ⟨hdvd, s, hs, hin⟩ := h.blocks b hold
      exact ⟨hdvd, s, List.mem_append_left _ hs, hin⟩
    · rw [List.mem_singleton.mp hnew]
      exact ⟨Nat.dvd_add hm.aligned (Nat.dvd_refl 32), _,
        List.mem_append_right _ (List.mem_singleton_self _), hholds⟩
  · rw [hext.blocks, List.pairwise_append]
    refine ⟨h.disjoint, List.pairwise_singleton _ _, fun b hb c hc => ?_⟩
    obtain ⟨-, s, hs, hin⟩ := h.blocks b hb
    rw [List.mem_singleton.mp hc]
    exact holds_apart (h.ok s hs) hok hin hholds (hapart s hs)

/-! ## A block in a node -/

theorem apart_of_ne {spans : List Span} (h : spans.Pairwise Span.Apart) {i j : Nat} {s t : Span}
    (hi : spans[i]? = some s) (hj : spans[j]? = some t) (hne : i ≠ j) : s.Apart t := by
  obtain ⟨hi', rfl⟩ := List.getElem?_eq_some_iff.mp hi
  obtain ⟨hj', rfl⟩ := List.getElem?_eq_some_iff.mp hj
  rcases Nat.lt_or_gt_of_ne hne with hlt | hgt
  · exact List.pairwise_iff_getElem.mp h i j hi' hj' hlt
  · exact (List.pairwise_iff_getElem.mp h j i hj' hi' hgt).symm

/-- A block from the aligned `last` of a node on. -/
def Pool.place (pool : Pool) (i : Nat) (h : Node) (size : Nat) : Pool :=
  { pool with
    nodes := pool.nodes.set i { h with last := (mpAlignPtr h.last + size) % sizeTSize }
    blocks := pool.blocks ++ [⟨mpAlignPtr h.last, size⟩] }

theorem inv_place {i size : Nat} {n : Node} (h : pool.Inv) (hn : pool.nodes[i]? = some n)
    (hfits : mpAlignPtr n.last + size ≤ n.end_) : (pool.place i n size).Inv := by
  have hspan : pool.spans[i]? = some n.span := by
    rw [Pool.spans, List.getElem?_map, hn, Option.map_some]
  have hok := h.ok _ (List.mem_of_getElem? hspan)
  have hend : n.end_ ≤ 9223372036854775808 := hok.bounded
  have hlast : n.addr + nodeSize ≤ n.last ∧ n.last ≤ n.end_ := ⟨hok.header, hok.last⟩
  have halign : mpAlignPtr n.last = alignUp 32 n.last := mpAlignPtr_eq (by omega)
  have hge : n.last ≤ mpAlignPtr n.last := halign ▸ le_alignUp (by decide) n.last
  have hmod : (mpAlignPtr n.last + size) % sizeTSize = mpAlignPtr n.last + size :=
    Nat.mod_eq_of_lt (Nat.lt_of_le_of_lt (Nat.le_trans hfits hend) (by decide))
  have hspans : (pool.place i n size).spans =
      pool.spans.set i ⟨n.addr, mpAlignPtr n.last + size, n.end_⟩ := by
    simp only [Pool.spans, Pool.place, List.map_set, Node.span, hmod]
  have hnew : (⟨n.addr, mpAlignPtr n.last + size, n.end_⟩ : Span).Ok pool.max :=
    ⟨hok.size, by dsimp only; omega, hfits, hok.bounded⟩
  have hholds : (⟨n.addr, mpAlignPtr n.last + size, n.end_⟩ : Span).Holds
      ⟨mpAlignPtr n.last, size⟩ := ⟨by dsimp only; omega, Nat.le_refl _⟩
  have hlt := (List.getElem?_eq_some_iff.mp hspan).1
  -- the span of the block in the new list, and what it is to the others
  have hself : (pool.spans.set i ⟨n.addr, mpAlignPtr n.last + size, n.end_⟩)[i]? =
      some ⟨n.addr, mpAlignPtr n.last + size, n.end_⟩ := List.getElem?_set_self hlt
  refine ⟨?_, ?_, ?_, h.tail, h.sound, ?_, ?_⟩
  · rw [hspans]
    intro s hs
    rcases List.mem_or_eq_of_mem_set hs with hold | rfl
    · exact h.ok s hold
    · exact hnew
  · rw [hspans, List.pairwise_iff_getElem]
    intro j k hj hk hjk
    rw [List.length_set] at hj hk
    have happ := List.pairwise_iff_getElem.mp h.apart j k hj hk hjk
    have hget : pool.spans[i] = n.span := (List.getElem?_eq_some_iff.mp hspan).2
    rw [List.getElem_set, List.getElem_set]
    split
    · rename_i hij
      subst hij
      rw [if_neg (by omega)]
      rwa [hget] at happ
    · split
      · rename_i hik
        subst hik
        rwa [hget] at happ
      · exact happ
  · simp only [Pool.place, List.length_set]
    exact h.current
  · rw [hspans]
    intro b hb
    rcases List.mem_append.mp hb with hold | hnewb
    · obtain ⟨hdvd, s, hs, hin⟩ := h.blocks b hold
      refine ⟨hdvd, ?_⟩
      obtain ⟨j, hj⟩ := List.mem_iff_getElem?.mp hs
      by_cases hij : i = j
      · subst hij
        obtain rfl := Option.some.inj (hspan.symm.trans hj)
        refine ⟨_, List.mem_of_getElem? hself, hin.1, Nat.le_trans hin.2 ?_⟩
        exact Nat.le_trans hge (Nat.le_add_right _ _)
      · exact ⟨s, List.mem_of_getElem? ((List.getElem?_set_ne hij).trans hj), hin⟩
    · rw [List.mem_singleton.mp hnewb]
      exact ⟨halign ▸ dvd_alignUp 32 n.last, _, List.mem_of_getElem? hself, hholds⟩
  · refine List.pairwise_append.mpr ⟨h.disjoint, List.pairwise_singleton _ _, fun b hb c hc => ?_⟩
    rw [List.mem_singleton.mp hc]
    obtain ⟨-, s, hs, hin⟩ := h.blocks b hb
    obtain ⟨j, hj⟩ := List.mem_iff_getElem?.mp hs
    by_cases hij : i = j
    · subst hij
      obtain rfl := Option.some.inj (hspan.symm.trans hj)
      exact Or.inl (Nat.le_trans hin.2 hge)
    · have happ : s.Apart n.span := apart_of_ne h.apart hj hspan (Ne.symm hij)
      exact holds_apart (h.ok s hs) hnew hin hholds happ

/-! ## Steps -/

/-- The block fits: behind the aligned `last` of the node that is found, or
in the new node. The record of a large block is not refused. -/
def Pool.FitsMalloc (pool : Pool) (size : Nat) (lm : Option Nat) (m : Option Fresh) : Prop :=
  if pool.max < size then
    lm.isSome = true → emptyLarge pool.large = none → ∃ f ∈ m, pool.NodeFits largeSize f
  else
    match pool.room size with
    | some i => ∀ n ∈ pool.nodes[i]?, mpAlignPtr n.last + size ≤ n.end_
    | none => ∀ f ∈ m, pool.NodeFits size f

/-- `mp_calloc` gets its large block, too. -/
def Pool.Fits (pool : Pool) : Event → Prop
  | .malloc size lm m => pool.FitsMalloc size lm m
  | .calloc size lm m =>
      pool.FitsMalloc size lm m ∧
        (pool.max < size → lm.isSome = true → (emptyLarge pool.large).isSome = true)
  | .free _ => True
  | .reset => True

/-- What `posix_memalign` promises. -/
def Pool.Placed (pool : Pool) : Event → Prop
  | .malloc _ _ m => ∀ f ∈ m, pool.FreshNode f
  | .calloc _ _ m => ∀ f ∈ m, pool.FreshNode f
  | .free _ => True
  | .reset => True

/-- Nothing in the invariant is about the records of the large blocks. -/
theorem inv_large (h : pool.Inv) (large : List Large) : ({ pool with large } : Pool).Inv :=
  ⟨h.ok, h.apart, h.current, h.tail, h.sound, h.blocks, h.disjoint⟩

theorem inv_mpAllocLarge {lm : Option Nat} {m : Option Fresh} (h : pool.Inv)
    (hm : ∀ f ∈ m, pool.FreshNode f)
    (hfits : lm.isSome = true → emptyLarge pool.large = none → ∃ f ∈ m, pool.NodeFits largeSize f) :
    (mpAllocLarge pool lm m).2.Inv := by
  unfold mpAllocLarge
  split
  · exact h
  · split
    · exact inv_large h _
    · rename_i hempty
      obtain ⟨f, hf, hnode⟩ := hfits rfl hempty
      obtain ⟨pool', heq, hext⟩ := mpAllocSmall_spec largeSize h (hm f hf)
      rw [Option.mem_def.mp hf, heq]
      exact inv_large (inv_extends h (hm f hf) hnode hext) _

theorem inv_mpMalloc {size : Nat} {lm : Option Nat} {m : Option Fresh} (h : pool.Inv)
    (hm : ∀ f ∈ m, pool.FreshNode f) (hfits : pool.FitsMalloc size lm m) :
    (mpMalloc pool size lm m).2.Inv := by
  unfold Pool.FitsMalloc at hfits
  unfold mpMalloc
  split
  · rename_i hlarge
    rw [if_pos hlarge] at hfits
    exact inv_mpAllocLarge h hm hfits
  · rename_i hsmall
    rw [if_neg hsmall] at hfits
    split
    · rename_i i hroom
      rw [hroom] at hfits
      split
      · rename_i n hn
        exact inv_place h hn (hfits n hn)
      · rename_i hnone
        -- the index is the one of a node
        have hlt : i < pool.nodes.length := by
          obtain ⟨j, hj, rfl⟩ := Option.map_eq_some_iff.mp hroom
          have hlen := (List.findIdx?_eq_some_iff_getElem.mp hj).1
          rw [List.length_drop] at hlen
          omega
        exact absurd (List.getElem?_eq_none_iff.mp hnone) (Nat.not_le.mpr hlt)
    · rename_i hroom
      rw [hroom] at hfits
      rw [if_neg (not_not.mpr h.tail)]
      cases m with
      | none => exact h
      | some f =>
        obtain ⟨pool', heq, hext⟩ := mpAllocSmall_spec size h (hm f rfl)
        rw [heq]
        exact inv_extends h (hm f rfl) (hfits f rfl) hext

theorem mpAllocSmall_ne_missing (size : Nat) (m : Option Fresh) :
    (mpAllocSmall pool size m).1 ≠ .missing := by
  unfold mpAllocSmall
  split
  · simp
  · simp
  · split <;> simp

/-- Only a large block that needs a new record is not returned. -/
theorem mpMalloc_ne_missing {size : Nat} {lm : Option Nat} {m : Option Fresh}
    (hlarge : pool.max < size → lm.isSome = true → (emptyLarge pool.large).isSome = true) :
    (mpMalloc pool size lm m).1 ≠ .missing := by
  unfold mpMalloc
  split
  · rename_i hsize
    unfold mpAllocLarge
    split
    · simp
    · split
      · simp
      · rename_i hempty
        exact absurd (hlarge hsize rfl) (by simp [hempty])
  · split
    · split <;> simp
    · split
      · simp
      · exact mpAllocSmall_ne_missing size m

theorem mpCalloc_eq {size : Nat} {lm : Option Nat} {m : Option Fresh}
    (h : (mpMalloc pool size lm m).1 ≠ .missing) :
    mpCalloc pool size lm m = mpMalloc pool size lm m := by
  unfold mpCalloc
  split
  · rename_i heq
    exact absurd (congrArg Prod.fst heq) h
  · rfl

theorem inv_mpResetPool (h : pool.Inv) : (mpResetPool pool).Inv := by
  unfold mpResetPool
  rw [if_neg (not_not.mpr h.tail)]
  have hspans : ((pool.nodes.map fun n => { n with last := n.addr + nodeSize }).map Node.span) =
      pool.spans.map fun s => { s with last := s.addr + nodeSize } := by
    rw [Pool.spans, List.map_map, List.map_map]
    rfl
  refine ⟨?_, ?_, by simpa using h.current, h.tail, h.sound, fun b hb => absurd hb List.not_mem_nil,
    List.Pairwise.nil⟩
  · intro s hs
    rw [Pool.spans, hspans] at hs
    obtain ⟨t, ht, rfl⟩ := List.mem_map.mp hs
    have hok := h.ok t ht
    exact ⟨hok.size, Nat.le_refl _, Nat.le_trans hok.header hok.last, hok.bounded⟩
  · rw [Pool.spans, hspans]
    exact List.pairwise_map.mpr (h.apart.imp fun happ => happ)

theorem inv_step (e : Event) (h : pool.Inv) (hplaced : pool.Placed e) (hfits : pool.Fits e) :
    (step pool e).Inv := by
  unfold step
  rw [if_neg (by simp [h.sound])]
  cases e with
  | malloc size lm m => exact inv_mpMalloc h hplaced hfits
  | calloc size lm m =>
    dsimp only
    rw [mpCalloc_eq (mpMalloc_ne_missing hfits.2)]
    exact inv_mpMalloc h hplaced hfits.1
  | free p =>
    simp only [mpFree]
    split
    · exact inv_large h _
    · exact h
  | reset => exact inv_mpResetPool h

/-! ## Runs -/

structure Pool.Sound (pool : Pool) : Prop where
  running : pool.faulted = false
  /-- every small block is aligned and lies in one node -/
  blocks : ∀ b ∈ pool.blocks, mpAlignment ∣ b.addr ∧
    ∃ h ∈ pool.nodes, h.addr ≤ b.addr ∧ b.addr + b.size ≤ h.end_
  disjoint : pool.blocks.Pairwise Block.Apart
  /-- no block meets the header of a node -/
  headers : ∀ b ∈ pool.blocks, ∀ h ∈ pool.nodes, b.Apart ⟨h.addr, nodeSize⟩
  last : ∀ h ∈ pool.nodes, h.last ≤ h.end_

theorem sound_of_inv (h : pool.Inv) : pool.Sound := by
  have hmem {n : Node} (hn : n ∈ pool.nodes) : n.span ∈ pool.spans :=
    List.mem_map.mpr ⟨n, hn, rfl⟩
  refine ⟨h.sound, fun b hb => ?_, h.disjoint, fun b hb n hn => ?_, fun n hn => (h.ok _ (hmem hn)).last⟩
  · obtain ⟨hdvd, s, hs, hin⟩ := h.blocks b hb
    obtain ⟨n, hn, rfl⟩ := List.mem_map.mp hs
    have hlast : n.last ≤ n.end_ := (h.ok _ hs).last
    exact ⟨hdvd, n, hn, Nat.le_trans (Nat.le_add_right _ _) hin.1, Nat.le_trans hin.2 hlast⟩
  · obtain ⟨-, s, hs, hin⟩ := h.blocks b hb
    obtain ⟨i, hi⟩ := List.mem_iff_getElem?.mp hs
    obtain ⟨j, hj⟩ := List.mem_iff_getElem?.mp (hmem hn)
    have hoks := h.ok _ hs
    have hokn := h.ok _ (hmem hn)
    have hlast := hoks.last
    have hsize : n.end_ = n.addr + nodeSize + pool.max := hokn.size
    by_cases hij : i = j
    · subst hij
      obtain rfl := Option.some.inj (hi.symm.trans hj)
      exact Or.inr hin.1
    · have happ : s.end_ ≤ n.addr ∨ n.end_ ≤ s.addr := apart_of_ne h.apart hi hj hij
      have hholds := hin.1
      have hholds' := hin.2
      unfold Block.Apart
      dsimp only
      omega

/-- The pool of a size, in memory whose word at `next` of the first node is
`NULL`. -/
theorem inv_mpCreatePool {size : Nat} {m : Fresh} {pool : Pool}
    (hpool : mpCreatePool size (some m) = some pool)
    (hsize : size + (poolSize + nodeSize) < sizeTSize)
    (hplaced : m.addr + (size + (poolSize + nodeSize)) % sizeTSize ≤ 9223372036854775808)
    (hnext : m.next = 0) : pool.Inv := by
  obtain rfl := Option.some.inj hpool
  rw [Nat.mod_eq_of_lt hsize] at hplaced
  unfold poolSize nodeSize at hplaced
  have hend : (m.addr + poolSize + nodeSize + size) % sizeTSize =
      m.addr + poolSize + nodeSize + size :=
    Nat.mod_eq_of_lt (by unfold poolSize nodeSize sizeTSize; omega)
  refine ⟨fun s hs => ?_, List.pairwise_singleton _ _, Nat.one_pos, hnext, rfl,
    fun b hb => absurd hb List.not_mem_nil, List.Pairwise.nil⟩
  obtain rfl := List.mem_singleton.mp hs
  refine ⟨hend, Nat.le_refl _, ?_, ?_⟩
  · exact Nat.le_trans (Nat.le_add_right _ _) (Nat.le_of_eq hend.symm)
  · refine Nat.le_trans (Nat.le_of_eq hend) ?_
    unfold poolSize nodeSize
    omega

/-- In every state of every run whose blocks fit. -/
theorem sound_of_fits {size : Nat} {m : Fresh} {pool : Pool}
    (hpool : mpCreatePool size (some m) = some pool)
    (hplaced : m.addr + (size + (poolSize + nodeSize)) % sizeTSize ≤ 9223372036854775808)
    (hsize : size + (poolSize + nodeSize) < sizeTSize) (hnext : m.next = 0) {events : List Event}
    (henv : Along step Pool.Placed pool events) (hfits : Along step Pool.Fits pool events) :
    (run step pool events).Sound :=
  sound_of_inv (run_invariant (I := Pool.Inv) (fun _ e h ⟨hc, hf⟩ => inv_step e h hc hf)
    (henv.and hfits) (inv_mpCreatePool hpool hsize hplaced hnext))

instance (pool : Pool) (size : Nat) (m : Fresh) : Decidable (pool.NodeFits size m) :=
  decidable_of_iff (m.addr + nodeSize + size ≤ (m.last + size) % sizeTSize ∧
    (m.last + size) % sizeTSize ≤ m.addr + nodeSize + pool.max)
    ⟨fun ⟨hblock, hnode⟩ => ⟨hblock, hnode⟩, fun h => ⟨h.block, h.node⟩⟩

instance (pool : Pool) (m : Fresh) : Decidable (pool.FreshNode m) :=
  decidable_of_iff (mpAlignment ∣ m.addr ∧ m.addr + nodeSize + pool.max ≤ 9223372036854775808 ∧
    ∀ h ∈ pool.nodes, h.end_ ≤ m.addr ∨ m.addr + nodeSize + pool.max ≤ h.addr)
    ⟨fun ⟨haligned, hbound, hapart⟩ => ⟨haligned, hbound, hapart⟩,
      fun h => ⟨h.aligned, h.bounded, h.apart⟩⟩

instance (pool : Pool) (size : Nat) (lm : Option Nat) (m : Option Fresh) :
    Decidable (pool.FitsMalloc size lm m) := by
  unfold Pool.FitsMalloc
  cases pool.room size <;> infer_instance

instance (pool : Pool) (e : Event) : Decidable (pool.Fits e) := by
  cases e <;> dsimp only [Pool.Fits] <;> infer_instance

instance (pool : Pool) (e : Event) : Decidable (pool.Placed e) := by
  cases e <;> dsimp only [Pool.Placed] <;> infer_instance

/-- A pool of 96 bytes: a block in the first node, a second node for a block
that does not fit, a large block with its record in a third one, and a
reset. -/
theorem sound_threeNodes :
    (run step ⟨96, 0, [], [⟨1048, 1080, 1176, 0⟩], 0, false, []⟩
      [.malloc 64 none none, .calloc 48 none (some ⟨2048, 2080, 7⟩),
        .malloc 500 (some 8192) (some ⟨4096, 4128, 7⟩), .reset, .malloc 64 none none]).Sound :=
  @sound_of_fits 96 ⟨1024, 7, 0⟩ _ rfl (by decide) (by decide) rfl _ (by decide +kernel)
    (by decide +kernel)

/-- A block that fits but for its alignment; a node whose `last` was 0; and
a first node with a word at `next`. -/
theorem broken_blocks :
    ¬ (run step ⟨32, 0, [], [⟨1048, 1080, 1112, 0⟩], 0, false, []⟩ [.malloc 32 none none]).Sound ∧
      ¬ (run step ⟨96, 0, [], [⟨1048, 1080, 1176, 0⟩], 0, false, []⟩
        [.malloc 64 none none, .malloc 48 none (some ⟨2048, 0, 0⟩), .malloc 48 none none]).Sound ∧
      ¬ (run step ⟨96, 0, [], [⟨1048, 1080, 1176, 0⟩], 7, false, []⟩
        [.malloc 64 none none, .malloc 48 none (some ⟨2048, 2080, 0⟩)]).Sound :=
  ⟨fun h => absurd h.last (by decide), fun h => absurd h.blocks (by decide),
    fun h => absurd h.running (by decide)⟩

end Training.Arena
