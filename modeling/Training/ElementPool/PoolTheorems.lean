/-
Training.ElementPool.PoolTheorems — elements that do not overlap.

The elements taken from the blocks so far are numbered, and the element
`k` is in the block `k / blockSize` (`Pool.element`). `Pool.Inv` says
that each of them is live or in the list of the freed ones, once, and
that the links of that list are in its elements. Elements of different
numbers have no byte in common, so neither handing one out nor writing to
a live one disturbs a link.
-/
import Training.ElementPool.Pool
import Training.Lib.Links
import Training.Lib.Machine

namespace Training.ElementPool

open Training.Lib
open Training.Lib.Memory
open Training.Lib.Links

variable {p : Pool}

def Pool.blockBytes (p : Pool) : Nat := p.elementSize * p.blockSize

/-- The number of elements taken from the blocks. -/
def Pool.taken (p : Pool) : Nat :=
  if p.block < 0 then 0 else p.block.toNat * p.blockSize + p.used + 1

/-- The address of the element with the number `k`. -/
def Pool.element (p : Pool) (k : Nat) : Nat :=
  p.blocks.getD (k / p.blockSize) 0 + k % p.blockSize * p.elementSize

/-- The piece of an element is in an allocated block. -/
def Pool.Inside (p : Pool) (x : Nat) : Prop :=
  ∃ b ∈ p.blocks, b ≠ 0 ∧ b ≤ x ∧ x + p.elementSize ≤ b + p.blockBytes

structure Sizes (elementSize blockSize used : Nat) : Prop where
  pointer : pointerSize ≤ elementSize
  pos : 1 ≤ blockSize
  product : elementSize * blockSize < uint32Size
  lt : used < blockSize

/-- The table of blocks of `bytes` bytes: a power of two of entries, the
ones up to `block` allocated, and all allocated blocks apart. -/
structure Table (bytes : Nat) (block : Int) (blocksUsed : Nat) (blocks : List Nat) : Prop where
  size : ∃ e ≤ 31, blocksUsed = 2 ^ e
  length : blocks.length = blocksUsed
  index : -1 ≤ block ∧ block < blocksUsed
  filled : ∀ i : Nat, i ≤ block → ∃ b, blocks[i]? = some b ∧ b ≠ 0
  apart : ∀ (i j b c : Nat), i ≠ j → blocks[i]? = some b → blocks[j]? = some c → b ≠ 0 →
    c ≠ 0 → Apart bytes b c
  bounded : ∀ b ∈ blocks, b ≠ 0 → b + bytes ≤ 256 ^ pointerSize

structure Pool.Inv (p : Pool) (free : List Nat) : Prop where
  sizes : Sizes p.elementSize p.blockSize p.used
  table : Table p.blockBytes p.block p.blocksUsed p.blocks
  start : p.block = -1 → p.used + 1 = p.blockSize
  elements : (p.live ++ free).Perm ((List.range p.taken).map p.element)
  links : Linked (load pointerSize p.mem) p.freed free
  sound : p.faulted = false

/-! ## Elements -/

section Elements

variable (hs : Sizes p.elementSize p.blockSize p.used)
  (ht : Table p.blockBytes p.block p.blocksUsed p.blocks)

include hs

theorem div_le_block {k : Nat} (hk : k < p.taken) : (k / p.blockSize : Nat) ≤ p.block := by
  unfold Pool.taken at hk
  split at hk
  · exact absurd hk (Nat.not_lt_zero k)
  · have hused := hs.lt
    have hlt : k / p.blockSize < p.block.toNat + 1 := by
      rw [Nat.div_lt_iff_lt_mul hs.pos, Nat.succ_mul]
      omega
    omega

include ht

/-- The block of an element, and the place of the element in it. -/
theorem element_spec {k : Nat} (hk : k < p.taken) :
    ∃ b, p.blocks[k / p.blockSize]? = some b ∧ b ≠ 0 ∧
      p.element k = b + k % p.blockSize * p.elementSize ∧
      k % p.blockSize * p.elementSize + p.elementSize ≤ p.blockBytes := by
  obtain ⟨b, hb, hne⟩ := ht.filled _ (div_le_block hs hk)
  refine ⟨b, hb, hne, by rw [Pool.element, List.getD_eq_getElem?_getD, hb, Option.getD_some], ?_⟩
  have hmod : k % p.blockSize + 1 ≤ p.blockSize := Nat.mod_lt _ hs.pos
  calc k % p.blockSize * p.elementSize + p.elementSize
      = (k % p.blockSize + 1) * p.elementSize := (Nat.succ_mul _ _).symm
    _ ≤ p.blockSize * p.elementSize := Nat.mul_le_mul_right _ hmod
    _ = p.blockBytes := Nat.mul_comm _ _

theorem inside_element {k : Nat} (hk : k < p.taken) : p.Inside (p.element k) := by
  obtain ⟨b, hb, hne, heq, hle⟩ := element_spec hs ht hk
  exact ⟨b, List.mem_of_getElem? hb, hne, by omega, by omega⟩

theorem apart_element {k l : Nat} (hlt : k < l) (hl : l < p.taken) :
    Apart p.elementSize (p.element k) (p.element l) := by
  obtain ⟨b, hb, hne, heq, hle⟩ := element_spec hs ht (Nat.lt_trans hlt hl)
  obtain ⟨c, hc, hne', heq', hle'⟩ := element_spec hs ht hl
  rw [heq, heq']
  by_cases hsame : k / p.blockSize = l / p.blockSize
  · rw [hsame, hc] at hb
    have hbc : c = b := Option.some.inj hb
    have hmod : k % p.blockSize + 1 ≤ l % p.blockSize := by
      have hk := Nat.div_add_mod k p.blockSize
      have hl := Nat.div_add_mod l p.blockSize
      rw [hsame] at hk
      omega
    have hmul := Nat.mul_le_mul_right p.elementSize hmod
    rw [Nat.succ_mul] at hmul
    left
    omega
  · have hapart := ht.apart _ _ b c hsame hb hc hne hne'
    unfold Apart at hapart ⊢
    omega

end Elements

theorem apart_elements {free : List Nat} (h : p.Inv free) :
    (p.live ++ free).Pairwise (Apart p.elementSize) := by
  refine (h.elements.pairwise_iff fun hxy => Apart.symm hxy).mpr ?_
  refine List.pairwise_map.mpr (List.pairwise_lt_range.imp_of_mem fun _ hl hlt => ?_)
  exact apart_element h.sizes h.table hlt (List.mem_range.mp hl)

theorem inside_elements {free : List Nat} (h : p.Inv free) {x : Nat} (hx : x ∈ p.live ++ free) :
    p.Inside x := by
  obtain ⟨k, hk, rfl⟩ := List.mem_map.mp (h.elements.mem_iff.mp hx)
  exact inside_element h.sizes h.table (List.mem_range.mp hk)

/-! ## Handing out -/

/-- `ptr` is handed out. -/
def Pool.hand (p : Pool) (ptr : Nat) : Pool := { p with live := ptr :: p.live }

/-- The first of the freed elements. -/
theorem inv_recycle {free : List Nat} (h : p.Inv free) (hfreed : p.freed ≠ 0) :
    ∃ rest, ({ p with freed := load pointerSize p.mem p.freed }.hand p.freed).Inv rest := by
  obtain ⟨rest, rfl, hlinks⟩ := h.links.exists_cons hfreed
  exact ⟨rest, h.sizes, h.table, h.start, List.perm_middle.symm.trans h.elements, hlinks, h.sound⟩

theorem toInt32_pow {e : Nat} (he : e ≤ 30) : toInt32 (2 ^ e) = (2 ^ e : Nat) := by
  have hle : 2 ^ e ≤ 2 ^ 30 := Nat.pow_le_pow_right (by decide) he
  rw [toInt32, if_pos (by omega)]

/-- The table is doubled with empty entries when the blocks fill it. -/
theorem table_grow {n : Nat} (ht : Table p.blockBytes p.block p.blocksUsed p.blocks)
    (hn : p.block + 1 = n) (hrange : p.block < int32Max) :
    ∃ blocksUsed blocks,
      ({ p with used := 0, block := n }.growTable =
        { p with used := 0, block := n, blocksUsed := blocksUsed, blocks := blocks }) ∧
      (∃ e ≤ 31, blocksUsed = 2 ^ e) ∧ blocks.length = blocksUsed ∧ n < blocksUsed ∧
      ∃ k, blocks = p.blocks ++ List.replicate k 0 := by
  obtain ⟨e, he, hsize⟩ := ht.size
  have hblock := ht.index
  unfold Pool.growTable
  dsimp only
  by_cases htop : e = 31
  · -- the greatest table: its size is negative as an `int32_t`
    have hint : toInt32 p.blocksUsed = -2147483648 := by rw [hsize, htop]; rfl
    rw [hint, if_neg (by simp)]
    refine ⟨p.blocksUsed, p.blocks, rfl, ⟨e, he, hsize⟩, ht.length, ?_, 0, by simp⟩
    rw [hsize, htop]
    unfold int32Max at hrange
    omega
  · have hint : toInt32 p.blocksUsed = p.blocksUsed := by rw [hsize, toInt32_pow (by omega)]
    rw [hint]
    split
    · rename_i hfull
      have heq : (n : Int) = p.blocksUsed := beq_iff_eq.mp hfull
      have hle : 2 ^ e ≤ 2 ^ 30 := Nat.pow_le_pow_right (by decide) (by omega)
      have hmod : p.blocksUsed * 2 % uint32Size = p.blocksUsed * 2 :=
        Nat.mod_eq_of_lt (by unfold uint32Size; omega)
      have hpos : 0 < 2 ^ e := Nat.two_pow_pos e
      refine ⟨p.blocksUsed * 2, _, by rw [hmod], ⟨e + 1, by omega, by rw [hsize, Nat.pow_succ]⟩, ?_,
        by omega, _, rfl⟩
      rw [List.length_append, List.length_replicate, ht.length]
      omega
    · rename_i hroom
      have hne : (n : Int) ≠ p.blocksUsed := fun heq => hroom (beq_iff_eq.mpr heq)
      exact ⟨p.blocksUsed, p.blocks, rfl, ⟨e, he, hsize⟩, ht.length, by omega, 0, by simp⟩

/-- What `malloc` returns for a block. -/
structure Pool.FreshBlock (p : Pool) (m : Nat) : Prop where
  ne : m ≠ 0
  bounded : m + p.blockBytes ≤ 256 ^ pointerSize
  apart : ∀ b ∈ p.blocks, b ≠ 0 → Apart p.blockBytes b m

instance (p : Pool) (m : Nat) : Decidable (p.FreshBlock m) :=
  decidable_of_iff (m ≠ 0 ∧ m + p.blockBytes ≤ 256 ^ pointerSize ∧
    ∀ b ∈ p.blocks, b ≠ 0 → Apart p.blockBytes b m)
    ⟨fun ⟨hne, hbound, hapart⟩ => ⟨hne, hbound, hapart⟩, fun h => ⟨h.ne, h.bounded, h.apart⟩⟩

/-- `malloc` is called when the next block is begun. -/
def Pool.mallocs (p : Pool) : Prop := p.blocks.getD (p.block + 1).toNat 0 = 0

instance (p : Pool) : Decidable p.mallocs := inferInstanceAs (Decidable (_ = _))

/-- The table after `fillBlock`. -/
def filledBlocks (grown : List Nat) (n m : Nat) : List Nat :=
  if grown[n]? = some 0 then grown.set n m else grown

/-- An allocated block of the table is an old one, or what `malloc`
returned. -/
theorem filledBlocks_cases {blocks : List Nat} {n m k i b : Nat}
    (hb : (filledBlocks (blocks ++ List.replicate k 0) n m)[i]? = some b) (hne : b ≠ 0) :
    blocks[i]? = some b ∨ i = n ∧ b = m ∧ blocks.getD n 0 = 0 := by
  have hold (hb : (blocks ++ List.replicate k 0)[i]? = some b) : blocks[i]? = some b := by
    rcases List.getElem?_append.symm.trans hb |> (ite_eq_iff.mp ·) with ⟨-, h⟩ | ⟨-, h⟩
    · exact h
    · exact absurd (List.eq_of_mem_replicate (List.mem_of_getElem? h)) hne
  unfold filledBlocks at hb
  split at hb
  · rename_i hzero
    by_cases hi : n = i
    · subst hi
      have hlt := (List.getElem?_eq_some_iff.mp hzero).1
      rw [List.getElem?_set_self hlt] at hb
      refine Or.inr ⟨rfl, (Option.some.inj hb).symm, ?_⟩
      rw [List.getD_eq_getElem?_getD]
      rcases List.getElem?_append.symm.trans hzero |> (ite_eq_iff.mp ·) with ⟨-, h⟩ | ⟨hge, -⟩
      · rw [h, Option.getD_some]
      · rw [List.getElem?_eq_none (Nat.not_lt.mp hge), Option.getD_none]
    · rw [List.getElem?_set_ne hi] at hb
      exact Or.inl (hold hb)
  · exact Or.inl (hold hb)

/-- The entries of the old blocks are kept. -/
theorem filledBlocks_old {blocks : List Nat} {n m k i b : Nat} (hb : blocks[i]? = some b)
    (hi : n ≠ i) : (filledBlocks (blocks ++ List.replicate k 0) n m)[i]? = some b := by
  have hlt := (List.getElem?_eq_some_iff.mp hb).1
  have hgrown : (blocks ++ List.replicate k 0)[i]? = some b := by
    rw [List.getElem?_append_left hlt, hb]
  unfold filledBlocks
  split
  · rw [List.getElem?_set_ne hi, hgrown]
  · exact hgrown

/-- The table when the block `n` has been begun. -/
theorem table_begin {n m k blocksUsed : Nat} (h : Table p.blockBytes p.block p.blocksUsed p.blocks)
    (hn : p.block + 1 = n) (hfresh : p.mallocs → p.FreshBlock m)
    (hsize : ∃ e ≤ 31, blocksUsed = 2 ^ e)
    (hlen : (p.blocks ++ List.replicate k 0).length = blocksUsed) (hlt : n < blocksUsed) :
    Table p.blockBytes n blocksUsed (filledBlocks (p.blocks ++ List.replicate k 0) n m) := by
  have hmallocs : p.blocks.getD n 0 = 0 → p.FreshBlock m := fun hzero =>
    hfresh (by unfold Pool.mallocs; rwa [hn, Int.toNat_natCast])
  refine ⟨hsize, ?_, by omega, fun i hi => ?_, fun i j b c hij hb hc hbne hcne => ?_,
    fun b hb hne => ?_⟩
  · rw [← hlen]
    unfold filledBlocks
    split
    · rw [List.length_set]
    · rfl
  · by_cases hin : n = i
    · subst hin
      have hlt' : n < (p.blocks ++ List.replicate k 0).length := hlen ▸ hlt
      unfold filledBlocks
      split
      · rename_i hzero
        refine ⟨m, List.getElem?_set_self hlt', (hmallocs ?_).ne⟩
        rw [List.getD_eq_getElem?_getD]
        rcases List.getElem?_append.symm.trans hzero |> (ite_eq_iff.mp ·) with ⟨-, h⟩ | ⟨hge, -⟩
        · rw [h, Option.getD_some]
        · rw [List.getElem?_eq_none (Nat.not_lt.mp hge), Option.getD_none]
      · rename_i hzero
        refine ⟨_, List.getElem?_eq_getElem hlt', fun heq => hzero ?_⟩
        rw [List.getElem?_eq_getElem hlt', heq]
    · obtain ⟨b, hb, hne⟩ := h.filled i (by omega)
      exact ⟨b, filledBlocks_old hb hin, hne⟩
  · rcases filledBlocks_cases hb hbne with hold | ⟨hi, hbm, hzero⟩
    · rcases filledBlocks_cases hc hcne with hold' | ⟨-, hcm, hzero⟩
      · exact h.apart i j b c hij hold hold' hbne hcne
      · exact hcm ▸ (hmallocs hzero).apart b (List.mem_of_getElem? hold) hbne
    · rcases filledBlocks_cases hc hcne with hold' | ⟨hj, -, -⟩
      · exact hbm ▸ ((hmallocs hzero).apart c (List.mem_of_getElem? hold') hcne).symm
      · exact absurd (hi.trans hj.symm) hij
  · obtain ⟨i, hi⟩ := List.mem_iff_getElem?.mp hb
    rcases filledBlocks_cases hi hne with hi | ⟨-, rfl, hzero⟩
    · exact h.bounded b (List.mem_of_getElem? hi) hne
    · exact (hmallocs hzero).bounded

/-- The element at `block` and `used`, of a table that has its block. -/
theorem current_eq {n b : Nat} (hsound : p.faulted = false)
    (hs : Sizes p.elementSize p.blockSize p.used) (hn : p.block = n) (hb : p.blocks[n]? = some b) :
    p.current = (some (p.element (n * p.blockSize + p.used)), p) := by
  have hdiv : (n * p.blockSize + p.used) / p.blockSize = n := by
    rw [Nat.add_comm, Nat.add_mul_div_right _ _ hs.pos, Nat.div_eq_of_lt hs.lt, Nat.zero_add]
  have hmod : (n * p.blockSize + p.used) % p.blockSize = p.used := by
    rw [Nat.add_comm, Nat.add_mul_mod_self_right, Nat.mod_eq_of_lt hs.lt]
  have hoff : p.used * p.elementSize % uint32Size = p.used * p.elementSize := by
    have hmul := Nat.mul_le_mul_left p.elementSize (Nat.le_of_lt hs.lt)
    rw [Nat.mul_comm] at hmul
    exact Nat.mod_eq_of_lt (Nat.lt_of_le_of_lt hmul hs.product)
  have hindex : p.block.toNat = n := by rw [hn, Int.toNat_natCast]
  unfold Pool.current
  rw [if_neg (by simp [hsound, hn]), hindex, hb]
  simp only [Pool.element, hdiv, hmod, hoff, List.getD_eq_getElem?_getD, hb, Option.getD_some]

theorem used_succ (hs : Sizes p.elementSize p.blockSize p.used) :
    (p.used + 1) % uint32Size = p.used + 1 := by
  have hbound : p.blockSize ≤ p.elementSize * p.blockSize :=
    Nat.le_mul_of_pos_left _ (Nat.lt_of_lt_of_le (by decide) hs.pointer)
  exact Nat.mod_eq_of_lt (Nat.lt_of_le_of_lt (Nat.le_trans hs.lt hbound) hs.product)

theorem advance_next {m : Nat} (hs : Sizes p.elementSize p.blockSize p.used)
    (hin : p.used + 1 ≠ p.blockSize) : p.advance m = { p with used := p.used + 1 } := by
  unfold Pool.advance
  dsimp only
  rw [used_succ hs, if_neg (by simpa using hin)]

theorem advance_begin {m n : Nat} (hs : Sizes p.elementSize p.blockSize p.used)
    (hin : p.used + 1 = p.blockSize) (hn : p.block + 1 = n) (hrange : p.block < int32Max) :
    p.advance m = ({ p with used := 0, block := n } : Pool).growTable.fillBlock m := by
  unfold Pool.advance
  dsimp only
  rw [used_succ hs, if_pos (by simpa using hin), if_neg (by simpa using Int.ne_of_lt hrange), hn]

theorem taken_eq {n : Nat} (hn : p.block = n) : p.taken = n * p.blockSize + p.used + 1 := by
  rw [Pool.taken, if_neg (by omega), hn, Int.toNat_natCast]

/-- The element that comes next, and the pool when it has been handed
out. -/
structure Pool.Hands (p : Pool) (m ptr : Nat) (p' : Pool) : Prop where
  eq : (p.advance m).current = (some ptr, p')
  inv : (p'.hand ptr).Inv []

/-- The next element is in the block in use. -/
theorem hands_next {m : Nat} (h : p.Inv []) (hin : p.used + 1 ≠ p.blockSize) :
    ∃ ptr, p.Hands m ptr { p with used := p.used + 1 } := by
  have hblock : 0 ≤ p.block := by
    have hge := h.table.index.1
    by_contra hneg
    exact hin (h.start (by omega))
  obtain ⟨n, hn⟩ := Int.eq_ofNat_of_zero_le hblock
  obtain ⟨b, hb, hne⟩ := h.table.filled n (by omega)
  have hlt := h.sizes.lt
  have hsizes : Sizes p.elementSize p.blockSize (p.used + 1) :=
    ⟨h.sizes.pointer, h.sizes.pos, h.sizes.product, by omega⟩
  have htaken := taken_eq hn
  have htaken' : ({ p with used := p.used + 1 } : Pool).taken = p.taken + 1 := by
    rw [htaken]
    exact taken_eq hn
  refine ⟨p.element p.taken, ?_, hsizes, h.table, fun hneg => absurd hneg (by simp [hn, Pool.hand]),
    ?_, h.links, h.sound⟩
  · rw [advance_next h.sizes hin, htaken, Nat.add_assoc]
    exact current_eq h.sound hsizes hn hb
  · have helements := h.elements
    simp only [List.append_nil] at helements ⊢
    change (p.element p.taken :: p.live).Perm
      ((List.range ({ p with used := p.used + 1 } : Pool).taken).map p.element)
    rw [htaken', List.range_succ, List.map_append, List.map_singleton]
    exact (List.perm_append_singleton _ _).symm.trans (helements.append_right _)

theorem fillBlock_eq (m : Nat) :
    p.fillBlock m = { p with blocks := filledBlocks p.blocks p.block.toNat m } := by
  unfold Pool.fillBlock filledBlocks
  split <;> rfl

/-- The next element is the first of the next block. -/
theorem hands_begin {m : Nat} (h : p.Inv []) (hin : p.used + 1 = p.blockSize)
    (hrange : p.block < int32Max) (hfresh : p.mallocs → p.FreshBlock m) :
    ∃ ptr n blocksUsed extra, p.block + 1 = (n : Nat) ∧ p.Hands m ptr { p with
      used := 0, block := n, blocksUsed := blocksUsed,
      blocks := filledBlocks (p.blocks ++ List.replicate extra 0) n m } := by
  have hge := h.table.index.1
  obtain ⟨n, hn⟩ := Int.eq_ofNat_of_zero_le (show 0 ≤ p.block + 1 by omega)
  obtain ⟨blocksUsed, grown, heq, hsize, hlen, hlt, extra, rfl⟩ := table_grow h.table hn hrange
  have htable := table_begin h.table hn hfresh hsize hlen hlt
  obtain ⟨b, hb, hne⟩ := htable.filled n (Int.le_refl _)
  have hsizes : Sizes p.elementSize p.blockSize 0 :=
    ⟨h.sizes.pointer, h.sizes.pos, h.sizes.product, h.sizes.pos⟩
  generalize hp' : ({ p with
    used := 0, block := n, blocksUsed := blocksUsed,
    blocks := filledBlocks (p.blocks ++ List.replicate extra 0) n m } : Pool) = p'
  have hadvance : p.advance m = p' := by
    rw [advance_begin h.sizes hin hn hrange, heq, fillBlock_eq, ← hp']
    rfl
  have htaken : p.taken = n * p.blockSize := by
    unfold Pool.taken
    split
    · have hzero : n = 0 := by omega
      rw [hzero, Nat.zero_mul]
    · have hsucc : n = p.block.toNat + 1 := by omega
      rw [hsucc, Nat.succ_mul, ← hin]
      rfl
  have htaken' : p'.taken = p.taken + 1 := by
    rw [htaken, ← hp']
    exact taken_eq rfl
  have hold : ∀ k < p.taken, p'.element k = p.element k := by
    intro k hk
    obtain ⟨c, hc, hcne⟩ := h.table.filled _ (div_le_block h.sizes hk)
    have hbelow := div_le_block h.sizes hk
    have hkeep := filledBlocks_old (m := m) (k := extra) hc (show n ≠ k / p.blockSize by omega)
    rw [← hp']
    simp only [Pool.element, List.getD_eq_getElem?_getD, hc, hkeep]
  refine ⟨p'.element p.taken, n, blocksUsed, extra, hn, ?_, ?_⟩
  · rw [hp', hadvance, htaken]
    subst hp'
    exact current_eq h.sound hsizes rfl hb
  · rw [hp']
    have helements := h.elements
    simp only [List.append_nil] at helements
    have hrange' : ((List.range p'.taken).map p'.element) =
        (List.range p.taken).map p.element ++ [p'.element p.taken] := by
      rw [htaken', List.range_succ, List.map_append, List.map_singleton]
      congr 1
      exact List.map_congr_left fun k hk => hold k (List.mem_range.mp hk)
    have hperm : (p'.element p.taken :: p.live).Perm ((List.range p'.taken).map p'.element) := by
      rw [hrange']
      exact (List.perm_append_singleton _ _).symm.trans (helements.append_right _)
    subst hp'
    refine ⟨hsizes, htable, fun hneg => absurd hneg (by simp [Pool.hand]), ?_, h.links, h.sound⟩
    rw [List.append_nil]
    exact hperm

/-! ## Steps -/

/-- What the caller and `malloc` promise: an element that is freed is live,
the application writes to its elements, and a new block is apart from the
old ones. -/
def Pool.Allowed (p : Pool) : Event → Prop
  | .malloc m => p.freed = 0 → p.used + 1 = p.blockSize → p.mallocs → p.FreshBlock m
  | .free ptr => ptr ∈ p.live
  | .freeAll => True
  | .write a _ => ∃ x ∈ p.live, x ≤ a ∧ a < x + p.elementSize

/-- No block is begun after 2^31 of them. -/
def Pool.InRange (p : Pool) : Event → Prop
  | .malloc _ => p.freed = 0 → p.used + 1 = p.blockSize → p.block < int32Max
  | _ => True

/-- A byte of a live element is in no link. -/
theorem links_write {free : List Nat} (h : p.Inv free) {x a : Nat} (hx : x ∈ p.live) (hle : x ≤ a)
    (hlt : a < x + p.elementSize) (b : UInt8) :
    Linked (load pointerSize (Function.update p.mem a b)) p.freed free := by
  refine h.links.congr fun y hy => load_congr fun i hi hi' => ?_
  have hapart := (List.pairwise_append.mp (apart_elements h)).2.2 x hx y hy
  have hbyte := hapart.byte hle hlt
  have hptr := h.sizes.pointer
  exact Function.update_of_ne (by omega) _ _

theorem freed_lt {free : List Nat} (h : p.Inv free) : p.freed < 256 ^ pointerSize := by
  by_cases hfreed : p.freed = 0
  · rw [hfreed]
    decide
  · obtain ⟨rest, rfl, -⟩ := h.links.exists_cons hfreed
    obtain ⟨b, hb, hne, -, hle⟩ :=
      inside_elements h (List.mem_append_right p.live List.mem_cons_self)
    have hbound := h.table.bounded b hb hne
    have hptr := h.sizes.pointer
    unfold pointerSize at hptr hbound ⊢
    omega

theorem inv_free {free : List Nat} (h : p.Inv free) {ptr : Nat} (hptr : ptr ∈ p.live) :
    ({ poolFree p ptr with live := p.live.erase ptr } : Pool).Inv (ptr :: free) := by
  obtain ⟨b, -, hne, hle, -⟩ := inside_elements h (List.mem_append_left free hptr)
  refine ⟨h.sizes, h.table, h.start, ?_, ⟨rfl, by omega, ?_⟩, h.sound⟩
  · refine List.Perm.trans ?_ h.elements
    exact List.perm_middle.trans ((List.perm_cons_erase hptr).symm.append_right free)
  · change Linked _ (load pointerSize (store pointerSize p.mem ptr p.freed) ptr) free
    rw [load_store (freed_lt h)]
    refine h.links.congr fun y hy => load_store_of_apart ?_
    have hapart := (List.pairwise_append.mp (apart_elements h)).2.2 ptr hptr y hy
    have hsize := h.sizes.pointer
    unfold Apart at hapart
    omega

theorem poolFreeAll_eq (hs : Sizes p.elementSize p.blockSize p.used) :
    poolFreeAll p = { p with used := p.blockSize - 1, block := -1, freed := 0, live := [] } := by
  have hpos := hs.pos
  have hprod := hs.product
  have hbound : p.blockSize ≤ p.elementSize * p.blockSize :=
    Nat.le_mul_of_pos_left _ (Nat.lt_of_lt_of_le (by decide) hs.pointer)
  have hsub : p.blockSize + uint32Size - 1 = p.blockSize - 1 + uint32Size := by omega
  unfold poolFreeAll
  rw [hsub, Nat.add_mod_right, Nat.mod_eq_of_lt (by omega)]

theorem inv_freeAll {free : List Nat} (h : p.Inv free) : (poolFreeAll p).Inv [] := by
  have hpos := h.sizes.pos
  have hindex := h.table.index
  rw [poolFreeAll_eq h.sizes]
  refine ⟨⟨h.sizes.pointer, hpos, h.sizes.product, ?_⟩, ⟨h.table.size, h.table.length, ?_, ?_,
    h.table.apart, h.table.bounded⟩, fun _ => ?_, List.Perm.refl _, rfl, h.sound⟩
  · exact Nat.sub_lt hpos Nat.one_pos
  · dsimp only
    omega
  · intro i hi
    dsimp only at hi
    omega
  · exact Nat.sub_add_cancel hpos

theorem poolMalloc_fresh (m : Nat) (hfreed : p.freed = 0) :
    poolMalloc p m = (p.advance m).current :=
  if_neg (not_not.mpr hfreed)

theorem poolMalloc_recycle (m : Nat) (hfreed : p.freed ≠ 0) :
    poolMalloc p m = (some p.freed, { p with freed := load pointerSize p.mem p.freed }) :=
  if_pos hfreed

/-- The pool after a step, with the elements of its list. -/
theorem inv_step {free : List Nat} {e : Event} (h : p.Inv free) (hallowed : p.Allowed e)
    (hrange : p.InRange e) : ∃ free', (step p e).Inv free' := by
  unfold step
  rw [if_neg (by simp [h.sound])]
  cases e with
  | malloc m =>
    dsimp only
    by_cases hfreed : p.freed = 0
    · have hnil : free = [] := (hfreed ▸ h.links).eq_nil
      subst hnil
      rw [poolMalloc_fresh m hfreed]
      by_cases hin : p.used + 1 = p.blockSize
      · obtain ⟨ptr, n, blocksUsed, extra, -, hands⟩ :=
          hands_begin h hin (hrange hfreed hin) (hallowed hfreed hin)
        rw [hands.eq]
        exact ⟨[], hands.inv⟩
      · obtain ⟨ptr, hands⟩ := hands_next (m := m) h hin
        rw [hands.eq]
        exact ⟨[], hands.inv⟩
    · rw [poolMalloc_recycle m hfreed]
      exact inv_recycle h hfreed
  | free ptr => exact ⟨_, inv_free h hallowed⟩
  | freeAll => exact ⟨[], inv_freeAll h⟩
  | write a b =>
    obtain ⟨x, hx, hle, hlt⟩ := hallowed
    exact ⟨free, h.sizes, h.table, h.start, h.elements, links_write h hx hle hlt b, h.sound⟩

/-! ## Runs -/

structure Pool.Sound (p : Pool) : Prop where
  running : p.faulted = false
  /-- every live element is in a block -/
  inside : ∀ x ∈ p.live, p.Inside x
  /-- no two live elements overlap -/
  apart : p.live.Pairwise (Apart p.elementSize)
  /-- the list of the freed elements has none twice, and no live one -/
  freed : ∃ free, Linked (load pointerSize p.mem) p.freed free ∧ free.Nodup ∧
    ∀ x ∈ free, x ∉ p.live

theorem sound_of_inv {free : List Nat} (h : p.Inv free) : p.Sound := by
  obtain ⟨hlive, hfree, hboth⟩ := List.pairwise_append.mp (apart_elements h)
  have hpos : 0 < p.elementSize := Nat.lt_of_lt_of_le (by decide) h.sizes.pointer
  have hirrefl (x : Nat) : ¬ Apart p.elementSize x x := by
    unfold Apart
    omega
  have hne {x y : Nat} (hxy : Apart p.elementSize x y) : x ≠ y := by
    rintro rfl
    exact hirrefl x hxy
  have hnodup : free.Nodup := hfree.imp hne
  exact ⟨h.sound, fun x hx => inside_elements h (List.mem_append_left free hx), hlive, free,
    h.links, hnodup, fun x hx hmem => hirrefl x (hboth x hmem x hx)⟩

theorem inv_poolInitialize {elementSize blockSize : Nat} (hpos : 1 ≤ blockSize)
    (hprod : max elementSize pointerSize * blockSize < uint32Size) (mem : Nat → UInt8) :
    (poolInitialize elementSize blockSize mem).Inv [] := by
  unfold poolInitialize
  rw [poolFreeAll_eq (by exact ⟨Nat.le_max_right _ _, hpos, hprod, hpos⟩)]
  have hentry (i b : Nat) (hb : (List.replicate poolBlocksInitial 0)[i]? = some b) : b = 0 :=
    List.eq_of_mem_replicate (List.mem_of_getElem? hb)
  refine ⟨⟨Nat.le_max_right _ _, hpos, hprod, Nat.sub_lt hpos Nat.one_pos⟩, ⟨⟨0, by decide, rfl⟩,
    rfl, ⟨Int.le_refl _, Int.lt_add_one_of_le (Int.negSucc_le_zero 0)⟩, ?_, ?_, ?_⟩,
    fun _ => Nat.sub_add_cancel hpos, List.Perm.refl _, rfl, rfl⟩
  · intro i hi
    dsimp only at hi
    omega
  · intro i j b c _ hb _ hne _
    exact absurd (hentry i b hb) hne
  · intro b hb hne
    exact absurd (List.eq_of_mem_replicate hb) hne

/-- In every state of every run in which no block is begun after 2^31 of
them. -/
theorem sound_of_inRange {elementSize blockSize : Nat} (hpos : 1 ≤ blockSize)
    (hprod : max elementSize pointerSize * blockSize < uint32Size) (mem : Nat → UInt8)
    {events : List Event}
    (hallowed : Along step Pool.Allowed (poolInitialize elementSize blockSize mem) events)
    (hrange : Along step Pool.InRange (poolInitialize elementSize blockSize mem) events) :
    (run step (poolInitialize elementSize blockSize mem) events).Sound := by
  obtain ⟨free, hinv⟩ := run_invariant (I := fun p => ∃ free, Pool.Inv p free)
    (fun p e ⟨free, h⟩ ⟨hc, hr⟩ => inv_step h hc hr) (hallowed.and hrange)
    ⟨[], inv_poolInitialize hpos hprod mem⟩
  exact sound_of_inv hinv

instance (p : Pool) (e : Event) : Decidable (p.Allowed e) := by
  cases e <;> dsimp only [Pool.Allowed] <;> infer_instance

instance (p : Pool) (e : Event) : Decidable (p.InRange e) := by
  cases e <;> dsimp only [Pool.InRange] <;> infer_instance

/-- Three elements of blocks of two, one of them freed and handed out
again. -/
theorem sound_fourElements :
    (run step (poolInitialize 4 2 fun _ => 0)
      [.malloc 64, .malloc 0, .malloc 96, .write 72 255, .free 72, .free 64, .malloc 0]).Sound :=
  sound_of_inRange (by decide) (by decide) _ (by decide +kernel) (by decide +kernel)

/-! ## Too many blocks -/

/-- Elements of eight bytes in blocks of one, each block behind the last
one. -/
def oneByOne (k : Nat) : List Event := (List.range k).map fun i => .malloc (8 * (i + 1))

/-- `k` elements have been handed out. -/
structure Pool.Filled (p : Pool) (k : Nat) : Prop where
  inv : p.Inv []
  elementSize : p.elementSize = 8
  blockSize : p.blockSize = 1
  freed : p.freed = 0
  block : p.block = k - 1
  blocks : ∀ b ∈ p.blocks, b ≤ 8 * k

theorem filled_used {k : Nat} (h : p.Filled k) : p.used + 1 = p.blockSize := by
  have hlt := h.inv.sizes.lt
  have hone := h.blockSize
  omega

theorem filled_allowed {k : Nat} (h : p.Filled k) (hk : k ≤ 2147483648) :
    p.Allowed (.malloc (8 * (k + 1))) := by
  intro _ _ _
  have hbytes : p.blockBytes = 8 := by rw [Pool.blockBytes, h.elementSize, h.blockSize]
  refine ⟨by omega, ?_, fun b hb _ => ?_⟩
  · rw [hbytes, pointerSize]
    omega
  · have hle := h.blocks b hb
    unfold Apart
    omega

theorem filled_step {k : Nat} (h : p.Filled k) (hk : k < 2147483648) :
    (step p (.malloc (8 * (k + 1)))).Filled (k + 1) := by
  have hblock := h.block
  have hallowed := filled_allowed h (Nat.le_of_lt hk) h.freed (filled_used h)
  obtain ⟨ptr, n, blocksUsed, extra, hn, hands⟩ :=
    hands_begin h.inv (filled_used h) (by unfold int32Max; omega) hallowed
  have hstep : step p (.malloc (8 * (k + 1))) = ({ p with
      used := 0, block := n, blocksUsed := blocksUsed,
      blocks := filledBlocks (p.blocks ++ List.replicate extra 0) n (8 * (k + 1)) } : Pool).hand
        ptr := by
    unfold step
    rw [if_neg (by simp [h.inv.sound])]
    dsimp only
    rw [poolMalloc_fresh _ h.freed, hands.eq]
    rfl
  rw [hstep]
  refine ⟨hands.inv, h.elementSize, h.blockSize, h.freed, ?_, fun b hb => ?_⟩
  · simp only [Pool.hand]
    omega
  · obtain ⟨i, hi⟩ := List.mem_iff_getElem?.mp hb
    by_cases hne : b = 0
    · omega
    · rcases filledBlocks_cases hi hne with hold | ⟨-, hm, -⟩
      · have hle := h.blocks b (List.mem_of_getElem? hold)
        omega
      · omega

theorem oneByOne_succ (k : Nat) : oneByOne (k + 1) = oneByOne k ++ [.malloc (8 * (k + 1))] := by
  unfold oneByOne
  rw [List.range_succ, List.map_append, List.map_singleton]

theorem filled_run {k : Nat} (hk : k ≤ 2147483648) (mem : Nat → UInt8) :
    Along step Pool.Allowed (poolInitialize 8 1 mem) (oneByOne k) ∧
      (run step (poolInitialize 8 1 mem) (oneByOne k)).Filled k := by
  induction k with
  | zero =>
    refine ⟨trivial, inv_poolInitialize (by decide) (by decide) mem, rfl, rfl, rfl, rfl, ?_⟩
    intro b hb
    exact Nat.le_of_eq (List.eq_of_mem_replicate hb)
  | succ k ih =>
    obtain ⟨halong, hfilled⟩ := ih (by omega)
    rw [oneByOne_succ, along_append, run_append]
    exact ⟨⟨halong, filled_allowed hfilled (by omega), trivial⟩, filled_step hfilled (by omega)⟩

/-- `++block` overflows. -/
theorem faulted_step {k : Nat} (h : p.Filled k) (hk : k = 2147483648) (m : Nat) :
    (step p (.malloc m)).faulted = true := by
  have hused := filled_used h
  have hone := h.blockSize
  have hmod : (p.used + 1) % uint32Size = p.blockSize := by
    rw [hused, hone]
    rfl
  have hblock : p.block = int32Max := by
    rw [h.block, hk]
    rfl
  have hadvance : p.advance m = { p with faulted := true } := by
    unfold Pool.advance
    dsimp only
    rw [hmod, if_pos (by simp), if_pos (by simp [hblock])]
  unfold step
  rw [if_neg (by simp [h.inv.sound])]
  dsimp only
  rw [poolMalloc_fresh m h.freed, hadvance]
  rfl

theorem faulted_run {k : Nat} (hk : k = 2147483648) (mem : Nat → UInt8) :
    Along step Pool.Allowed (poolInitialize 8 1 mem) (oneByOne (k + 1)) ∧
      ¬ (run step (poolInitialize 8 1 mem) (oneByOne (k + 1))).Sound := by
  obtain ⟨halong, hfilled⟩ := filled_run (Nat.le_of_eq hk) mem
  rw [oneByOne_succ, along_append, run_append]
  refine ⟨⟨halong, filled_allowed hfilled (Nat.le_of_eq hk), trivial⟩, fun hsound => ?_⟩
  have hrunning := hsound.running
  rw [run_cons, run_nil, faulted_step hfilled hk] at hrunning
  exact absurd hrunning (by decide)

/-- The block after 2^31 of them has no index. -/
theorem faulted_manyBlocks :
    Along step Pool.Allowed (poolInitialize 8 1 fun _ => 0) (oneByOne (2147483648 + 1)) ∧
      ¬ (run step (poolInitialize 8 1 fun _ => 0) (oneByOne (2147483648 + 1))).Sound :=
  faulted_run rfl _

end Training.ElementPool
