/-
Training.Lib.Tiling — the chunks an allocator cuts its memory into.

`Tiles a cs e` says that the chunks `cs` lie end to end from the address
`a` to `e`. Chunks in the middle may be exchanged for others that tile
the same stretch (`Tiles.replace`): one chunk for two, two for one, a free
one for a used one. They lie in the order of their addresses
(`Tiles.ordered`), apart from each other (`Tiles.apart`).

`account f cs` adds up `f` over the sizes of the used chunks.
-/
import Mathlib.Algebra.Ring.Nat
import Mathlib.Data.List.Nodup
import Mathlib.Data.List.Pairwise
import Mathlib.Data.List.Perm.Basic
import Mathlib.Tactic.Common

namespace Training.Lib.Tiling

structure Chunk where
  addr : Nat
  size : Nat
  free : Bool
deriving DecidableEq, Repr

/-- The first address behind the chunk. -/
def Chunk.stop (c : Chunk) : Nat := c.addr + c.size

variable {a b e m n : Nat} {c d : Chunk} {cs ds mid mid' pre post : List Chunk} {f : Nat → Nat}

/-! ## Tilings -/

def Tiles : Nat → List Chunk → Nat → Prop
  | a, [], e => a = e
  | a, c :: cs, e => c.addr = a ∧ Tiles c.stop cs e

@[simp] theorem tiles_nil : Tiles a [] e ↔ a = e := Iff.rfl

@[simp] theorem tiles_cons : Tiles a (c :: cs) e ↔ c.addr = a ∧ Tiles c.stop cs e := Iff.rfl

theorem tiles_append : Tiles a (cs ++ ds) e ↔ ∃ b, Tiles a cs b ∧ Tiles b ds e := by
  induction cs generalizing a with
  | nil => simp
  | cons c cs ih => simp [ih, and_assoc]

theorem Tiles.le (h : Tiles a cs e) : a ≤ e := by
  induction cs generalizing a with
  | nil => exact Nat.le_of_eq h
  | cons c cs ih =>
    have hrest := ih h.2
    have hfirst := h.1
    unfold Chunk.stop at hrest
    omega

theorem Tiles.bounds (h : Tiles a cs e) (hc : c ∈ cs) : a ≤ c.addr ∧ c.stop ≤ e := by
  obtain ⟨pre, post, rfl⟩ := List.append_of_mem hc
  obtain ⟨b, hpre, hfirst, hpost⟩ := tiles_append.mp h
  exact ⟨hfirst ▸ hpre.le, hpost.le⟩

/-- The chunks in the middle are exchanged. -/
theorem Tiles.replace (h : Tiles a (pre ++ (mid ++ post)) e)
    (hmid : ∀ b n, Tiles b mid n → Tiles b mid' n) : Tiles a (pre ++ (mid' ++ post)) e := by
  obtain ⟨b, hpre, hrest⟩ := tiles_append.mp h
  obtain ⟨n, hmiddle, hpost⟩ := tiles_append.mp hrest
  exact tiles_append.mpr ⟨b, hpre, tiles_append.mpr ⟨n, hmid b n hmiddle, hpost⟩⟩

/-- A chunk gets another flag. -/
theorem Tiles.relabel (h : Tiles a (pre ++ c :: post) e) (haddr : d.addr = c.addr)
    (hsize : d.size = c.size) : Tiles a (pre ++ d :: post) e := by
  have hone : Tiles a (pre ++ ([c] ++ post)) e := h
  have hstop : d.stop = c.stop := by rw [Chunk.stop, Chunk.stop, haddr, hsize]
  have hnew : Tiles a (pre ++ ([d] ++ post)) e :=
    hone.replace fun b n hc => ⟨haddr.trans hc.1, hstop.trans hc.2⟩
  exact hnew

/-- A chunk is cut in two. -/
theorem Tiles.split (h : Tiles a (pre ++ c :: post) e) (hn : n ≤ c.size) (front back : Bool) :
    Tiles a (pre ++ ⟨c.addr, n, front⟩ :: ⟨c.addr + n, c.size - n, back⟩ :: post) e := by
  have hone : Tiles a (pre ++ ([c] ++ post)) e := h
  have htwo : Tiles a (pre ++ ([⟨c.addr, n, front⟩, ⟨c.addr + n, c.size - n, back⟩] ++ post)) e := by
    refine hone.replace fun b m hc => ⟨hc.1, rfl, ?_⟩
    have hstop : c.addr + n + (c.size - n) = c.stop := by
      unfold Chunk.stop
      omega
    exact hstop.trans hc.2
  exact htwo

/-- Two chunks become one. -/
theorem Tiles.join (h : Tiles a (pre ++ c :: d :: post) e) (flag : Bool) :
    Tiles a (pre ++ ⟨c.addr, c.size + d.size, flag⟩ :: post) e := by
  have htwo : Tiles a (pre ++ ([c, d] ++ post)) e := h
  have hone : Tiles a (pre ++ ([⟨c.addr, c.size + d.size, flag⟩] ++ post)) e := by
    refine htwo.replace fun b m hcd => ⟨hcd.1, ?_⟩
    obtain ⟨-, hd, hm⟩ := hcd
    have hstop : c.addr + (c.size + d.size) = d.stop := by
      unfold Chunk.stop at hd ⊢
      omega
    exact hstop.trans hm
  exact hone

/-- The chunks lie in the order of their addresses. -/
theorem Tiles.ordered (h : Tiles a cs e) : cs.Pairwise fun c d => c.stop ≤ d.addr := by
  induction cs generalizing a with
  | nil => exact .nil
  | cons c cs ih => exact List.pairwise_cons.mpr ⟨fun d hd => (h.2.bounds hd).1, ih h.2⟩

theorem Tiles.link (h : Tiles a (pre ++ c :: d :: post) e) : c.stop = d.addr := by
  obtain ⟨b, -, hrest⟩ := tiles_append.mp h
  exact hrest.2.1.symm

theorem Tiles.before (h : Tiles a (pre ++ c :: post) e) (hd : d ∈ pre) : d.stop ≤ c.addr :=
  (List.pairwise_append.mp h.ordered).2.2 d hd c List.mem_cons_self

theorem Tiles.behind (h : Tiles a (pre ++ c :: post) e) (hd : d ∈ post) : c.stop ≤ d.addr :=
  (List.pairwise_cons.mp (List.pairwise_append.mp h.ordered).2.1).1 d hd

theorem Tiles.apart (h : Tiles a cs e) (hc : c ∈ cs) (hd : d ∈ cs) (hne : c ≠ d) :
    c.stop ≤ d.addr ∨ d.stop ≤ c.addr := by
  have hpair : cs.Pairwise fun c d => c.stop ≤ d.addr ∨ d.stop ≤ c.addr :=
    h.ordered.imp fun hle => Or.inl hle
  have hsymm : Std.Symm fun c d : Chunk => c.stop ≤ d.addr ∨ d.stop ≤ c.addr :=
    ⟨fun _ _ hor => hor.symm⟩
  exact hpair.forall hc hd hne

/-! ## Chunks that have bytes -/

section Sized

variable (h : Tiles a cs e) (hsize : ∀ c ∈ cs, 0 < c.size)
include h hsize

theorem Tiles.eq_of_addr (hc : c ∈ cs) (hd : d ∈ cs) (heq : c.addr = d.addr) : c = d := by
  by_contra hne
  have hapart := h.apart hc hd hne
  have hcpos := hsize c hc
  have hdpos := hsize d hd
  unfold Chunk.stop at hapart
  omega

theorem Tiles.eq_of_stop (hc : c ∈ cs) (hd : d ∈ cs) (heq : c.stop = d.stop) : c = d := by
  by_contra hne
  have hapart := h.apart hc hd hne
  have hcpos := hsize c hc
  have hdpos := hsize d hd
  unfold Chunk.stop at hapart heq
  omega

theorem Tiles.nodup_addr : (cs.map Chunk.addr).Nodup := by
  refine List.pairwise_map.mpr (h.ordered.imp_of_mem fun {c d} hc hd hle => ?_)
  have hpos := hsize c hc
  unfold Chunk.stop at hle
  omega

theorem Tiles.nodup : cs.Nodup := List.Nodup.of_map Chunk.addr (h.nodup_addr hsize)

end Sized

/-- Chunks of `m` bytes or more are few. -/
theorem Tiles.length_le (h : Tiles a cs e) (hsize : ∀ c ∈ cs, m ≤ c.size) :
    a + m * cs.length ≤ e := by
  induction cs generalizing a with
  | nil => simpa using Nat.le_of_eq h
  | cons c cs ih =>
    have hrest := ih h.2 fun d hd => hsize d (List.mem_cons_of_mem _ hd)
    have hfirst := hsize c List.mem_cons_self
    have haddr := h.1
    unfold Chunk.stop at hrest
    rw [List.length_cons, Nat.mul_add_one]
    omega

/-! ## Accounts -/

def freeOnes (cs : List Chunk) : List Chunk := cs.filter fun c => c.free

def usedOnes (cs : List Chunk) : List Chunk := cs.filter fun c => !c.free

def account (f : Nat → Nat) (cs : List Chunk) : Nat := ((usedOnes cs).map fun c => f c.size).sum

@[simp] theorem freeOnes_append : freeOnes (cs ++ ds) = freeOnes cs ++ freeOnes ds :=
  List.filter_append _ _

@[simp] theorem usedOnes_append : usedOnes (cs ++ ds) = usedOnes cs ++ usedOnes ds :=
  List.filter_append _ _

theorem freeOnes_cons_free (hc : c.free = true) : freeOnes (c :: cs) = c :: freeOnes cs :=
  List.filter_cons_of_pos hc

theorem freeOnes_cons_used (hc : c.free = false) : freeOnes (c :: cs) = freeOnes cs :=
  List.filter_cons_of_neg (by simp [hc])

theorem usedOnes_cons_free (hc : c.free = true) : usedOnes (c :: cs) = usedOnes cs :=
  List.filter_cons_of_neg (by simp [hc])

theorem usedOnes_cons_used (hc : c.free = false) : usedOnes (c :: cs) = c :: usedOnes cs :=
  List.filter_cons_of_pos (by simp [hc])

theorem mem_freeOnes : c ∈ freeOnes cs ↔ c ∈ cs ∧ c.free = true := List.mem_filter

theorem mem_usedOnes : c ∈ usedOnes cs ↔ c ∈ cs ∧ c.free = false := by
  simp [usedOnes, List.mem_filter]

@[simp] theorem account_append : account f (cs ++ ds) = account f cs + account f ds := by
  simp [account]

theorem account_cons_free (hc : c.free = true) : account f (c :: cs) = account f cs := by
  rw [account, usedOnes_cons_free hc, account]

theorem account_cons_used (hc : c.free = false) :
    account f (c :: cs) = f c.size + account f cs := by
  rw [account, usedOnes_cons_used hc, List.map_cons, List.sum_cons, account]

/-- A free chunk comes to be used. -/
theorem account_relabel (f : Nat → Nat) (pre post : List Chunk) (hc : c.free = true)
    (hd : d.free = false) :
    account f (pre ++ d :: post) = account f (pre ++ c :: post) + f d.size := by
  rw [account_append, account_append, account_cons_used hd, account_cons_free hc]
  omega

/-- The used chunks have at most the bytes of all. -/
theorem Tiles.account_le (h : Tiles a cs e) (hf : ∀ n, f n ≤ n) : a + account f cs ≤ e := by
  induction cs generalizing a with
  | nil => exact Nat.le_of_eq h
  | cons c cs ih =>
    have hrest := ih h.2
    have haddr := h.1
    have hle := hf c.size
    unfold Chunk.stop at hrest
    cases hfree : c.free with
    | true =>
      rw [account_cons_free hfree]
      omega
    | false =>
      rw [account_cons_used hfree]
      omega

end Training.Lib.Tiling
