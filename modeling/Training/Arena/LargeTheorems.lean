/-
Training.Arena.LargeTheorems — every large block is in one record until it
is released.

What is allocated is what the records have, the nodes and the pool
(`Book.Inv`), after every call whose records fit into their nodes. The only
part of the interface that fails is the end of `mp_alloc_large`, which
returns nothing: a request is answered exactly when it finds a record that
was emptied (`large_blocks_iff`).
-/
import Training.Arena.Large

namespace Training.Arena

open Training.Lib
open Training.Lib.Ledger (addresses addresses_cons)

variable {pool pool' : Pool} {b : Book} {size i : Nat} {lm : Option Nat} {m : Option Fresh}

structure Book.Inv (b : Book) : Prop where
  pool : b.pool.Inv
  held : b.ledger.held.Perm (addresses b.pool.allocs ++ b.pool.memories)
  nodup : b.ledger.held.Nodup
  null : 0 ∉ b.ledger.held
  calls : b.ledger.bad = false

/-! ## Nodes -/

theorem memories_congr (h : pool'.nodes.map Node.addr = pool.nodes.map Node.addr) :
    pool'.memories = pool.memories := by
  unfold Pool.memories
  cases hnodes' : pool'.nodes with
  | nil =>
    rw [hnodes', List.map_nil, eq_comm, List.map_eq_nil_iff] at h
    rw [h]
  | cons head' rest' =>
    cases hnodes : pool.nodes with
    | nil => simp [hnodes, hnodes'] at h
    | cons head rest =>
      rw [hnodes, hnodes', List.map_cons, List.map_cons, List.cons.injEq] at h
      simp only [h.1, h.2]

theorem addrs_set {n : Node} (hn : pool.nodes[i]? = some n) (last : Nat) :
    (pool.nodes.set i { n with last }).map Node.addr = pool.nodes.map Node.addr := by
  refine List.ext_getElem? fun j => ?_
  rw [List.map_set, List.getElem?_set]
  split
  case isTrue hij =>
    subst hij
    obtain ⟨hlt, rfl⟩ := List.getElem?_eq_some_iff.mp hn
    simp [hlt]
  case isFalse => rfl

theorem addrs_eq_spans (pool : Pool) : pool.nodes.map Node.addr = pool.spans.map Span.addr := by
  simp [Pool.spans, Node.span]

/-- A new node is one address more. -/
theorem memories_extends {f : Fresh} (h : pool.Inv) (hext : pool.Extends size f pool') :
    pool'.memories.Perm (f.addr :: pool.memories) := by
  have haddrs : pool'.nodes.map Node.addr = pool.nodes.map Node.addr ++ [f.addr] := by
    rw [addrs_eq_spans, addrs_eq_spans, hext.spans, List.map_append]
    rfl
  have hcurrent := h.current
  unfold Pool.memories
  match hnodes : pool.nodes, hnodes' : pool'.nodes with
  | [], _ => exact absurd hcurrent (by simp [hnodes])
  | _ :: _, [] => simp [hnodes, hnodes'] at haddrs
  | head :: rest, head' :: rest' =>
    simp only [hnodes, hnodes', List.map_cons, List.cons_append, List.cons.injEq] at haddrs
    obtain ⟨hhead, hrest⟩ := haddrs
    dsimp only
    rw [hrest, hhead, List.append_assoc]
    exact List.perm_middle

/-! ## Records -/

theorem exists_modify {large : List Large} {l : Large} (h : large[i]? = some l)
    (f : Large → Large) :
    ∃ before after, large = before ++ l :: after ∧ large.modify i f = before ++ f l :: after := by
  induction large generalizing i with
  | nil => simp at h
  | cons l' large ih =>
    cases i with
    | zero =>
      obtain rfl : l' = l := by simpa using h
      exact ⟨[], large, rfl, rfl⟩
    | succ i =>
      obtain ⟨before, after, hlarge, hmodify⟩ := ih (by simpa using h)
      exact ⟨l' :: before, after, by rw [hlarge]; rfl, by simp [hmodify]⟩

theorem exists_of_findIdx? {large : List Large} {p : Large → Bool} (h : large.findIdx? p = some i) :
    ∃ l, large[i]? = some l ∧ p l = true := by
  obtain ⟨hlt, hp, -⟩ := List.findIdx?_eq_some_iff_getElem.mp h
  exact ⟨_, List.getElem?_eq_getElem hlt, hp⟩

theorem exists_of_emptyLarge {large : List Large} (h : emptyLarge large = some i) :
    ∃ l, large[i]? = some l ∧ l.alloc = 0 := by
  obtain ⟨l, hl, hempty⟩ := exists_of_findIdx? h
  refine ⟨l, ?_, by simpa using hempty⟩
  rw [List.getElem?_take] at hl
  split at hl
  · exact hl
  · cases hl

/-! ## Requests -/

/-- What the pool owns. -/
def Pool.owned (pool : Pool) : List Nat := addresses pool.allocs ++ pool.memories

theorem owned_extends {f : Fresh} (h : pool.Inv) (hext : pool.Extends size f pool') :
    pool'.owned.Perm (f.addr :: pool.owned) := by
  have hallocs : pool'.allocs = pool.allocs := congrArg (List.map Large.alloc) hext.large
  unfold Pool.owned
  rw [hallocs]
  exact ((memories_extends h hext).append_left _).trans List.perm_middle

/-- A block in a record that was empty. -/
theorem owned_store {p : Nat} (hp : p ≠ 0) (h : emptyLarge pool.large = some i) :
    ({ pool with large := pool.large.modify i fun l => { l with alloc := p } } : Pool).owned.Perm
      (p :: pool.owned) := by
  obtain ⟨l, hl, hempty⟩ := exists_of_emptyLarge h
  obtain ⟨before, after, hlarge, hmodify⟩ := exists_modify hl fun l => { l with alloc := p }
  simp only [Pool.owned, Pool.allocs, hmodify]
  rw [hlarge]
  simp only [List.map_append, List.map_cons, hempty, Ledger.addresses_append,
    Ledger.addresses_zero, addresses_cons hp]
  exact List.Perm.append_right _ List.perm_middle

/-- A record in front of the others. -/
theorem owned_cons {p addr : Nat} (hp : p ≠ 0) :
    ({ pool with large := ⟨addr, p⟩ :: pool.large } : Pool).owned = p :: pool.owned := by
  simp only [Pool.owned, Pool.allocs, List.map_cons, addresses_cons hp]
  rfl

theorem owned_mpAllocLarge (h : pool.Inv) (hm : ∀ f ∈ m, pool.FreshNode f)
    (hfits : lm.isSome = true → emptyLarge pool.large = none → ∃ f ∈ m, pool.NodeFits largeSize f)
    (hnull : ∀ p ∈ lm, p ≠ 0) :
    (mpAllocLarge pool lm m).2.owned.Perm
      ((lm.toList ++ if lm.isSome && (emptyLarge pool.large).isNone then (m.map Fresh.addr).toList
        else []) ++ pool.owned) := by
  cases lm with
  | none => exact List.Perm.refl _
  | some p =>
    have hp := hnull p rfl
    simp only [mpAllocLarge]
    cases hempty : emptyLarge pool.large with
    | some i => exact owned_store hp hempty
    | none =>
      obtain ⟨f, hf, -⟩ := hfits rfl hempty
      obtain ⟨pool', heq, hext⟩ := mpAllocSmall_spec largeSize h (hm f hf)
      obtain rfl : m = some f := hf
      simp only [heq, owned_cons hp]
      exact (owned_extends h hext).cons p

theorem owned_mpMalloc (h : pool.Inv) (hm : ∀ f ∈ m, pool.FreshNode f)
    (hfits : pool.FitsMalloc size lm m) (hnull : ∀ p ∈ mpMallocTakes pool size lm m, p ≠ 0) :
    (mpMalloc pool size lm m).2.owned.Perm (mpMallocTakes pool size lm m ++ pool.owned) := by
  unfold Pool.FitsMalloc at hfits
  unfold mpMallocTakes at hnull ⊢
  unfold mpMalloc
  split
  case isTrue hlarge =>
    rw [if_pos hlarge] at hfits hnull
    exact owned_mpAllocLarge h hm hfits fun p hp =>
      hnull p (List.mem_append_left _ (Option.mem_toList.mpr hp))
  case isFalse hsmall =>
    cases hroom : pool.room size with
    | some i =>
      dsimp only
      cases hnode : pool.nodes[i]? with
      | none => exact List.Perm.refl _
      | some n =>
        exact List.Perm.of_eq
          (congrArg (addresses pool.allocs ++ ·) (memories_congr (addrs_set hnode _)))
    | none =>
      dsimp only
      rw [if_neg (not_not.mpr h.tail)]
      cases m with
      | none => exact List.Perm.refl _
      | some f =>
        obtain ⟨pool', heq, hext⟩ := mpAllocSmall_spec size h (hm f rfl)
        rw [heq]
        exact owned_extends h hext

/-! ## Releases -/

/-- Either nothing has the address, or the first record with it is emptied. -/
theorem mpFree_cases (pool : Pool) (p : Nat) :
    mpFree pool p = pool ∧ mpFreeFrees pool p = [] ∧ p ∉ pool.allocs ∨
      mpFreeFrees pool p = [p] ∧ ∃ before l after, pool.large = before ++ l :: after ∧
        l.alloc = p ∧ (mpFree pool p).large = before ++ { l with alloc := 0 } :: after ∧
        (mpFree pool p).memories = pool.memories := by
  unfold mpFree mpFreeFrees
  cases hfind : pool.large.findIdx? fun l => l.alloc == p with
  | none =>
    have hnone := List.findIdx?_eq_none_iff.mp hfind
    refine .inl ⟨rfl, if_neg ?_, ?_⟩
    · simpa using hnone
    · rintro hmem
      obtain ⟨l, hl, rfl⟩ := List.mem_map.mp hmem
      simpa using hnone l hl
  | some i =>
    obtain ⟨l, hl, hp⟩ := exists_of_findIdx? hfind
    obtain ⟨before, after, hlarge, hmodify⟩ := exists_modify hl fun l => { l with alloc := 0 }
    have hany : pool.large.any fun l => l.alloc == p :=
      List.any_eq_true.mpr ⟨l, List.mem_of_getElem? hl, hp⟩
    exact .inr ⟨if_pos hany, before, l, after, hlarge, by simpa using hp, hmodify, rfl⟩

theorem owned_mpFree (pool : Pool) (p : Nat) :
    pool.owned.Perm (addresses (mpFreeFrees pool p) ++ (mpFree pool p).owned) := by
  rcases mpFree_cases pool p with
    ⟨hpool, hfrees, -⟩ | ⟨hfrees, before, l, after, hlarge, hp, hfree, hmem⟩
  · rw [hpool, hfrees]
    exact List.Perm.refl _
  · unfold Pool.owned Pool.allocs
    rw [hfrees, hfree, hmem, hlarge]
    by_cases hnull : p = 0
    · simp [hp, hnull]
    · simp only [List.map_append, List.map_cons, hp, Ledger.addresses_append, addresses_cons hnull,
        Ledger.addresses_zero, Ledger.addresses_nil]
      exact List.Perm.append_right _ List.perm_middle

theorem owned_mpResetPool (h : pool.Inv) :
    (mpResetPool pool).allocs = [] ∧ (mpResetPool pool).memories = pool.memories := by
  unfold mpResetPool
  rw [if_neg (not_not.mpr h.tail)]
  refine ⟨rfl, memories_congr ?_⟩
  rw [List.map_map]
  rfl

/-! ## Steps -/

theorem Book.Inv.take {takes : List Nat} (h : b.Inv) (hpool : pool'.Inv)
    (howned : pool'.owned.Perm (takes ++ b.pool.owned)) (hdistinct : takes.Nodup)
    (hfresh : ∀ p ∈ takes, p ≠ 0 ∧ p ∉ b.ledger.held) :
    Book.Inv { pool := pool', ledger := b.ledger.alloc takes } where
  pool := hpool
  held := (h.held.append_left takes).trans howned.symm
  nodup := List.nodup_append.mpr ⟨hdistinct, h.nodup, fun p hp q hq hpq =>
    (hfresh p hp).2 (hpq ▸ hq)⟩
  null hnull := by
    rcases List.mem_append.mp hnull with htake | hheld
    · exact (hfresh 0 htake).1 rfl
    · exact h.null hheld
  calls := h.calls

theorem Book.Inv.release {calls : List Nat} (h : b.Inv) (hpool : pool'.Inv)
    (howned : b.pool.owned.Perm (addresses calls ++ pool'.owned)) :
    Book.Inv { pool := pool', ledger := b.ledger.freeAll calls } := by
  have hperm : b.ledger.held.Perm (addresses calls ++ pool'.owned) := h.held.trans howned
  obtain ⟨hheld, hbad⟩ := Ledger.freeAll_spec hperm
  have hmem : ∀ p, p ∈ (b.ledger.freeAll calls).held → p ∈ b.ledger.held := fun p hp =>
    hperm.mem_iff.mpr (List.mem_append_right _ (hheld.mem_iff.mp hp))
  exact ⟨hpool, hheld, hheld.nodup_iff.mpr (List.nodup_append.mp (hperm.nodup_iff.mp h.nodup)).2.1,
    fun hnull => h.null (hmem 0 hnull), hbad.trans h.calls⟩

theorem Book.Inv.sound (h : b.Inv) : b.Sound := by
  have hnodup := h.held.nodup_iff.mp h.nodup
  have hmemories : addresses b.pool.memories = b.pool.memories := by
    refine List.filter_eq_self.mpr fun p hp => decide_eq_true fun hnull => h.null ?_
    exact h.held.mem_iff.mpr (List.mem_append_right _ (hnull ▸ hp))
  refine ⟨(List.nodup_append.mp hnodup).1, fun p hp => ?_, ?_, h.calls⟩
  · exact h.held.mem_iff.mpr (List.mem_append_left _ hp)
  · refine ⟨b.pool.allocs ++ b.pool.memories, if_neg (not_not.mpr h.pool.tail), ?_⟩
    rw [Ledger.addresses_append, hmemories]
    exact h.held.symm

theorem Book.step_of_not_faulted (h : b.pool.faulted = false) (e : Event) :
    b.step e = { pool := Arena.step b.pool e,
                 ledger := (b.ledger.alloc (b.pool.takes e)).freeAll (b.pool.frees e) } := by
  rw [Book.step, if_neg (by simp [h])]

/-- A request of `mp_malloc`, or of `mp_calloc` that is answered. -/
theorem Book.Inv.malloc (h : b.Inv) (hplaced : b.Placed (.malloc size lm m))
    (hfits : b.pool.FitsMalloc size lm m) : (b.step (.malloc size lm m)).Inv := by
  have hsound := h.pool.sound
  rw [Book.step_of_not_faulted hsound, Arena.step, if_neg (by simp [hsound])]
  exact h.take (inv_mpMalloc h.pool hplaced.nodes hfits)
    (owned_mpMalloc h.pool hplaced.nodes hfits fun p hp => (hplaced.fresh p hp).1)
    hplaced.distinct hplaced.fresh

theorem Book.Inv.calloc (h : b.Inv) (hplaced : b.Placed (.calloc size lm m))
    (hfits : b.pool.FitsMalloc size lm m) (hreuses : b.Reuses (.calloc size lm m)) :
    (b.step (.calloc size lm m)).Inv := by
  have hsound := h.pool.sound
  have hsame : b.step (.calloc size lm m) = b.step (.malloc size lm m) := by
    rw [Book.step_of_not_faulted hsound, Book.step_of_not_faulted hsound, Arena.step, Arena.step,
      if_neg (by simp [hsound]), if_neg (by simp [hsound])]
    simp only [mpCalloc_eq (mpMalloc_ne_missing hreuses)]
    rfl
  rw [hsame]
  exact h.malloc ⟨hplaced.nodes, hplaced.distinct, hplaced.fresh⟩ hfits

theorem Book.Inv.free (h : b.Inv) (p : Nat) : (b.step (.free p)).Inv := by
  have hsound := h.pool.sound
  have hpool : (mpFree b.pool p).Inv := by
    unfold mpFree
    split
    · exact inv_large h.pool _
    · exact h.pool
  rw [Book.step_of_not_faulted hsound, Arena.step, if_neg (by simp [hsound])]
  exact h.release hpool (owned_mpFree b.pool p)

theorem Book.Inv.reset (h : b.Inv) : (b.step .reset).Inv := by
  have hsound := h.pool.sound
  obtain ⟨hallocs, hmemories⟩ := owned_mpResetPool h.pool
  rw [Book.step_of_not_faulted hsound, Arena.step, if_neg (by simp [hsound])]
  refine h.release (inv_mpResetPool h.pool) ?_
  unfold Pool.owned
  rw [hallocs, hmemories]
  exact List.Perm.refl _

/-! ## What a call returns -/

/-- The end of `mp_alloc_large` is reached where no record was emptied. -/
theorem returns_iff (h : pool.Inv) (hm : ∀ f ∈ m, pool.FreshNode f)
    (hfits : pool.FitsMalloc size lm m) :
    pool.Returns (mpMalloc pool size lm m) size lm ↔
      (pool.max < size → lm.isSome = true → (emptyLarge pool.large).isSome = true) := by
  refine forall_congr' fun hsize => ?_
  cases lm with
  | none => simp
  | some p =>
    unfold Pool.FitsMalloc at hfits
    rw [if_pos hsize] at hfits
    simp only [mpMalloc, gt_iff_lt, hsize, if_true, mpAllocLarge, Option.mem_def,
      Option.some.injEq, forall_eq', Option.isSome_some, true_implies]
    cases hempty : emptyLarge pool.large with
    | none =>
      obtain ⟨f, hf, -⟩ := hfits rfl hempty
      obtain ⟨pool', heq, -⟩ := mpAllocSmall_spec largeSize h (hm f hf)
      obtain rfl : m = some f := hf
      simp [heq]
    | some i =>
      obtain ⟨l, hl, -⟩ := exists_of_emptyLarge hempty
      obtain ⟨before, after, -, hmodify⟩ := exists_modify hl fun l => { l with alloc := p }
      simp [Pool.allocs, hmodify]

/-- A call does its part exactly when it is no request for a large block
that finds no empty record. -/
theorem Book.Inv.right_iff (h : b.Inv) (e : Event) (hplaced : b.Placed e) (hstored : b.Stored e) :
    b.Right e ↔ b.Reuses e := by
  cases e with
  | malloc size lm m =>
    have hiff := returns_iff h.pool hplaced.nodes hstored
    exact ⟨fun hright => hiff.mp hright.keeps,
      fun hreuses => ⟨hiff.mpr hreuses, (h.malloc hplaced hstored).sound⟩⟩
  | calloc size lm m =>
    have hiff := returns_iff h.pool hplaced.nodes hstored
    constructor
    · intro hright
      refine hiff.mp fun hsize p hp => ?_
      obtain ⟨hret, hmem⟩ := hright.keeps hsize p hp
      have hne : (mpMalloc b.pool size lm m).1 ≠ .missing := by
        intro hmissing
        have hcalloc : (mpCalloc b.pool size lm m).1 = .missing := by
          unfold mpCalloc
          split
          · rfl
          · exact hmissing
        rw [hcalloc] at hret
        cases hret
      rw [mpCalloc_eq hne] at hret hmem
      exact ⟨hret, hmem⟩
    · intro hreuses
      refine ⟨?_, (h.calloc hplaced hstored hreuses).sound⟩
      show b.pool.Returns (mpCalloc b.pool size lm m) size lm
      rw [mpCalloc_eq (mpMalloc_ne_missing hreuses)]
      exact hiff.mpr hreuses
  | free p =>
    refine iff_of_true ⟨?_, (h.free p).sound⟩ trivial
    rcases mpFree_cases b.pool p with ⟨-, hfrees, hnone⟩ |
      ⟨hfrees, before, l, after, hlarge, hp, hfree, -⟩
    · exact ⟨fun _ => hfrees, fun _ hmem => absurd hmem hnone⟩
    · refine ⟨fun hnone => absurd ?_ hnone,
        fun _ _ => ⟨hfrees, before, l, after, hlarge, hp, hfree⟩⟩
      unfold Pool.allocs
      rw [hlarge, List.map_append, List.map_cons, hp]
      exact List.mem_append_right _ List.mem_cons_self
  | reset => exact iff_of_true ⟨(owned_mpResetPool h.pool).1, h.reset.sound⟩ trivial

/-! ## Runs -/

theorem mpMalloc_missing (h : pool.Inv) (hm : ∀ f ∈ m, pool.FreshNode f)
    (hfits : pool.FitsMalloc size lm m) (hsize : pool.max < size) (hlm : lm.isSome = true)
    (hempty : emptyLarge pool.large = none) : (mpMalloc pool size lm m).1 = .missing := by
  unfold Pool.FitsMalloc at hfits
  rw [if_pos hsize] at hfits
  obtain ⟨p, rfl⟩ := Option.isSome_iff_exists.mp hlm
  obtain ⟨f, hf, -⟩ := hfits rfl hempty
  obtain ⟨pool', heq, -⟩ := mpAllocSmall_spec largeSize h (hm f hf)
  obtain rfl : m = some f := hf
  simp [mpMalloc, hsize, mpAllocLarge, hempty, heq]

/-- The invariant, until `mp_calloc` clears a block that was not returned. -/
def Book.Running (b : Book) : Prop := b.pool.faulted = true ∨ b.Inv

theorem Book.Running.step (h : b.Running) (e : Event)
    (hc : b.Placed e ∧ b.Stored e) : (b.step e).Running := by
  obtain ⟨hplaced, hstored⟩ := hc
  rcases h with hfaulted | h
  · refine .inl ?_
    rw [Book.step, if_pos hfaulted]
    exact hfaulted
  · cases e with
    | malloc size lm m => exact .inr (h.malloc hplaced hstored)
    | calloc size lm m =>
      by_cases hreuses : b.Reuses (.calloc size lm m)
      · exact .inr (h.calloc hplaced hstored hreuses)
      · simp only [Book.Reuses, Classical.not_imp, Bool.not_eq_true, Option.isSome_eq_false_iff,
          Option.isNone_iff_eq_none] at hreuses
        have hmissing := mpMalloc_missing h.pool hplaced.nodes hstored hreuses.1 hreuses.2.1
          hreuses.2.2
        have hsound := h.pool.sound
        refine .inl ?_
        rw [Book.step_of_not_faulted hsound, Arena.step, if_neg (by simp [hsound])]
        simp only [mpCalloc]
        split
        · rfl
        case h_2 hne =>
          have heq : mpMalloc b.pool size lm m = (.missing, (mpMalloc b.pool size lm m).2) :=
            Prod.ext hmissing rfl
          exact absurd heq (hne _)
    | free p => exact .inr (h.free p)
    | reset => exact .inr h.reset

theorem inv_create {f : Fresh} (hpool : mpCreatePool size (some f) = some pool)
    (hsize : size + (poolSize + nodeSize) < sizeTSize)
    (hplaced : f.addr + (size + (poolSize + nodeSize)) % sizeTSize ≤ 9223372036854775808)
    (hnext : f.next = 0) (haddr : f.addr ≠ 0) :
    Book.Inv { pool, ledger := { held := [f.addr] } } where
  pool := inv_mpCreatePool hpool hsize hplaced hnext
  held := by
    obtain rfl := Option.some.inj hpool
    simp [Pool.allocs, Pool.memories]
  nodup := List.nodup_singleton _
  null hnull := haddr (List.mem_singleton.mp hnull).symm
  calls := rfl

/-- In every run whose blocks and records fit into their nodes, a call is
right exactly when it does not need a new record for a large block. -/
theorem large_blocks_iff {f : Fresh} (hpool : mpCreatePool size (some f) = some pool)
    (hplaced : f.addr + (size + (poolSize + nodeSize)) % sizeTSize ≤ 9223372036854775808)
    (haddr : f.addr ≠ 0) (hsize : size + (poolSize + nodeSize) < sizeTSize) (hnext : f.next = 0)
    {events : List Event}
    (henv : Along Book.step Book.Placed { pool, ledger := { held := [f.addr] } } events)
    (hstored : Along Book.step Book.Stored { pool, ledger := { held := [f.addr] } } events) :
    Book.Sound { pool, ledger := { held := [f.addr] } } ∧
      Along Book.step (fun b e => b.pool.faulted = false → (b.Right e ↔ b.Reuses e))
        { pool, ledger := { held := [f.addr] } } events := by
  have hinv := inv_create hpool hsize hplaced hnext haddr
  refine ⟨hinv.sound, along_of_invariant (I := Book.Running)
    (fun b e h hc => Book.Running.step h e hc) (fun b e h hc hrunning => ?_)
    (henv.and hstored) (.inr hinv)⟩
  rcases h with hfaulted | h
  · exact absurd hrunning (by simp [hfaulted])
  · exact h.right_iff e hc.1 hc.2

instance (b : Book) (e : Event) : Decidable (b.Placed e) :=
  decidable_of_iff (b.pool.Placed e ∧ (b.pool.takes e).Nodup ∧
    ∀ p ∈ b.pool.takes e, p ≠ 0 ∧ p ∉ b.ledger.held)
    ⟨fun ⟨hnodes, hdistinct, hfresh⟩ => ⟨hnodes, hdistinct, hfresh⟩,
      fun h => ⟨h.nodes, h.distinct, h.fresh⟩⟩

instance (b : Book) : ∀ e, Decidable (b.Stored e)
  | .malloc size lm m => inferInstanceAs (Decidable (b.pool.FitsMalloc size lm m))
  | .calloc size lm m => inferInstanceAs (Decidable (b.pool.FitsMalloc size lm m))
  | .free _ => inferInstanceAs (Decidable True)
  | .reset => inferInstanceAs (Decidable True)

/-- A large block with a new record, which is freed and used for another. -/
def reuseEvents : List Event :=
  [.malloc 500 (some 8192) (some ⟨4096, 4128, 7⟩), .free 8192,
    .calloc 600 (some 16384) none, .reset]

def smallBook : Book :=
  { pool := ⟨96, 0, [], [⟨1048, 1080, 1176, 0⟩], 0, false, []⟩, ledger := { held := [1024] } }

theorem large_blocks_iff_reuse :
    smallBook.Sound ∧ Along Book.step
      (fun b e => b.pool.faulted = false → (b.Right e ↔ b.Reuses e)) smallBook reuseEvents :=
  large_blocks_iff (f := ⟨1024, 7, 0⟩) (rfl : mpCreatePool 96 _ = some smallBook.pool)
    (by decide) (by decide) (by decide) rfl (by decide +kernel) (by decide +kernel)

/-- The first large block of a pool is not returned. -/
theorem lost_large_block :
    ∃ e, smallBook.Placed e ∧ smallBook.Stored e ∧ ¬ smallBook.Right e := by
  refine ⟨.malloc 500 (some 8192) (some ⟨4096, 4128, 7⟩), by decide, by decide, fun h => ?_⟩
  have hret := (h.keeps (by decide) 8192 rfl).1
  have hmissing : (mpMalloc smallBook.pool 500 (some 8192) (some ⟨4096, 4128, 7⟩)).1 = .missing := rfl
  rw [hmissing] at hret
  cases hret

end Training.Arena
