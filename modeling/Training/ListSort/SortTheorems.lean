/-
Training.ListSort.SortTheorems — the merges agree, and the sort is stable.

What a function returns is a list of the same cells in another order, and
nothing else is changed: the result is the heap with these cells strung
together (`relink`). In this form both merges are `List.merge` on the
addresses (`mergeByRecursive_eq`, `mergeByLoop_eq`), and `merge_sort` is
`List.mergeSort`, which cuts the list in the same place
(`mergeSort_eq`). So the theorems about the library's sort carry over.
-/
import Mathlib.Data.List.Perm.Basic
import Training.ListSort.Sort

namespace Training.ListSort

open Training.Lib Training.Lib.Chains

variable {heap heap' : Nodes} {head p q : Ptr} {xs ys : List Nat} {fuel a : Nat} {c : Node}

/-! ## Orders of the addresses -/

/-- The test of the merges. -/
def before (heap : Nodes) (a b : Nat) : Bool := valueAt heap a ≤ valueAt heap b

def merged (heap : Nodes) (xs ys : List Nat) : List Nat := xs.merge ys (before heap)

def sorted (heap : Nodes) (xs : List Nat) : List Nat := xs.mergeSort (before heap)

theorem valueAt_eq (ha : heap a = some c) : valueAt heap a = c.val := by
  simp [valueAt, ha]

theorem valueAt_congr (h : (heap' a).map Cell.val = (heap a).map Cell.val) :
    valueAt heap' a = valueAt heap a := by
  have heq : ∀ heap : Nodes, valueAt heap a = ((heap a).map Cell.val).getD 0 := by
    intro heap
    cases ha : heap a <;> simp [valueAt, ha]
  rw [heq, heq, h]

theorem before_trans (heap : Nodes) (a b c : Nat) (hab : before heap a b = true)
    (hbc : before heap b c = true) : before heap a c = true := by
  simp only [before, decide_eq_true_eq] at *
  omega

theorem before_total (heap : Nodes) (a b : Nat) :
    (before heap a b || before heap b a) = true := by
  simp only [before, Bool.or_eq_true, decide_eq_true_eq]
  omega

theorem merged_congr (h : ∀ a, a ∈ xs ∨ a ∈ ys → valueAt heap' a = valueAt heap a) :
    merged heap' xs ys = merged heap xs ys := by
  have hsame : ∀ a ∈ xs, ∀ b ∈ ys, before heap' a b = before heap (id a) (id b) := by
    intro a ha b hb
    simp [before, h a (.inl ha), h b (.inr hb)]
  simpa [merged] using List.map_merge hsame

theorem sorted_congr (h : ∀ a, valueAt heap' a = valueAt heap a) :
    sorted heap' xs = sorted heap xs := by
  have heq : before heap' = before heap := by
    funext a b
    simp [before, h]
  rw [sorted, sorted, heq]

theorem merged_perm (heap : Nodes) (xs ys : List Nat) : (merged heap xs ys).Perm (xs ++ ys) :=
  List.merge_perm_append _

theorem sorted_perm (heap : Nodes) (xs : List Nat) : (sorted heap xs).Perm xs :=
  List.mergeSort_perm xs _

theorem mem_merged : a ∈ merged heap xs ys ↔ a ∈ xs ∨ a ∈ ys := List.mem_merge

theorem notMem_merged (h : a ∉ xs ++ ys) : a ∉ merged heap xs ys := by
  rwa [mem_merged, ← List.mem_append]

/-- The node with the smaller value comes first, the one of the first list where
they are the same. -/
theorem merged_cons_cons {x y : Nat} {c d : Node} (hc : heap x = some c) (hd : heap y = some d) :
    merged heap (x :: xs) (y :: ys) =
      if c.val ≤ d.val then x :: merged heap xs (y :: ys) else y :: merged heap (x :: xs) ys := by
  simp [merged, List.cons_merge_cons, before, valueAt_eq hc, valueAt_eq hd]

/-- The library's sort cuts a list in the middle. -/
theorem sorted_halves (heap : Nodes) (h : 2 ≤ xs.length) :
    sorted heap xs = merged heap (sorted heap (xs.take ((xs.length - 1) / 2 + 1)))
      (sorted heap (xs.drop ((xs.length - 1) / 2 + 1))) := by
  match xs, h with
  | a :: b :: xs, _ =>
    have hmid : ((a :: b :: xs).length - 1) / 2 + 1 = ((a :: b :: xs).length + 1) / 2 := by
      simp
      omega
    rw [hmid]
    simp only [sorted, merged]
    rw [List.mergeSort]
    simp [List.MergeSort.Internal.splitInTwo_fst, List.MergeSort.Internal.splitInTwo_snd]

/-! ## The merges -/

theorem mergeByRecursive_eq (hx : Chain heap p xs) (hy : Chain heap q ys)
    (hnodup : (xs ++ ys).Nodup) (hfuel : xs.length + ys.length < fuel) :
    mergeByRecursive fuel heap p q =
      some ((merged heap xs ys).head?, relink heap (merged heap xs ys)) := by
  induction fuel generalizing p q xs ys with
  | zero => exact absurd hfuel (Nat.not_lt_zero _)
  | succ fuel ih =>
    cases xs with
    | nil =>
      obtain rfl := hx
      simp [mergeByRecursive, merged, hy.relink_eq, hy.eq_head]
    | cons x xs =>
      cases ys with
      | nil =>
        obtain rfl := hy
        simp only [merged, List.merge_right]
        rw [hx.relink_eq, mergeByRecursive, if_neg (by simp [hx.1]), if_pos rfl, hx.eq_head]
      | cons y ys =>
        have hx' := hx
        have hy' := hy
        obtain ⟨rfl, c, hc, hxs⟩ := hx
        obtain ⟨rfl, d, hd, hys⟩ := hy
        simp only [List.length_cons] at hfuel
        rw [mergeByRecursive, if_neg (by simp), if_neg (by simp)]
        by_cases hle : c.val ≤ d.val
        · have hrest : (xs ++ y :: ys).Nodup := (List.nodup_cons.mp hnodup).2
          have hnot : x ∉ merged heap xs (y :: ys) := notMem_merged (List.nodup_cons.mp hnodup).1
          have hzs : merged heap (x :: xs) (y :: ys) = x :: merged heap xs (y :: ys) := by
            rw [merged_cons_cons hc hd, if_pos hle]
          have hlink : relink heap (merged heap xs (y :: ys)) x = some c := by
            rw [relink_of_notMem hnot, hc]
          have hrec := ih hxs hy' hrest (by simp; omega)
          simp [hc, hd, hle, hrec, hzs, setNext_some hlink, relink]
        · have hcomm : (y :: (x :: xs ++ ys)).Nodup := (List.perm_middle.nodup_iff).mp hnodup
          have hnot : y ∉ merged heap (x :: xs) ys := notMem_merged (List.nodup_cons.mp hcomm).1
          have hzs : merged heap (x :: xs) (y :: ys) = y :: merged heap (x :: xs) ys := by
            rw [merged_cons_cons hc hd, if_neg hle]
          have hlink : relink heap (merged heap (x :: xs) ys) y = some d := by
            rw [relink_of_notMem hnot, hd]
          have hrec := ih hx' hys (List.nodup_cons.mp hcomm).2 (by simp; omega)
          simp [hc, hd, hle, hrec, hzs, setNext_some hlink, relink]

/-- A turn that links in `z`: what the loop does from there on, it does from
the turn on. -/
theorem mergeLoop_turn {s s₁ : Merging} {z : Nat} {xs' ys' : List Nat} (ha : s.heap a = some c)
    (htest : mergeTest s = some true) (hbody : mergeTurn s = some s₁)
    (hheap : s₁.heap = Function.update s.heap a (some { c with next := some z }))
    (hzs : merged s.heap xs ys = z :: merged s.heap xs' ys') (hfirst : a ∉ merged s.heap xs ys)
    (hrest : ∃ s', loop mergeTest mergeTurn fuel s₁ = some s' ∧
      setNext s'.heap s'.tail (if s'.l1.isSome then s'.l1 else s'.l2) =
        some (relink s₁.heap (z :: merged s₁.heap xs' ys'))) :
    ∃ s', loop mergeTest mergeTurn (fuel + 1) s = some s' ∧
      setNext s'.heap s'.tail (if s'.l1.isSome then s'.l1 else s'.l2) =
        some (relink s.heap (a :: merged s.heap xs ys)) := by
  obtain ⟨s', hloop, hend⟩ := hrest
  have hvalue : ∀ b, valueAt s₁.heap b = valueAt s.heap b := by
    rw [hheap]
    exact fun b => valueAt_congr (update_next_val ha (some z) b)
  refine ⟨s', by simp [loop, htest, hbody, hloop], ?_⟩
  rw [hzs] at hfirst
  rw [hend, merged_congr fun b _ => hvalue b, hheap, hzs, ← relink_cons ha hfirst]
  rfl

/-- What the loop and the store behind it leave, from the node `a` at
`tail` on. -/
theorem mergeLoop_eq {s : Merging} (hx : Chain s.heap s.l1 xs) (hy : Chain s.heap s.l2 ys)
    (htail : s.tail = some a) (ha : s.heap a = some c) (hnodup : (a :: (xs ++ ys)).Nodup)
    (hfuel : xs.length + ys.length < fuel) :
    ∃ s', loop mergeTest mergeTurn fuel s = some s' ∧
      setNext s'.heap s'.tail (if s'.l1.isSome then s'.l1 else s'.l2) =
        some (relink s.heap (a :: merged s.heap xs ys)) := by
  induction fuel generalizing s xs ys a c with
  | zero => exact absurd hfuel (Nat.not_lt_zero _)
  | succ fuel ih =>
    cases xs with
    | nil =>
      have hl1 : s.l1 = none := hx
      refine ⟨s, by simp [loop, mergeTest, hl1], ?_⟩
      rw [htail, setNext_some ha]
      simp [hl1, merged, relink, hy.relink_eq, hy.eq_head, ha]
    | cons x xs =>
      cases ys with
      | nil =>
        have hl2 : s.l2 = none := hy
        refine ⟨s, by simp [loop, mergeTest, hl2], ?_⟩
        rw [htail, setNext_some ha]
        simp only [merged, List.merge_right]
        rw [relink, hx.relink_eq, ha, hx.eq_head]
        simp
      | cons y ys =>
        obtain ⟨hl1, cx, hcx, hxs⟩ := id hx
        obtain ⟨hl2, cy, hcy, hys⟩ := id hy
        simp only [List.length_cons] at hfuel
        obtain ⟨hnot, hrest⟩ := List.nodup_cons.mp hnodup
        have hfirst : a ∉ merged s.heap (x :: xs) (y :: ys) := notMem_merged hnot
        have htest : mergeTest s = some true := by simp [mergeTest, hl1, hl2]
        -- the store to `tail` is seen by no node that is still to come
        have hframe : ∀ q : Ptr, ∀ b ∈ x :: xs ++ y :: ys,
            Function.update s.heap a (some { c with next := q }) b = s.heap b := by
          intro q b hb
          rw [Function.update_of_ne]
          rintro rfl
          exact hnot hb
        by_cases hle : cx.val ≤ cy.val
        · have hcx' := (hframe (some x) x (by simp)).trans hcx
          have hzs : merged s.heap (x :: xs) (y :: ys) = x :: merged s.heap xs (y :: ys) := by
            rw [merged_cons_cons hcx hcy, if_pos hle]
          have hbody : mergeTurn s = some { s with
              l1 := cx.next, tail := some x,
              heap := Function.update s.heap a (some { c with next := some x }) } := by
            simp [mergeTurn, hl1, hl2, hcx, hcy, hle, htail, setNext_some ha, hcx']
          refine mergeLoop_turn ha htest hbody rfl hzs hfirst (ih ?_ ?_ rfl hcx' hrest (by simp; omega))
          · exact hxs.congr fun b hb => hframe _ b (by simp [hb])
          · exact hy.congr fun b hb => hframe _ b (List.mem_append_right _ hb)
        · have hcy' := (hframe (some y) y (by simp)).trans hcy
          have hzs : merged s.heap (x :: xs) (y :: ys) = y :: merged s.heap (x :: xs) ys := by
            rw [merged_cons_cons hcx hcy, if_neg hle]
          have hbody : mergeTurn s = some { s with
              l2 := cy.next, tail := some y,
              heap := Function.update s.heap a (some { c with next := some y }) } := by
            simp [mergeTurn, hl1, hl2, hcx, hcy, hle, htail, setNext_some ha, hcy']
          refine mergeLoop_turn ha htest hbody rfl hzs hfirst
            (ih ?_ ?_ rfl hcy' ((List.perm_middle.nodup_iff).mp hrest) (by simp; omega))
          · exact hx.congr fun b hb => hframe _ b (List.mem_append_left _ hb)
          · exact hys.congr fun b hb => hframe _ b (by simp [hb])

theorem mergeByLoop_eq {dummy : Nat} {junk : Node} (hx : Chain heap p xs) (hy : Chain heap q ys)
    (hnodup : (xs ++ ys).Nodup) (hdummy : heap dummy = none)
    (hfuel : xs.length + ys.length < fuel) :
    mergeByLoop fuel dummy junk heap p q =
      some ((merged heap xs ys).head?, relink heap (merged heap xs ys)) := by
  have hnot : dummy ∉ xs ++ ys := by
    intro hmem
    have hsome : (heap dummy).isSome :=
      (List.mem_append.mp hmem).elim (fun hmem => hx.isSome hmem) fun hmem => hy.isSome hmem
    simp [hdummy] at hsome
  have hnot' : dummy ∉ merged heap xs ys := notMem_merged hnot
  have hframe : ∀ b ∈ xs ++ ys, Function.update heap dummy (some junk) b = heap b := by
    intro b hb
    rw [Function.update_of_ne]
    rintro rfl
    exact hnot hb
  obtain ⟨s, hloop, hend⟩ := mergeLoop_eq (a := dummy) (c := junk)
    (s := { l1 := p, l2 := q, tail := some dummy, heap := Function.update heap dummy (some junk) })
    (hx.congr fun b hb => hframe b (List.mem_append_left _ hb))
    (hy.congr fun b hb => hframe b (List.mem_append_right _ hb)) rfl (Function.update_self ..)
    (List.nodup_cons.mpr ⟨hnot, hnodup⟩) hfuel
  have hsame : merged (Function.update heap dummy (some junk)) xs ys = merged heap xs ys := by
    refine merged_congr fun b hb => ?_
    simp [valueAt, hframe b (List.mem_append.mpr hb)]
  rw [hsame] at hend
  -- the variable is gone again, and with it what was stored in it
  have hgone : Function.update (relink heap (merged heap xs ys)) dummy none =
      relink heap (merged heap xs ys) := by
    rw [Function.update_eq_self_iff, relink_of_notMem hnot', hdummy]
  simp [mergeByLoop, mergeEnd, hloop, hend, relink, relink_update hnot', hgone]

theorem chain_merged (hx : Chain heap p xs) (hy : Chain heap q ys) (hnodup : (xs ++ ys).Nodup) :
    Chain (relink heap (merged heap xs ys)) (merged heap xs ys).head? (merged heap xs ys) := by
  refine chain_relink (((merged_perm heap xs ys).nodup_iff).mpr hnodup) fun a ha => ?_
  exact (mem_merged.mp ha).elim (fun hmem => hx.isSome hmem) fun hmem => hy.isSome hmem

/-- Both functions return the same list and leave the same heap: all nodes of
the two lists, each once, with their values. -/
theorem merges_agree (hx : Chain heap p xs) (hy : Chain heap q ys) (hdisj : xs.Disjoint ys) :
    ∃ turns, ∀ fuel, turns ≤ fuel → ∃ (r : Ptr) (heap' : Nodes) (zs : List Nat),
      mergeByRecursive fuel heap p q = some (r, heap') ∧
        (∀ (dummy : Nat) (junk : Node), heap dummy = none →
          mergeByLoop fuel dummy junk heap p q = some (r, heap')) ∧
        Chain heap' r zs ∧ zs.Nodup ∧ zs.Perm (xs ++ ys) ∧
        ∀ a, (heap' a).map Cell.val = (heap a).map Cell.val := by
  have hnodup : (xs ++ ys).Nodup := List.nodup_append'.mpr ⟨hx.nodup, hy.nodup, hdisj⟩
  refine ⟨xs.length + ys.length + 1, fun fuel hfuel => ⟨_, _, merged heap xs ys,
    mergeByRecursive_eq hx hy hnodup hfuel,
    fun dummy junk hdummy => mergeByLoop_eq hx hy hnodup hdummy hfuel,
    chain_merged hx hy hnodup, ((merged_perm heap xs ys).nodup_iff).mpr hnodup,
    merged_perm heap xs ys, fun a => relink_val heap _ a⟩⟩

/-- Two lists of two nodes, the second one not sorted. -/
def fourNodes : Nodes := fun a =>
  match a with
  | 1 => some ⟨3, some 2⟩
  | 2 => some ⟨5, none⟩
  | 3 => some ⟨4, some 4⟩
  | 4 => some ⟨3, none⟩
  | _ => none

theorem merges_agree_fourNodes : ∃ turns, ∀ fuel, turns ≤ fuel →
    ∃ (r : Ptr) (heap' : Nodes) (zs : List Nat),
      mergeByRecursive fuel fourNodes (some 1) (some 3) = some (r, heap') ∧
        (∀ (dummy : Nat) (junk : Node), fourNodes dummy = none →
          mergeByLoop fuel dummy junk fourNodes (some 1) (some 3) = some (r, heap')) ∧
        Chain heap' r zs ∧ zs.Nodup ∧ zs.Perm ([1, 2] ++ [3, 4]) ∧
        ∀ a, (heap' a).map Cell.val = (fourNodes a).map Cell.val :=
  merges_agree (by simp [fourNodes]) (by simp [fourNodes]) (by simp)

/-! ## The sort -/

/-- `slow` stops at the last node of the first half. -/
theorem halve_spec {k : Nat} (h : Chain heap head xs) (hk : 2 * k < xs.length)
    (hfuel : xs.length < k + fuel) :
    ∃ s, loop (halveTest heap) (halveTurn heap) fuel { slow := xs[k]?, fast := xs[2 * k + 1]? } =
      some s ∧ s.slow = xs[(xs.length - 1) / 2]? := by
  induction fuel generalizing k with
  | zero => omega
  | succ fuel ih =>
    by_cases hfast : 2 * k + 1 < xs.length
    · obtain ⟨c, hc, hnext⟩ := h.next_getElem hfast
      have hfast' : xs[2 * k + 1]? = some xs[2 * k + 1] := List.getElem?_eq_getElem hfast
      by_cases hahead : 2 * k + 1 + 1 < xs.length
      · obtain ⟨d, hd, hdnext⟩ := h.next_getElem (show k < xs.length by omega)
        obtain ⟨e, he, henext⟩ := h.next_getElem hahead
        have hahead' : xs[2 * k + 1 + 1]? = some xs[2 * k + 1 + 1] :=
          List.getElem?_eq_getElem hahead
        have htest : halveTest heap { slow := xs[k]?, fast := xs[2 * k + 1]? } = some true := by
          simp [halveTest, hfast', hc, hnext, hahead']
        have hturn : halveTurn heap { slow := xs[k]?, fast := xs[2 * k + 1]? } =
            some { slow := xs[k + 1]?, fast := xs[2 * (k + 1) + 1]? } := by
          rw [hfast', List.getElem?_eq_getElem (show k < xs.length by omega)]
          simp [halveTurn, hc, hd, hnext, hahead', he, hdnext, henext, Nat.mul_add]
        obtain ⟨s, hloop, hslow⟩ := ih (k := k + 1) (by omega) (by omega)
        exact ⟨s, by simp [loop, htest, hturn, hloop], hslow⟩
      · have htest : halveTest heap { slow := xs[k]?, fast := xs[2 * k + 1]? } = some false := by
          simp [halveTest, hfast', hc, hnext, hahead]
        have hmid : k = (xs.length - 1) / 2 := by omega
        exact ⟨_, by rw [loop, htest], congrArg (fun k => xs[k]?) hmid⟩
    · have htest : halveTest heap { slow := xs[k]?, fast := xs[2 * k + 1]? } = some false := by
        simp [halveTest, hfast]
      have hmid : k = (xs.length - 1) / 2 := by omega
      exact ⟨_, by rw [loop, htest], congrArg (fun k => xs[k]?) hmid⟩

section Halves

variable {cut : Nodes} {left right : List Nat}

theorem mem_sorted : a ∈ sorted heap xs ↔ a ∈ xs := (sorted_perm heap xs).mem_iff

/-- The halves keep out of each other's way. -/
theorem relink_halves (heap : Nodes) (hleft : Chain cut p left) (hright : Chain cut q right)
    (hnodup : (left ++ right).Nodup) :
    Chain (relink cut (sorted heap left)) q right ∧
      Chain (relink (relink cut (sorted heap left)) (sorted heap right))
        (sorted heap left).head? (sorted heap left) ∧
      Chain (relink (relink cut (sorted heap left)) (sorted heap right))
        (sorted heap right).head? (sorted heap right) := by
  obtain ⟨hnl, hnr, hdisj⟩ := List.nodup_append'.mp hnodup
  have hright' : Chain (relink cut (sorted heap left)) q right :=
    hright.congr fun a ha => relink_of_notMem fun hmem => hdisj (mem_sorted.mp hmem) ha
  have hl : Chain (relink cut (sorted heap left)) (sorted heap left).head? (sorted heap left) :=
    chain_relink ((sorted_perm heap left).nodup_iff.mpr hnl) fun a ha =>
      hleft.isSome (mem_sorted.mp ha)
  refine ⟨hright', hl.congr fun a ha => relink_of_notMem fun hmem => ?_, ?_⟩
  · exact hdisj (mem_sorted.mp ha) (mem_sorted.mp hmem)
  · exact chain_relink ((sorted_perm heap right).nodup_iff.mpr hnr) fun a ha =>
      hright'.isSome (mem_sorted.mp ha)

/-- The halves of a list that has been cut are sorted and merged. -/
theorem sortHalves_eq (hleft : Chain cut p left) (hright : Chain cut q right)
    (hnodup : (left ++ right).Nodup) (hother : ∀ a, a ∉ left ++ right → cut a = heap a)
    (hvalue : ∀ a, (cut a).map Cell.val = (heap a).map Cell.val)
    (hsort : ∀ {heap : Nodes} {head : Ptr} {xs : List Nat}, Chain heap head xs →
      xs.length + 1 < fuel →
      mergeSort fuel heap head = some ((sorted heap xs).head?, relink heap (sorted heap xs)))
    (hl : left.length + 1 < fuel) (hr : right.length + 1 < fuel)
    (hfuel : left.length + right.length < fuel) :
    ((mergeSort fuel cut p).bind fun l => (mergeSort fuel l.2 q).bind fun r =>
        mergeByRecursive fuel r.2 l.1 r.1) =
      some ((merged heap (sorted heap left) (sorted heap right)).head?,
        relink heap (merged heap (sorted heap left) (sorted heap right))) := by
  obtain ⟨hright', hls, hrs⟩ := relink_halves heap hleft hright hnodup
  have hperm := (sorted_perm heap left).append (sorted_perm heap right)
  have hsortl := hsort hleft hl
  rw [sorted_congr fun a => valueAt_congr (hvalue a)] at hsortl
  have hvaluel := fun a => (relink_val cut (sorted heap left) a).trans (hvalue a)
  have hsortr := hsort hright' hr
  rw [sorted_congr fun a => valueAt_congr (hvaluel a)] at hsortr
  have hvaluer := fun a =>
    (relink_val (relink cut (sorted heap left)) (sorted heap right) a).trans (hvaluel a)
  have hlen : (sorted heap left).length + (sorted heap right).length < fuel := by
    rwa [(sorted_perm heap left).length_eq, (sorted_perm heap right).length_eq]
  have hmerge := mergeByRecursive_eq hls hrs (hperm.nodup_iff.mpr hnodup) hlen
  rw [merged_congr fun a _ => valueAt_congr (hvaluer a)] at hmerge
  rw [hsortl, Option.bind_some, hsortr, Option.bind_some, hmerge]
  -- all that the calls have changed is strung together anew
  refine congrArg (fun h => some (_, h)) (relink_congr (fun a ha => ?_) hvaluer)
  rw [mem_merged, mem_sorted, mem_sorted] at ha
  rw [relink_of_notMem fun hmem => ha (.inr (mem_sorted.mp hmem)),
    relink_of_notMem fun hmem => ha (.inl (mem_sorted.mp hmem)),
    hother a (List.mem_append.not.mpr ha)]

end Halves

theorem mergeSort_eq (h : Chain heap head xs) (hfuel : xs.length + 1 < fuel) :
    mergeSort fuel heap head = some ((sorted heap xs).head?, relink heap (sorted heap xs)) := by
  induction fuel generalizing heap head xs with
  | zero => exact absurd hfuel (Nat.not_lt_zero _)
  | succ fuel ih =>
    match xs, id h with
    | [], hnil =>
      obtain rfl : head = none := hnil
      simp [mergeSort, sorted, relink]
    | [x], ⟨hhead, c, hc, hnext⟩ =>
      have hnone : c.next = none := hnext
      simp only [sorted, List.mergeSort_singleton]
      rw [h.relink_eq, mergeSort, if_neg (by simp [hhead])]
      simp [hhead, hc, hnone]
    | x :: y :: rest, ⟨hhead, c, hc, hrest⟩ =>
      have hnext : c.next = (x :: y :: rest)[1]? := hrest.eq_head
      have hsome : c.next ≠ none := by simp [hnext]
      have hzero : head = (x :: y :: rest)[0]? := hhead
      have hlen : 2 ≤ (x :: y :: rest).length := by simp
      generalize x :: y :: rest = xs at *
      have hturns : xs.length < 0 + fuel := by omega
      obtain ⟨s, hloop, hslow⟩ := halve_spec h (by omega) hturns
      have hmid : (xs.length - 1) / 2 < xs.length := by omega
      obtain ⟨last, hlast, -⟩ := h.next_getElem hmid
      rw [List.getElem?_eq_getElem hmid] at hslow
      rw [← hzero, Nat.mul_zero, Nat.zero_add, ← hnext, hhead] at hloop
      obtain ⟨hleft, hright⟩ := h.cut_getElem hmid hlast
      have hhalves := sortHalves_eq hleft hright
        (by rw [List.take_append_drop]; exact h.nodup) (fun a ha => ?_)
        (update_next_val hlast none) ih (by rw [List.length_take]; omega)
        (by rw [List.length_drop]; omega) (by rw [List.length_take, List.length_drop]; omega)
      · rw [sorted_halves heap hlen, ← hhalves, mergeSort, hhead]
        simp [hc, hsome, hloop, hslow, hlast, setNext_some hlast]
      · rw [List.take_append_drop] at ha
        rw [Function.update_of_ne]
        rintro rfl
        exact ha (List.getElem_mem hmid)

theorem stablySorted_sorted (heap : Nodes) (xs : List Nat) :
    StablySorted heap xs (sorted heap xs) := by
  refine ⟨sorted_perm heap xs, ?_, fun v => ?_⟩
  · have hpairs := List.pairwise_mergeSort (before_trans heap) (before_total heap) xs
    exact hpairs.imp fun h => of_decide_eq_true h
  · have hvals : (xs.filter fun a => valueAt heap a = v).Pairwise
        fun a b => before heap a b = true := by
      refine List.pairwise_of_forall_mem_list fun a ha b hb => ?_
      simp only [List.mem_filter, decide_eq_true_eq] at ha hb
      simp [before, ha.2, hb.2]
    have hsub := (List.sublist_mergeSort (before_trans heap) (before_total heap) hvals
      List.filter_sublist).filter fun a => valueAt heap a = v
    rw [List.filter_filter] at hsub
    simp only [Bool.and_self] at hsub
    exact (hsub.eq_of_length ((sorted_perm heap xs).symm.filter _).length_eq).symm

/-- The sort ends, and returns the nodes of the list in the stable order of
their values, which it does not touch. -/
theorem mergeSort_stable (h : Chain heap head xs) :
    ∃ turns, ∀ fuel, turns ≤ fuel → ∃ (p : Ptr) (heap' : Nodes) (ys : List Nat),
      mergeSort fuel heap head = some (p, heap') ∧ Chain heap' p ys ∧ StablySorted heap xs ys ∧
        ∀ a, (heap' a).map Cell.val = (heap a).map Cell.val := by
  refine ⟨xs.length + 2, fun fuel hfuel => ⟨_, _, _, mergeSort_eq h hfuel, ?_,
    stablySorted_sorted heap xs, relink_val heap _⟩⟩
  exact chain_relink ((sorted_perm heap xs).nodup_iff.mpr h.nodup) fun a ha =>
    h.isSome (mem_sorted.mp ha)

theorem mergeSort_stable_fourNodes : ∃ turns, ∀ fuel, turns ≤ fuel →
    ∃ (p : Ptr) (heap' : Nodes) (ys : List Nat),
      mergeSort fuel fourNodes (some 3) = some (p, heap') ∧ Chain heap' p ys ∧
        StablySorted fourNodes [3, 4] ys ∧
        ∀ a, (heap' a).map Cell.val = (fourNodes a).map Cell.val :=
  mergeSort_stable (by simp [fourNodes])

end Training.ListSort
