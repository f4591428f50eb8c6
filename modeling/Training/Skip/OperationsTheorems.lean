/-
Training.Skip.OperationsTheorems — the skip list is a finite set.

`Reference` is what a skip list is for: a finite set of keys. `insert` links
the new node into the levels below its height, and `deleteNode` takes the
node out of the same ones (`inv_insert`, `inv_deleteNode`), so the nodes are
always the ones of a sorted list, on each level those that are high enough.
The keys of the list are then a set, whatever the heights are
(`skip_list_refines`).
-/
import Mathlib.Data.Finset.Basic
import Training.Lib.Machine
import Training.Skip.SearchTheorems

namespace Training.Skip.Reference

inductive Op
  | insert (key : Int)
  | delete (key : Int)
  | search (key : Int)

inductive Answer
  /-- the key was not there -/
  | inserted (new : Bool)
  /-- the key was there -/
  | deleted (found : Bool)
  /-- the key that is found -/
  | found (key : Option Int)
deriving DecidableEq, Repr

def step (keys : Finset Int) : Op → Finset Int
  | .insert key => Insert.insert key keys
  | .delete key => keys.erase key
  | .search _ => keys

def answer (keys : Finset Int) : Op → Answer
  | .insert key => .inserted (key ∉ keys)
  | .delete key => .deleted (key ∈ keys)
  | .search key => .found (if key ∈ keys then some key else none)

end Training.Skip.Reference

namespace Training.Skip

open Training.Lib Training.Lib.Links

variable {list : SkipList} {nodes front back : List Nat} {key : Int} {i n : Nat}

/-! ## Loops -/

theorem eq_with_forward {forward : Nat → Nat → Nat} (h : ∀ j, list.forward j = forward j) :
    list = { list with forward } := by
  obtain rfl : list.forward = forward := funext h
  rfl

theorem link_eq (list : SkipList) (update : Nat → Nat) (node count i : Nat) :
    link list update node count i = { list with
      forward := fun j =>
        if i ≤ j ∧ j < i + count then
          Function.update (Function.update (list.forward j) node (list.forward j (update j)))
            (update j) node
        else list.forward j } := by
  induction count generalizing list i with
  | zero => exact eq_with_forward fun j => (if_neg (by omega)).symm
  | succ count ih =>
    unfold link
    rw [ih]
    congr 1
    funext j
    by_cases hij : j = i
    · subst hij
      rw [if_neg (by omega), if_pos (by omega)]
      exact Function.update_self ..
    · dsimp only
      rw [Function.update_of_ne hij]
      by_cases hj : i + 1 ≤ j ∧ j < i + 1 + count
      · rw [if_pos hj, if_pos (by omega)]
      · rw [if_neg hj, if_neg (by omega)]

/-- The loop stops at the first level that does not have the node. -/
theorem unlink_eq {list : SkipList} {update : Nat → Nat} {node count i height : Nat}
    (hheight : ∀ j, i ≤ j → j < i + count → (list.forward j (update j) = node ↔ j < height)) :
    unlink list update node count i = { list with
      forward := fun j =>
        if i ≤ j ∧ j < i + count ∧ j < height then
          Function.update (list.forward j) (update j) (list.forward j node)
        else list.forward j } := by
  induction count generalizing list i with
  | zero => exact eq_with_forward fun j => (if_neg (by omega)).symm
  | succ count ih =>
    unfold unlink
    have hi := hheight i (Nat.le_refl i) (by omega)
    by_cases hstop : list.forward i (update i) = node
    · have hlt := hi.mp hstop
      rw [if_neg (fun hne => hne hstop), ih]
      · congr 1
        funext j
        by_cases hij : j = i
        · subst hij
          rw [if_neg (by omega), if_pos (by omega)]
          exact Function.update_self ..
        · dsimp only
          rw [Function.update_of_ne hij]
          by_cases hj : i + 1 ≤ j ∧ j < i + 1 + count ∧ j < height
          · rw [if_pos hj, if_pos (by omega)]
          · rw [if_neg hj, if_neg (by omega)]
      · intro j hj hj'
        dsimp only
        rw [Function.update_of_ne (by omega)]
        exact hheight j (by omega) (by omega)
    · rw [if_pos hstop]
      have hge : ¬i < height := fun hlt => hstop (hi.mpr hlt)
      exact eq_with_forward fun j => (if_neg (by omega)).symm

theorem lower_spec (list : SkipList) {fuel : Nat} (hfuel : list.level ≤ fuel + 1)
    (hlevel : 1 ≤ list.level) :
    ∃ level, lower list fuel = { list with level } ∧ 1 ≤ level ∧ level ≤ list.level ∧
      (level = 1 ∨ list.forward (level - 1) list.header ≠ null) ∧
      ∀ i, level ≤ i → i < list.level → list.forward i list.header = null := by
  induction fuel generalizing list with
  | zero => exact ⟨list.level, rfl, hlevel, Nat.le_refl _, Or.inl (by omega), fun i hi hi' => by omega⟩
  | succ fuel ih =>
    unfold lower
    by_cases hlower : list.level > 1 ∧ list.forward (list.level - 1) list.header = null
    · rw [if_pos hlower]
      obtain ⟨level, heq, hlow, hhigh, htop, hnull⟩ :=
        ih { list with level := list.level - 1 } (by dsimp only; omega) (by dsimp only; omega)
      dsimp only at hhigh htop hnull
      refine ⟨level, heq, hlow, by omega, htop, fun i hi hi' => ?_⟩
      by_cases hitop : i = list.level - 1
      · rw [hitop]
        exact hlower.2
      · exact hnull i hi (by omega)
    · rw [if_neg hlower]
      refine ⟨list.level, rfl, hlevel, Nat.le_refl _, ?_, fun i hi hi' => by omega⟩
      by_cases hone : list.level = 1
      · exact Or.inl hone
      · exact Or.inr fun hnull => hlower ⟨by omega, hnull⟩

/-! ## `insert` -/

/-- The levels that the list does not have yet are empty. -/
theorem pred_of_level_le (h : Inv list (front ++ back)) (hi : list.level ≤ i) :
    pred list front i = list.header := by
  have hempty : onLevel list front i = [] := by
    refine List.filter_eq_nil_iff.mpr fun m hm hlt => ?_
    have hle := (h.heights m (List.mem_append_left _ hm)).2
    have hlt := of_decide_eq_true hlt
    omega
  unfold pred
  simp only [hempty, List.getLast_singleton]

/-- What the nodes of a level are does not depend on anything but their heights. -/
theorem onLevel_congr {list' : SkipList} (h : ∀ m ∈ nodes, list'.height m = list.height m) :
    onLevel list' nodes i = onLevel list nodes i :=
  List.filter_congr fun m hm => by rw [h m hm]

/-- `list'` is `list` with the node `n` behind `front`, on the levels below its height. -/
structure Inserted (list list' : SkipList) (front back : List Nat) (n : Nat) (key : Int)
    (newLevel : Nat) : Prop where
  level : list'.level = max list.level newLevel
  header : list'.header = list.header
  live : list'.live = n :: list.live
  key : list'.key n = key
  keys : ∀ m ∈ front ++ back, list'.key m = list.key m
  height : list'.height n = newLevel
  heights : ∀ m ∈ front ++ back, list'.height m = list.height m
  below : ∀ i, i < newLevel → list'.forward i =
    Function.update (Function.update (list.forward i) n (list.forward i (pred list front i)))
      (pred list front i) n
  above : ∀ i, newLevel ≤ i → list'.forward i = list.forward i

theorem insert_spec (h : Inv list (front ++ back)) (hfront : ∀ m ∈ front, list.key m < key)
    (hback : ∀ m ∈ back, key < list.key m) (newLevel : Height) (malloc : Malloc) :
    ∃ list' n, insert list key newLevel malloc = some (list', true) ∧ n ∉ list.live ∧ n ≠ null ∧
      Inserted list list' front back n key newLevel.val := by
  obtain ⟨update, hlocate, hupdate⟩ := locate_spec h hfront fun m hm => Int.le_of_lt (hback m hm)
  generalize hn : malloc.alloc list.live = n
  have hlive : n ∉ list.live := hn ▸ malloc.alloc_not_mem _
  have hother : ∀ m ∈ list.header :: (front ++ back), m ≠ n := by
    rintro m hm rfl
    exact hlive (h.live.mem_iff.mpr hm)
  have hnode : ∀ m ∈ front ++ back, m ≠ n := fun m hm => hother m (List.mem_cons_of_mem _ hm)
  -- the nodes in front, on all levels that the new node is on
  generalize hupdate' : (fun i => if list.level ≤ i ∧ i < newLevel.val then list.header else update i) =
    update'
  have hpred : ∀ i, i < newLevel.val → update' i = pred list front i := by
    intro i hi
    rw [← hupdate']
    dsimp only
    by_cases hle : list.level ≤ i
    · rw [if_pos ⟨hle, hi⟩, pred_of_level_le h hle]
    · rw [if_neg fun hboth => hle hboth.1]
      exact hupdate i (Nat.lt_of_not_le hle)
  have hpredne : ∀ i, pred list front i ≠ n := by
    intro i
    rcases List.mem_cons.mp (pred_mem list front i) with heq | hmem
    · rw [heq]
      exact hother _ List.mem_cons_self
    · exact hnode _ (List.mem_append_left _ (onLevel_subset _ _ hmem))
  refine ⟨link
    (createNode { list with level := max list.level newLevel.val } n key newLevel.val) update'
    n newLevel.val 0, n, ?_, hlive, hn ▸ malloc.alloc_ne_null _, ?_⟩
  · unfold insert
    rw [hlocate]
    dsimp only
    rw [if_neg fun hfound => next_of_not_mem h hback hfound.1 hfound.2, hn, hupdate']
  · rw [link_eq]
    refine ⟨rfl, rfl, rfl, Function.update_self .., fun m hm => Function.update_of_ne (hnode m hm) _ _,
      Function.update_self .., fun m hm => Function.update_of_ne (hnode m hm) _ _, fun i hi => ?_,
      fun i hi => ?_⟩
    · dsimp only [createNode]
      rw [if_pos (by omega), if_pos hi, hpred i hi, Function.update_idem,
        Function.update_of_ne (hpredne i)]
    · dsimp only [createNode]
      rw [if_neg (by omega), if_neg (by omega)]

/-- On a level up to its own the new node is linked in, and on the others
nothing changes. -/
theorem linked_inserted {list' : SkipList} {newLevel i : Nat} (h : Inv list (front ++ back))
    (hn : n ∉ list.header :: (front ++ back)) (hnull : n ≠ null)
    (hins : Inserted list list' front back n key newLevel) (hi : i < maxLevel) :
    Linked (list'.forward i) (list'.forward i list'.header)
      (onLevel list' (front ++ n :: back) i) := by
  have hold := h.levels i hi
  rw [onLevel_append] at hold
  have hnew : onLevel list' (front ++ n :: back) i =
      onLevel list front i ++ ((if i < newLevel then [n] else []) ++ onLevel list back i) := by
    rw [onLevel_append, onLevel_congr fun m hm => hins.heights m (List.mem_append_left back hm)]
    congr 1
    unfold onLevel
    rw [List.filter_cons, hins.height]
    have hrest := onLevel_congr (i := i) fun m hm => hins.heights m (List.mem_append_right front hm)
    unfold onLevel at hrest
    rw [hrest]
    by_cases hlt : i < newLevel
    · simp [hlt]
    · simp [hlt]
  rw [hnew, hins.header]
  have hsub : ∀ y ∈ list.header :: (onLevel list front i ++ onLevel list back i), y ≠ n := by
    rintro y hy rfl
    refine hn ?_
    rcases List.mem_cons.mp hy with rfl | hy
    · exact List.mem_cons_self
    · rw [← onLevel_append] at hy
      exact List.mem_cons_of_mem _ (onLevel_subset _ _ hy)
  by_cases hlt : i < newLevel
  · rw [if_pos hlt, hins.below i hlt]
    have hnodup : (list.header :: (onLevel list front i ++ onLevel list back i)).Nodup := by
      rw [← onLevel_append]
      exact h.header_nodup.sublist (List.filter_sublist.cons_cons _)
    have hpredne : pred list front i ≠ n := by
      refine hsub _ ?_
      rcases List.mem_cons.mp (pred_mem list front i) with heq | hmem
      · rw [heq]
        exact List.mem_cons_self
      · exact List.mem_cons_of_mem _ (List.mem_append_left _ hmem)
    refine hold.insert hnodup hnull (Function.update_self ..) ?_ fun y hy hyp => ?_
    · rw [Function.update_of_ne hpredne.symm, Function.update_self]
      rfl
    · have hyp : y ≠ pred list front i := hyp
      rw [Function.update_of_ne hyp, Function.update_of_ne (hsub y hy)]
  · rw [if_neg hlt, hins.above i (Nat.le_of_not_lt hlt)]
    exact hold

theorem sorted_inserted {list' : SkipList} {newLevel : Nat} (h : Inv list (front ++ back))
    (hfront : ∀ m ∈ front, list.key m < key) (hback : ∀ m ∈ back, key < list.key m)
    (hins : Inserted list list' front back n key newLevel) :
    (front ++ n :: back).Pairwise fun a b => list'.key a < list'.key b := by
  have hfrontkeys : ∀ a ∈ front, list'.key a = list.key a :=
    fun a ha => hins.keys a (List.mem_append_left back ha)
  have hbackkeys : ∀ b ∈ back, list'.key b = list.key b :=
    fun b hb => hins.keys b (List.mem_append_right front hb)
  have hsorted := List.pairwise_append.mp h.sorted
  refine List.pairwise_append.mpr
    ⟨?_, List.pairwise_cons.mpr ⟨fun b hb => ?_, ?_⟩, fun a ha b hb => ?_⟩
  · refine hsorted.1.imp_of_mem fun {a b} ha hb hab => ?_
    rwa [hfrontkeys a ha, hfrontkeys b hb]
  · rw [hins.key, hbackkeys b hb]
    exact hback b hb
  · refine hsorted.2.1.imp_of_mem fun {a b} ha hb hab => ?_
    rwa [hbackkeys a ha, hbackkeys b hb]
  · rw [hfrontkeys a ha]
    rcases List.mem_cons.mp hb with rfl | hb
    · rw [hins.key]
      exact hfront a ha
    · rw [hbackkeys b hb]
      exact hsorted.2.2 a ha b hb

theorem inv_inserted {list' : SkipList} (h : Inv list (front ++ back))
    (hfront : ∀ m ∈ front, list.key m < key)
    (hback : ∀ m ∈ back, key < list.key m) (hlive : n ∉ list.live) (hnull : n ≠ null) {newLevel : Nat}
    (hlow : 1 ≤ newLevel) (hhigh : newLevel ≤ maxLevel)
    (hins : Inserted list list' front back n key newLevel) : Inv list' (front ++ n :: back) := by
  have hnheader : n ∉ list.header :: (front ++ back) := fun hmem => hlive (h.live.mem_iff.mpr hmem)
  have hmem : ∀ m ∈ front ++ n :: back, m = n ∨ m ∈ front ++ back := by
    intro m hm
    rw [← List.mem_cons]
    exact List.perm_middle.mem_iff.mp hm
  refine ⟨fun i hi => linked_inserted h hnheader hnull hins hi, sorted_inserted h hfront hback hins,
    fun m hm => ?_, ?_, ?_, ?_, ?_, ?_⟩
  · rw [hins.level]
    rcases hmem m hm with rfl | hm
    · rw [hins.height]
      exact ⟨hlow, Nat.le_max_right _ _⟩
    · rw [hins.heights m hm]
      exact ⟨(h.heights m hm).1, Nat.le_trans (h.heights m hm).2 (Nat.le_max_left _ _)⟩
  · rw [hins.level]
    rcases Nat.le_total list.level newLevel with hle | hle
    · exact Or.inr ⟨n, by simp, by rw [hins.height, Nat.max_eq_right hle]⟩
    · rw [Nat.max_eq_left hle]
      rcases h.top with htop | ⟨m, hm, htop⟩
      · exact Or.inl htop
      · refine Or.inr ⟨m, List.perm_middle.mem_iff.mpr (List.mem_cons_of_mem _ hm), ?_⟩
        rw [hins.heights m hm, htop]
  · rw [hins.level]
    exact ⟨Nat.le_trans h.level.1 (Nat.le_max_left _ _), Nat.max_le.mpr ⟨h.level.2, hhigh⟩⟩
  · rw [hins.live, hins.header]
    refine (h.live.cons n).trans ?_
    exact (List.perm_middle : (list.header :: front ++ n :: back).Perm _).symm
  · rw [hins.live]
    exact List.nodup_cons.mpr ⟨hlive, h.nodup⟩
  · rw [hins.live]
    intro hmem
    rcases List.mem_cons.mp hmem with heq | hmem
    · exact hnull heq.symm
    · exact h.nonnull hmem

/-! ## `deleteNode` -/

/-- `list'` is `list` without the node `n` behind `front`. -/
structure Deleted (list list' : SkipList) (front : List Nat) (n : Nat) : Prop where
  header : list'.header = list.header
  live : list'.live = list.live.erase n
  key : list'.key = list.key
  height : list'.height = list.height
  below : ∀ i, i < list.height n →
    list'.forward i = Function.update (list.forward i) (pred list front i) (list.forward i n)
  above : ∀ i, list.height n ≤ i → list'.forward i = list.forward i
  low : 1 ≤ list'.level
  high : list'.level ≤ list.level
  top : list'.level = 1 ∨ list'.forward (list'.level - 1) list.header ≠ null
  gone : ∀ i, list'.level ≤ i → i < list.level → list'.forward i list.header = null

theorem onLevel_cons (list : SkipList) (n : Nat) (nodes : List Nat) (i : Nat) :
    onLevel list (n :: nodes) i = if i < list.height n then n :: onLevel list nodes i
      else onLevel list nodes i := by
  unfold onLevel
  by_cases hlt : i < list.height n
  · simp [hlt]
  · simp [hlt]

theorem deleteNode_spec (h : Inv list (front ++ n :: back))
    (hfront : ∀ m ∈ front, list.key m < list.key n) (hback : ∀ m ∈ back, list.key n < list.key m) :
    ∃ list', deleteNode list (list.key n) = some (list', true) ∧ Deleted list list' front n := by
  obtain ⟨update, hlocate, hupdate⟩ := locate_spec h hfront (key_le_of_mem hback)
  obtain ⟨hheight, hheight'⟩ := h.heights n (by simp)
  have hnull : n ≠ null := h.ne_null (by simp)
  have hnback : n ∉ back := by
    have hnodup := (List.nodup_cons.mp h.header_nodup).2
    rw [List.perm_middle.nodup_iff] at hnodup
    exact fun hmem => (List.nodup_cons.mp hnodup).1 (List.mem_append_right _ hmem)
  have hmatch : ∀ j, 0 ≤ j → j < 0 + list.level →
      (list.forward j (update j) = n ↔ j < list.height n) := by
    intro j _ hj
    rw [hupdate j (by omega)]
    have hlink := linked_pred h (i := j) (by have := h.level.2; omega)
    rw [onLevel_cons] at hlink
    by_cases hlt : j < list.height n
    · rw [if_pos hlt] at hlink
      exact iff_of_true hlink.1 hlt
    · rw [if_neg hlt] at hlink
      refine iff_of_false (fun heq => ?_) hlt
      rw [heq] at hlink
      obtain ⟨ys, hys, -⟩ := hlink.exists_cons hnull
      exact hnback (onLevel_subset _ _ (hys ▸ List.mem_cons_self))
  have hunlink := unlink_eq hmatch
  generalize hremoved : { unlink list update n list.level 0 with
    live := (unlink list update n list.level 0).live.erase n } = removed
  have hlevel : removed.level = list.level := by rw [← hremoved, hunlink]
  have hforward : ∀ i, removed.forward i = if i < list.height n then
      Function.update (list.forward i) (pred list front i) (list.forward i n) else list.forward i := by
    intro i
    rw [← hremoved, hunlink]
    dsimp only
    by_cases hlt : i < list.height n
    · rw [if_pos (by omega), if_pos hlt, hupdate i (by omega)]
    · rw [if_neg (by omega), if_neg hlt]
  obtain ⟨level, hlower, hlow, hhigh, htop, hgone⟩ :=
    lower_spec removed (show removed.level ≤ list.level + 1 by omega) (by rw [hlevel]; exact h.level.1)
  have hheader : removed.header = list.header := by rw [← hremoved, hunlink]
  refine ⟨{ removed with level }, ?_, hheader, ?_, ?_, ?_, fun i hi => ?_, fun i hi => ?_, hlow,
    hlevel ▸ hhigh, hheader ▸ htop, fun i hi hi' => ?_⟩
  · unfold deleteNode
    rw [hlocate]
    dsimp only
    rw [next_of_mem h, if_neg (by simp [hnull]), hremoved, ← hlower]
    congr 2
    rw [hunlink]
  · rw [← hremoved, hunlink]
  · rw [← hremoved, hunlink]
  · rw [← hremoved, hunlink]
  · exact (hforward i).trans (if_pos hi)
  · exact (hforward i).trans (if_neg (Nat.not_lt.mpr hi))
  · rw [← hheader]
    exact hgone i hi (by omega)

theorem inv_deleted {list' : SkipList} (h : Inv list (front ++ n :: back))
    (hdel : Deleted list list' front n) : Inv list' (front ++ back) := by
  have hperm : (list.header :: (front ++ n :: back)).Perm (n :: list.header :: (front ++ back)) :=
    (List.perm_middle : (list.header :: front ++ n :: back).Perm _)
  have hsub : ∀ m ∈ front ++ back, m ∈ front ++ n :: back :=
    fun m hm => List.perm_middle.mem_iff.mpr (List.mem_cons_of_mem _ hm)
  have hlevels : ∀ i, i < maxLevel →
      Linked (list'.forward i) (list'.forward i list.header) (onLevel list' (front ++ back) i) := by
    intro i hi
    have hold := h.levels i hi
    rw [onLevel_append, onLevel_cons] at hold
    rw [onLevel_congr fun m _ => congrFun hdel.height m, onLevel_append]
    by_cases hlt : i < list.height n
    · rw [if_pos hlt] at hold
      rw [hdel.below i hlt]
      have hnodup : (list.header :: (onLevel list front i ++ onLevel list back i)).Nodup := by
        rw [← onLevel_append]
        have hnodup := (List.nodup_cons.mp (hperm.nodup_iff.mp h.header_nodup)).2
        exact hnodup.sublist (List.filter_sublist.cons_cons _)
      refine hold.remove hnodup (Function.update_self ..) fun y _ hyp => ?_
      have hyp : y ≠ pred list front i := hyp
      rw [Function.update_of_ne hyp]
    · rw [if_neg hlt] at hold
      rw [hdel.above i (Nat.le_of_not_lt hlt)]
      exact hold
  have hheights : ∀ m ∈ front ++ back, list'.height m = list.height m :=
    fun m _ => congrFun hdel.height m
  have hlevel := h.level
  have hhigh := hdel.high
  have hbound : ∀ m ∈ front ++ back, list.height m ≤ list'.level := by
    intro m hm
    by_contra hlt
    -- the level below the height of `m` is not empty
    have hle := (h.heights m (hsub m hm)).2
    have hlink := hlevels (list.height m - 1) (by omega)
    rw [hdel.gone (list.height m - 1) (by omega) (by omega)] at hlink
    have hmem : m ∈ onLevel list' (front ++ back) (list.height m - 1) :=
      List.mem_filter.mpr ⟨hm, decide_eq_true (by rw [hheights m hm]; omega)⟩
    rw [hlink.eq_nil] at hmem
    cases hmem
  refine ⟨fun i hi => hdel.header ▸ hlevels i hi, ?_, fun m hm => ?_, ?_, ⟨hdel.low, by omega⟩, ?_, ?_,
    fun hmem => ?_⟩
  · rw [hdel.key]
    exact h.sorted.sublist ((List.sublist_cons_self _ _).append_left front)
  · rw [hheights m hm]
    exact ⟨(h.heights m (hsub m hm)).1, hbound m hm⟩
  · rcases hdel.top with htop | htop
    · exact Or.inl htop
    · have hlow := hdel.low
      obtain ⟨ys, hys, -⟩ := (hlevels (list'.level - 1) (by omega)).exists_cons htop
      obtain ⟨hm, hlt⟩ := List.mem_filter.mp
        (hys ▸ List.mem_cons_self : list'.forward (list'.level - 1) list.header ∈
          onLevel list' (front ++ back) (list'.level - 1))
      have hlt := of_decide_eq_true hlt
      refine Or.inr ⟨_, hm, Nat.le_antisymm ?_ (by omega)⟩
      rw [hheights _ hm]
      exact hbound _ hm
  · rw [hdel.live, hdel.header]
    have herase := (h.live.trans hperm).erase n
    rwa [List.erase_cons_head] at herase
  · rw [hdel.live]
    exact h.nodup.erase n
  · rw [hdel.live] at hmem
    exact h.nonnull (List.mem_of_mem_erase hmem)

/-! ## The set of keys -/

def Event.op : Event → Reference.Op
  | .insert key _ _ => .insert key
  | .delete key => .delete key
  | .search key => .search key

/-- What a caller of the operation sees. -/
def answer (s : State) : Event → Option Reference.Answer
  | .insert key newLevel malloc =>
      s.bind fun list => (insert list key newLevel malloc).map fun r => .inserted r.2
  | .delete key => s.bind fun list => (deleteNode list key).map fun r => .deleted r.2
  | .search key => s.bind fun list => (search list key).map fun r => .found (r.map list.key)

/-- `keys` are the keys of the nodes. -/
def Related (list : SkipList) (keys : Finset Int) : Prop :=
  ∃ nodes, Inv list nodes ∧ ∀ k, k ∈ keys ↔ ∃ n ∈ nodes, list.key n = k

variable {keys : Finset Int}

/-- A key that is there is not inserted again. -/
theorem insert_spec_mem (h : Inv list (front ++ n :: back))
    (hfront : ∀ m ∈ front, list.key m < list.key n) (hback : ∀ m ∈ back, list.key n < list.key m)
    (newLevel : Height) (malloc : Malloc) :
    insert list (list.key n) newLevel malloc = some (list, false) := by
  obtain ⟨update, hlocate, -⟩ := locate_spec h hfront (key_le_of_mem hback)
  unfold insert
  rw [hlocate]
  dsimp only
  rw [next_of_mem h]
  exact if_pos ⟨h.ne_null (by simp), rfl⟩

/-- A key that is not there is not deleted. -/
theorem deleteNode_spec_not_mem (h : Inv list (front ++ back)) (hfront : ∀ m ∈ front, list.key m < key)
    (hback : ∀ m ∈ back, key < list.key m) : deleteNode list key = some (list, false) := by
  obtain ⟨update, hlocate, -⟩ := locate_spec h hfront fun m hm => Int.le_of_lt (hback m hm)
  unfold deleteNode
  rw [hlocate]
  refine if_pos ?_
  by_contra hfound
  exact next_of_not_mem h hback (fun heq => hfound (Or.inl heq))
    (by_contra fun hne => hfound (Or.inr hne))

/-- The key is in the set, with its node, or it is not. -/
theorem related_cases (h : Related list keys) (key : Int) :
    (∃ front n back, Inv list (front ++ n :: back) ∧ list.key n = key ∧
        (∀ m ∈ front, list.key m < key) ∧ (∀ m ∈ back, key < list.key m) ∧ key ∈ keys ∧
        ∀ k, k ∈ keys.erase key ↔ ∃ m ∈ front ++ back, list.key m = k) ∨
      ∃ front back, Inv list (front ++ back) ∧ (∀ m ∈ front, list.key m < key) ∧
        (∀ m ∈ back, key < list.key m) ∧ key ∉ keys ∧
        ∀ k, k ∈ keys ↔ ∃ m ∈ front ++ back, list.key m = k := by
  obtain ⟨nodes, hinv, hkeys⟩ := h
  rcases hinv.split key with ⟨front, n, back, rfl, rfl, hfront, hback⟩ |
    ⟨front, back, rfl, hfront, hback⟩
  · refine Or.inl ⟨front, n, back, hinv, rfl, hfront, hback,
      (hkeys _).mpr ⟨n, by simp, rfl⟩, fun k => ?_⟩
    rw [Finset.mem_erase, hkeys]
    constructor
    · rintro ⟨hne, m, hm, rfl⟩
      have hmn : m ≠ n := fun heq => hne (congrArg list.key heq)
      exact ⟨m, (List.mem_cons.mp (List.perm_middle.mem_iff.mp hm)).resolve_left hmn, rfl⟩
    · rintro ⟨m, hm, rfl⟩
      refine ⟨?_, m, List.perm_middle.mem_iff.mpr (List.mem_cons_of_mem _ hm), rfl⟩
      rcases List.mem_append.mp hm with hm | hm
      · exact Int.ne_of_lt (hfront m hm)
      · exact Int.ne_of_gt (hback m hm)
  · refine Or.inr ⟨front, back, hinv, hfront, hback, fun hmem => ?_, hkeys⟩
    obtain ⟨m, hm, rfl⟩ := (hkeys _).mp hmem
    rcases List.mem_append.mp hm with hm | hm
    · exact Int.lt_irrefl _ (hfront m hm)
    · exact Int.lt_irrefl _ (hback m hm)

theorem related_step (h : Related list keys) (e : Event) :
    (∃ list', step (some list) e = some list' ∧ Related list' (Reference.step keys e.op)) ∧
      answer (some list) e = some (Reference.answer keys e.op) := by
  cases e with
  | insert key newLevel malloc =>
    rcases related_cases h key with ⟨front, n, back, hinv, rfl, hfront, hback, hmem, -⟩ |
      ⟨front, back, hinv, hfront, hback, hmem, hkeys⟩
    · have hok := insert_spec_mem hinv hfront hback newLevel malloc
      refine ⟨⟨list, congrArg (Option.map Prod.fst) hok, ?_⟩, ?_⟩
      · show Related list (Insert.insert (list.key n) keys)
        rwa [Finset.insert_eq_of_mem hmem]
      · refine (congrArg (Option.map _) hok).trans ?_
        simp [Reference.answer, Event.op, hmem]
    · obtain ⟨list', n, hok, hlive, hnull, hins⟩ := insert_spec hinv hfront hback newLevel malloc
      refine ⟨⟨list', congrArg (Option.map Prod.fst) hok, front ++ n :: back,
        inv_inserted hinv hfront hback hlive hnull newLevel.property.1 newLevel.property.2 hins,
        fun k => ?_⟩, ?_⟩
      · show k ∈ Insert.insert key keys ↔ _
        rw [Finset.mem_insert, hkeys]
        constructor
        · rintro (rfl | ⟨m, hm, rfl⟩)
          · exact ⟨n, by simp, hins.key⟩
          · exact ⟨m, List.perm_middle.mem_iff.mpr (List.mem_cons_of_mem _ hm), hins.keys m hm⟩
        · rintro ⟨m, hm, rfl⟩
          rcases List.mem_cons.mp (List.perm_middle.mem_iff.mp hm) with rfl | hm
          · exact Or.inl hins.key
          · exact Or.inr ⟨m, hm, (hins.keys m hm).symm⟩
      · refine (congrArg (Option.map _) hok).trans ?_
        simp [Reference.answer, Event.op, hmem]
  | delete key =>
    rcases related_cases h key with ⟨front, n, back, hinv, rfl, hfront, hback, hmem, hkeys⟩ |
      ⟨front, back, hinv, hfront, hback, hmem, -⟩
    · obtain ⟨list', hok, hdel⟩ := deleteNode_spec hinv hfront hback
      refine ⟨⟨list', congrArg (Option.map Prod.fst) hok, front ++ back, inv_deleted hinv hdel,
        fun k => ?_⟩, ?_⟩
      · rw [hdel.key]
        exact hkeys k
      · refine (congrArg (Option.map _) hok).trans ?_
        simp [Reference.answer, Event.op, hmem]
    · have hok := deleteNode_spec_not_mem hinv hfront hback
      refine ⟨⟨list, congrArg (Option.map Prod.fst) hok, ?_⟩, ?_⟩
      · show Related list (keys.erase key)
        rwa [Finset.erase_eq_of_notMem hmem]
      · refine (congrArg (Option.map _) hok).trans ?_
        simp [Reference.answer, Event.op, hmem]
  | search key =>
    rcases related_cases h key with ⟨front, n, back, hinv, rfl, hfront, hback, hmem, -⟩ |
      ⟨front, back, hinv, hfront, hback, hmem, -⟩
    · have hok := search_spec_mem hinv hfront hback
      refine ⟨⟨list, congrArg (Option.map _) hok, h⟩, (congrArg (Option.map _) hok).trans ?_⟩
      simp [Reference.answer, Event.op, hmem]
    · have hok := search_spec_not_mem hinv hfront hback
      refine ⟨⟨list, congrArg (Option.map _) hok, h⟩, (congrArg (Option.map _) hok).trans ?_⟩
      simp [Reference.answer, Event.op, hmem]

theorem related_create (key : Nat → Int) (height : Nat → Nat) (forward : Nat → Nat → Nat)
    (malloc : Malloc) : Related (createSkipList key height forward malloc) ∅ := by
  refine ⟨[], ⟨fun i hi => ?_, List.Pairwise.nil, fun _ hm => (nomatch hm), Or.inl rfl,
    ⟨Nat.le_refl 1, (by decide : 1 ≤ maxLevel)⟩, List.Perm.refl _, List.nodup_singleton _,
    fun hmem => ?_⟩, by simp⟩
  · show (createSkipList key height forward malloc).forward i (malloc.alloc []) = null
    unfold createSkipList createNode
    dsimp only
    rw [if_pos hi, Function.update_self]
  · exact malloc.alloc_ne_null _ (List.mem_singleton.mp hmem).symm

/-- The levels of a list. -/
structure Levels (list : SkipList) (levels : Nat → List Nat) : Prop where
  linked : ∀ i, i < maxLevel → Linked (list.forward i) (list.forward i list.header) (levels i)
  increasing : ((levels 0).map list.key).Pairwise (· < ·)
  sublist : ∀ i, (levels (i + 1)).Sublist (levels i)
  height : ∀ i n, n ∈ levels i ↔ n ∈ levels 0 ∧ i < list.height n
  bound : ∀ n ∈ levels 0, list.height n ≤ list.level
  greatest : levels 0 ≠ [] → ∃ n ∈ levels 0, list.height n = list.level
  empty : levels 0 = [] → list.level = 1

theorem Inv.levels_spec (h : Inv list nodes) : Levels list (onLevel list nodes) := by
  have hzero : onLevel list nodes 0 = nodes := onLevel_zero fun n hn => (h.heights n hn).1
  refine ⟨h.levels, ?_, fun i => ?_, fun i n => ?_, fun n hn => ?_, fun hne => ?_, fun hnil => ?_⟩
  · rw [hzero]
    exact List.pairwise_map.mpr h.sorted
  · refine List.monotone_filter_right nodes fun n hlt => ?_
    exact decide_eq_true (Nat.lt_of_succ_lt (of_decide_eq_true hlt))
  · rw [hzero]
    simp [onLevel]
  · exact (h.heights n (onLevel_subset _ _ hn)).2
  · rw [hzero] at hne ⊢
    rcases h.top with htop | htop
    · obtain ⟨n, hn⟩ := List.exists_mem_of_ne_nil nodes hne
      refine ⟨n, hn, Nat.le_antisymm (h.heights n hn).2 ?_⟩
      rw [htop]
      exact (h.heights n hn).1
    · exact htop
  · rw [hzero] at hnil
    rcases h.top with htop | ⟨n, hn, -⟩
    · exact htop
    · rw [hnil] at hn
      cases hn

/-- The reference always answers. -/
def referenceAnswer (keys : Finset Int) (op : Reference.Op) : Option Reference.Answer :=
  some (Reference.answer keys op)

/-- Whatever the levels of the new nodes are, the operations end and answer as
those of a finite set do, and the levels of the list have its keys. -/
theorem skip_list_refines (key : Nat → Int) (height : Nat → Nat) (forward : Nat → Nat → Nat)
    (malloc : Malloc) (events : List Event) :
    let init : State := some (createSkipList key height forward malloc)
    let keys := run Reference.step ∅ (events.map Event.op)
    trace step answer init events =
        trace Reference.step referenceAnswer ∅ (events.map Event.op) ∧
      (∀ events', events'.map Event.op = events.map Event.op →
        trace step answer init events' = trace step answer init events) ∧
      ∃ list levels, run step init events = some list ∧ Levels list levels ∧
        ∀ k, k ∈ keys ↔ ∃ n ∈ levels 0, list.key n = k := by
  intro init keys
  have hstep : ∀ s keys e, (∃ list, s = some list ∧ Related list keys) → True →
      (∃ list', step s e = some list' ∧ Related list' (Reference.step keys e.op)) ∧
        answer s e = referenceAnswer keys e.op := by
    rintro s keys e ⟨list, rfl, hrel⟩ -
    exact related_step hrel e
  have h0 : ∃ list, init = some list ∧ Related list ∅ :=
    ⟨_, rfl, related_create key height forward malloc⟩
  have halong : ∀ events, Along step (fun _ _ => True) init events :=
    fun events => along_of_forall (d := fun _ => True) fun _ _ => trivial
  have hkeep := fun s keys e hrel ht => (hstep s keys e hrel ht).1
  have htrace := fun events =>
    trace_related hkeep (fun s keys e hrel ht => (hstep s keys e hrel ht).2) (halong events) h0
  obtain ⟨list, hrun, nodes, hinv, hkeys⟩ := run_related hkeep (halong events) h0
  refine ⟨htrace events, fun events' heq => ?_, list, onLevel list nodes, hrun, hinv.levels_spec,
    fun k => ?_⟩
  · rw [htrace events, htrace events', heq]
  · rw [onLevel_zero fun n hn => (hinv.heights n hn).1]
    exact hkeys k

end Training.Skip
